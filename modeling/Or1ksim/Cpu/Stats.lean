import Mathlib.Algebra.Group.Prod
import Mathlib.Data.BitVec
import Or1ksim.Lib.Histogram

/-!
# Instruction statistics

`cpu/common/stats.c`, and the part of `analysis` in `cpu/or32/execute.c` that keeps it: how often
each instruction was executed, each pair of instructions one after the other, and each pair of
functional units.

* `addsstats`, `adddstats`, `addfstats` — one more instruction in the three tables;
* `analysis` — an instruction that was executed, after the one before it;
* `analysis_exact` — **the tables are the histograms of a run**, apart from the pairs of units whose
  first one is `it_unknown`.
-/

namespace Or1ksim
namespace Stats

open Histogram

/-- An `int`. -/
abbrev Count := BitVec 32

/-- `enum insn_type` -/
inductive InsnType where
  | unknown | exception | arith | shift | compare | branch | jump | load | store | movimm | move
  | extend | nop | mac | float
deriving DecidableEq, Repr

/-- `struct sstats_entry` -/
structure Sstats where
  insn : ℤ
  cntDynamic : Count
deriving DecidableEq, Repr

/-- `struct dstats_entry` -/
structure Dstats where
  insn1 : ℤ
  insn2 : ℤ
  cntDynamic : Count
  depend : Count
deriving DecidableEq, Repr

/-- `struct fstats_entry` -/
structure Fstats where
  insn1 : InsnType
  insn2 : InsnType
  cntDynamic : Count
  depend : Count
deriving DecidableEq, Repr

/-- `SSTATS_LEN`, `DSTATS_LEN` and `FSTATS_LEN` -/
def sstatsLen : ℕ := 300
def dstatsLen : ℕ := 3000
def fstatsLen : ℕ := 200

/-- The loop and the update of `addsstats`. -/
def sstatsTable : Table ℤ Count Sstats where
  stop item e := !(e.insn ≠ item && 0 ≤ e.insn)
  update x e := if 0 ≤ e.insn then { e with cntDynamic := e.cntDynamic + x.2 } else ⟨x.1, x.2⟩

/-- `addsstats`; none where an entry behind the table is read. -/
def addsstats (t : List Sstats) (item : ℤ) (cntDynamic : Count) : Option (List Sstats) :=
  sstatsTable.add t (item, cntDynamic)

/-- The loop and the update of `adddstats`. -/
def dstatsTable : Table (ℤ × ℤ) (Count × Count) Dstats where
  stop item e := !((e.insn1 ≠ item.1 || e.insn2 ≠ item.2) && 0 ≤ e.insn1)
  update x e :=
    if 0 ≤ e.insn1 then
      { e with cntDynamic := e.cntDynamic + x.2.1, depend := e.depend + x.2.2 }
    else ⟨x.1.1, x.1.2, x.2.1, x.2.2⟩

/-- `adddstats` -/
def adddstats (t : List Dstats) (item1 item2 : ℤ) (cntDynamic depend : Count) :
    Option (List Dstats) :=
  dstatsTable.add t ((item1, item2), cntDynamic, depend)

/-- The loop and the update of `addfstats`: a free entry is one of `it_unknown`, and the update asks
whether the entry is that of the pair. -/
def fstatsTable : Table (InsnType × InsnType) (Count × Count) Fstats where
  stop item e := !((e.insn1 ≠ item.1 || e.insn2 ≠ item.2) && e.insn1 ≠ .unknown)
  update x e :=
    if e.insn1 = x.1.1 ∧ e.insn2 = x.1.2 then
      { e with cntDynamic := e.cntDynamic + x.2.1, depend := e.depend + x.2.2 }
    else ⟨x.1.1, x.1.2, x.2.1, x.2.2⟩

/-- `addfstats` -/
def addfstats (t : List Fstats) (item1 item2 : InsnType) (cntDynamic depend : Count) :
    Option (List Fstats) :=
  fstatsTable.add t ((item1, item2), cntDynamic, depend)

/-- `struct iqueue_entry` -/
structure Iqueue where
  insnIndex : ℤ
  insn : BitVec 32
  insnAddr : BitVec 32

/-- The tables, and the instruction that was executed last. -/
structure State where
  sstats : List Sstats
  dstats : List Dstats
  fstats : List Fstats
  icomplet : Iqueue

/-- `initstats` -/
def initstats (icomplet : Iqueue) : State where
  sstats := List.replicate sstatsLen ⟨-1, 0⟩
  dstats := List.replicate dstatsLen ⟨-1, -1, 0, 0⟩
  fstats := List.replicate fstatsLen ⟨.unknown, .unknown, 0, 0⟩
  icomplet := icomplet

section Analysis

/- The column `func_unit` of the opcode table, and `check_depend`. -/
variable (funcUnit : ℤ → InsnType) (checkDepend : Iqueue → Iqueue → Bool)

/-- A condition as an `int`. -/
def toInt (b : Bool) : Count := if b then 1 else 0

/-- The statistics of `analysis`, with `dependstats`. -/
def analysis (s : State) (current : Iqueue) : Option State := do
  let depend := toInt (checkDepend s.icomplet current)
  let dstats ← adddstats s.dstats s.icomplet.insnIndex current.insnIndex 1 depend
  let fstats ← addfstats s.fstats (funcUnit s.icomplet.insnIndex) (funcUnit current.insnIndex) 1
    depend
  let sstats ← addsstats s.sstats current.insnIndex 1
  some ⟨sstats, dstats, fstats, current⟩

/-- Every instruction that was executed, with the one before it. -/
def steps (icomplet : Iqueue) (run : List Iqueue) : List (Iqueue × Iqueue) :=
  (icomplet :: run).zip run

/-- The instructions of a run, as events. -/
def insnEvents (run : List Iqueue) : List (ℤ × Count) := run.map fun x => (x.insnIndex, 1)

/-- The pairs of instructions of a run. -/
def pairEvents (icomplet : Iqueue) (run : List Iqueue) : List ((ℤ × ℤ) × Count × Count) :=
  (steps icomplet run).map fun x =>
    ((x.1.insnIndex, x.2.insnIndex), 1, toInt (checkDepend x.1 x.2))

/-- The pairs of functional units of a run. -/
def unitEvents (icomplet : Iqueue) (run : List Iqueue) :
    List ((InsnType × InsnType) × Count × Count) :=
  (steps icomplet run).map fun x =>
    ((funcUnit x.1.insnIndex, funcUnit x.2.insnIndex), 1, toInt (checkDepend x.1 x.2))

end Analysis

/-! ### The tables -/

/-- The used and the free entries. -/
def Sstats.used (x : ℤ × Count) : Sstats := ⟨x.1, x.2⟩

def Sstats.Free (e : Sstats) : Prop := e.insn < 0

def Dstats.used (x : (ℤ × ℤ) × Count × Count) : Dstats := ⟨x.1.1, x.1.2, x.2.1, x.2.2⟩

def Dstats.Free (e : Dstats) : Prop := e.insn1 < 0

def Fstats.used (x : (InsnType × InsnType) × Count × Count) : Fstats :=
  ⟨x.1.1, x.1.2, x.2.1, x.2.2⟩

def Fstats.Free (e : Fstats) : Prop := e.insn1 = .unknown

theorem sstats_lawful : sstatsTable.Lawful (fun k => 0 ≤ k) Sstats.used Sstats.Free where
  stop_used k x hx := by
    have hx : 0 ≤ x.1 := of_decide_eq_true hx
    simp [sstatsTable, Sstats.used, hx]
  stop_free k e he := by
    have he : ¬0 ≤ e.insn := not_le_of_gt he
    simp [sstatsTable, he]
  update_used k v w hk := by
    have hk : 0 ≤ k := of_decide_eq_true hk
    simp [sstatsTable, Sstats.used, hk]
  update_free k v e _ he := if_neg (not_le_of_gt he)
  update_other k v e hk he := by
    have hk : k < 0 := not_le.1 (of_decide_eq_false hk)
    have hnew : sstatsTable.update (k, v) e = ⟨k, v⟩ := if_neg (not_le_of_gt he)
    rw [hnew]
    exact hk

theorem dstats_lawful : dstatsTable.Lawful (fun k => 0 ≤ k.1) Dstats.used Dstats.Free where
  stop_used k x hx := by
    have hx : 0 ≤ x.1.1 := of_decide_eq_true hx
    simp [dstatsTable, Dstats.used, hx, Prod.ext_iff]
  stop_free k e he := by
    have he : ¬0 ≤ e.insn1 := not_le_of_gt he
    simp [dstatsTable, he]
  update_used k v w hk := by
    have hk : 0 ≤ k.1 := of_decide_eq_true hk
    simp [dstatsTable, Dstats.used, hk]
  update_free k v e _ he := if_neg (not_le_of_gt he)
  update_other k v e hk he := by
    have hk : k.1 < 0 := not_le.1 (of_decide_eq_false hk)
    have hnew : dstatsTable.update (k, v) e = ⟨k.1, k.2, v.1, v.2⟩ := if_neg (not_le_of_gt he)
    rw [hnew]
    exact hk

theorem fstats_lawful : fstatsTable.Lawful (fun k => k.1 ≠ .unknown) Fstats.used Fstats.Free where
  stop_used k x hx := by
    have hx : x.1.1 ≠ .unknown := of_decide_eq_true hx
    simp [fstatsTable, Fstats.used, hx, Prod.ext_iff]
  stop_free k e he := by
    have he : e.insn1 = .unknown := he
    simp [fstatsTable, he]
  update_used k v w _ := by simp [fstatsTable, Fstats.used]
  update_free k v e hk he := by
    have hk : k.1 ≠ .unknown := of_decide_eq_true hk
    have he : e.insn1 = .unknown := he
    refine if_neg fun h => hk ?_
    rw [← h.1, he]
  update_other k v e hk he := by
    have hk : k.1 = .unknown := by simpa using hk
    by_cases h : e.insn1 = k.1 ∧ e.insn2 = k.2
    · have hnew : fstatsTable.update (k, v) e =
          { e with cntDynamic := e.cntDynamic + v.1, depend := e.depend + v.2 } := if_pos h
      rw [hnew]
      exact he
    · have hnew : fstatsTable.update (k, v) e = ⟨k.1, k.2, v.1, v.2⟩ := if_neg h
      rw [hnew]
      exact hk

theorem represents_replicate {κ V E : Type} {used : κ × V → E} {Free : E → Prop} {n : ℕ} {e : E}
    (hn : n ≠ 0) (he : Free e) : Represents used Free (List.replicate n e) [] :=
  ⟨_, mt (List.replicate_eq_nil_iff e).1 hn, fun _ h => List.eq_of_mem_replicate h ▸ he, rfl⟩

/-! ### Runs -/

section Analysis

variable {funcUnit : ℤ → InsnType} {checkDepend : Iqueue → Iqueue → Bool}

theorem foldlM_analysis {run : List Iqueue} {s : State} {sstats : List Sstats}
    {dstats : List Dstats} {fstats : List Fstats}
    (hs : (insnEvents run).foldlM sstatsTable.add s.sstats = some sstats)
    (hd : (pairEvents checkDepend s.icomplet run).foldlM dstatsTable.add s.dstats = some dstats)
    (hf : (unitEvents funcUnit checkDepend s.icomplet run).foldlM fstatsTable.add s.fstats =
      some fstats) :
    run.foldlM (analysis funcUnit checkDepend) s =
      some ⟨sstats, dstats, fstats, run.getLastD s.icomplet⟩ := by
  induction run generalizing s with
  | nil =>
    cases hs
    cases hd
    cases hf
    rfl
  | cons x run ih =>
    rw [insnEvents, List.map_cons, List.foldlM_cons, ← insnEvents] at hs
    rw [pairEvents, steps, List.zip_cons_cons, List.map_cons, List.foldlM_cons, ← steps,
      ← pairEvents] at hd
    rw [unitEvents, steps, List.zip_cons_cons, List.map_cons, List.foldlM_cons, ← steps,
      ← unitEvents] at hf
    obtain ⟨ss, hss, hs⟩ := Option.bind_eq_some_iff.1 hs
    obtain ⟨ds, hds, hd⟩ := Option.bind_eq_some_iff.1 hd
    obtain ⟨fs, hfs, hf⟩ := Option.bind_eq_some_iff.1 hf
    have hstep : analysis funcUnit checkDepend s x = some ⟨ss, ds, fs, x⟩ := by
      simp only [analysis, addsstats, adddstats, addfstats, hss, hds, hfs, Option.bind_eq_bind,
        Option.bind_some]
    rw [List.foldlM_cons, hstep, Option.bind_eq_bind, Option.bind_some, List.getLastD_cons]
    exact ih hs hd hf

/-- **The tables are the histograms of a run**: the first 299 instructions and the first 2999 pairs
of instructions with the number of times that they were executed, and the first 199 pairs of
functional units, as far as the first unit is not `it_unknown`. -/
theorem analysis_exact (icomplet : Iqueue) (run : List Iqueue) :
    ∃ s, run.foldlM (analysis funcUnit checkDepend) (initstats icomplet) = some s ∧
      Represents Sstats.used Sstats.Free s.sstats
        (histogram 299 ((insnEvents run).filter fun e => 0 ≤ e.1)) ∧
      Represents Dstats.used Dstats.Free s.dstats
        (histogram 2999 ((pairEvents checkDepend icomplet run).filter fun e => 0 ≤ e.1.1)) ∧
      Represents Fstats.used Fstats.Free s.fstats
        (histogram 199 ((unitEvents funcUnit checkDepend icomplet run).filter
          fun e => e.1.1 ≠ .unknown)) := by
  have hsfree : Sstats.Free ⟨-1, 0⟩ := (by decide : (-1 : ℤ) < 0)
  have hdfree : Dstats.Free ⟨-1, -1, 0, 0⟩ := (by decide : (-1 : ℤ) < 0)
  have hffree : Fstats.Free ⟨.unknown, .unknown, 0, 0⟩ := rfl
  obtain ⟨ss, hss, -, hs⟩ := Table.run_represents sstats_lawful
    (represents_replicate (by decide : sstatsLen ≠ 0) hsfree) (insnEvents run)
  obtain ⟨ds, hds, -, hd⟩ := Table.run_represents dstats_lawful
    (represents_replicate (by decide : dstatsLen ≠ 0) hdfree)
    (pairEvents checkDepend icomplet run)
  obtain ⟨fs, hfs, -, hf⟩ := Table.run_represents fstats_lawful
    (represents_replicate (by decide : fstatsLen ≠ 0) hffree)
    (unitEvents funcUnit checkDepend icomplet run)
  refine ⟨_, foldlM_analysis (s := initstats icomplet) hss hds hfs, ?_, ?_, ?_⟩
  · rwa [List.length_replicate] at hs
  · rwa [List.length_replicate] at hd
  · rwa [List.length_replicate] at hf

end Analysis

end Stats
end Or1ksim
