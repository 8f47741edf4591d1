import Mathlib.Data.BitVec
import Mathlib.Logic.Function.Basic
import Or1ksim.Lib.Recency

/-!
# Branch prediction

`bpb/branch-predict.c`: the branch prediction buffer and the branch target instruction cache, and
their updates by `l_bf` and `l_bnf` in `cpu/or32/insnset.c`.

* `Way.find`, `Way.victim`, `Way.use` — the loops that both updates have;
* `bpbUpdate`, `bticUpdate` — a branch, and the target of a branch;
* `lBf`, `lBnf` — the statistics of the two branch instructions;
* `bpb_exact` — **hits and predictions**: a branch hits if it was the last of its set, and is
  predicted as it went then;
* `btic_exact` — **the target cache keeps the last two targets** of each set.
-/

namespace Or1ksim
namespace Branches

open Recency

/-- An `oraddr_t` or an `int`. -/
abbrev Word := BitVec 32

/-- One way of an entry: an address, what is kept for it, and how lately it was used. -/
structure Way (α : Type) where
  addr : Word
  data : α
  lru : ℕ
deriving DecidableEq, Repr

namespace Way

variable {α : Type}

/-- The way with an address, the last one if there are more. -/
def find (n : ℕ) (ways : ℕ → Way α) (addr : Word) : Option ℕ :=
  (List.range n).foldl (fun way i => if (ways i).addr = addr then some i else way) none

/-- The last way with a counter below `minlru`, or way 0. -/
def victim (n minlru : ℕ) (ways : ℕ → Way α) : ℕ :=
  (List.range n).foldl (fun minway i => if (ways i).lru < minlru then i else minway) 0

/-- All counters go down, except that of the way that is used. -/
def use (ustates : ℕ) (ways : ℕ → Way α) (way : ℕ) : ℕ → Way α :=
  Function.update (fun i => { ways i with lru := (ways i).lru - 1 }) way
    { ways way with lru := ustates - 1 }

end Way

/-! ### The two units -/

/-- `BPB_LEN`, `BPB_WAYS`, `BPB_PSTATES` and `BPB_USTATES` -/
def bpbLen : ℕ := 64
def bpbWays : ℕ := 1
def bpbPstates : ℕ := 2
def bpbUstates : ℕ := 2

/-- `BTIC_LEN`, `BTIC_WAYS` and `BTIC_USTATES` -/
def bticLen : ℕ := 128
def bticWays : ℕ := 2
def bticUstates : ℕ := 2

/-- The part of `struct mstats_entry` that the two units and the branches keep. -/
structure Mstats where
  bf : ℕ → ℕ → Word
  bnf : ℕ → ℕ → Word
  bpbHit : Word
  bpbMiss : Word
  bpbCorrect : Word
  bpbIncorrect : Word
  bticHit : Word
  bticMiss : Word

/-- `config.bpb`, as far as the updates read it. -/
structure Config where
  enabled : Bool
  btic : Bool

/-- `bpb`, `btic` and `or1k_mstats`. -/
structure State where
  bpb : ℕ → ℕ → Way ℕ
  btic : ℕ → ℕ → Way Unit
  mstats : Mstats

/-- The zeros of the data segment. -/
def init : State where
  bpb _ _ := ⟨0, 0, 0⟩
  btic _ _ := ⟨0, (), 0⟩
  mstats := ⟨fun _ _ => 0, fun _ _ => 0, 0, 0, 0, 0, 0, 0⟩

/-- `taken` of a way, counted up or down. -/
def counted (way : Way ℕ) (taken : ℕ) : ℕ :=
  if taken ≠ 0 ∧ way.data < bpbPstates - 1 then way.data + 1
  else if taken = 0 ∧ way.data ≠ 0 then way.data - 1
  else way.data

/-- The entry of a branch that was found. -/
def bpbFound (ways : ℕ → Way ℕ) (way taken : ℕ) : ℕ → Way ℕ :=
  let ways := Way.use bpbUstates ways way
  Function.update ways way { ways way with data := counted (ways way) taken }

/-- The entry of a branch that was not found. -/
def bpbReplaced (ways : ℕ → Way ℕ) (addr : Word) (taken : ℕ) : ℕ → Way ℕ :=
  let minway := Way.victim bpbWays (bpbUstates - 1) ways
  Way.use bpbUstates (Function.update ways minway
    { ways minway with addr := addr, data := bpbPstates / 2 - 1 + taken }) minway

/-- A hit, and the prediction. -/
def Mstats.addHit (m : Mstats) (correct : Bool) : Mstats :=
  if correct then { m with bpbHit := m.bpbHit + 1, bpbCorrect := m.bpbCorrect + 1 }
  else { m with bpbHit := m.bpbHit + 1, bpbIncorrect := m.bpbIncorrect + 1 }

/-- `bpb_update` -/
def bpbUpdate (config : Config) (addr : Word) (taken : ℕ) (s : State) : State :=
  if !config.enabled then s
  else
    let entry := addr.toNat % bpbLen
    let ways := s.bpb entry
    match Way.find bpbWays ways addr with
    | some way =>
      { s with
        bpb := Function.update s.bpb entry (bpbFound ways way taken)
        mstats := s.mstats.addHit ((ways way).data / (bpbPstates / 2) = taken) }
    | none =>
      { s with
        bpb := Function.update s.bpb entry (bpbReplaced ways addr taken)
        mstats := { s.mstats with bpbMiss := s.mstats.bpbMiss + 1 } }

/-- The entry of a target that was not found. -/
def bticReplaced (ways : ℕ → Way Unit) (targetaddr : Word) : ℕ → Way Unit :=
  let minway := Way.victim bticWays (bticUstates - 1) ways
  Way.use bticUstates (Function.update ways minway { ways minway with addr := targetaddr }) minway

/-- `btic_update` -/
def bticUpdate (config : Config) (targetaddr : Word) (s : State) : State :=
  if !config.btic then s
  else
    let entry := targetaddr.toNat % bticLen
    let ways := s.btic entry
    match Way.find bticWays ways targetaddr with
    | some way =>
      { s with
        btic := Function.update s.btic entry (Way.use bticUstates ways way)
        mstats := { s.mstats with bticHit := s.mstats.bticHit + 1 } }
    | none =>
      { s with
        btic := Function.update s.btic entry (bticReplaced ways targetaddr)
        mstats := { s.mstats with bticMiss := s.mstats.bticMiss + 1 } }

/-! ### The branch instructions -/

/-- One more in a table of counters. -/
def count (t : ℕ → ℕ → Word) (i j : ℕ) : ℕ → ℕ → Word :=
  Function.update t i (Function.update (t i) j (t i j + 1))

/-- What a conditional branch reads. -/
structure Branch where
  insnAddr : Word
  param0 : Word
  pc : Word
  pcnext : Word
  flag : Bool

/-- The statistics of `l_bf`. -/
def lBf (config : Config) (b : Branch) (s : State) : State :=
  let taken := if b.flag then 1 else 0
  let s :=
    if config.enabled then
      let fwd := if b.pc ≤ b.param0 then 1 else 0
      bpbUpdate config b.insnAddr taken
        { s with mstats := { s.mstats with bf := count s.mstats.bf taken fwd } }
    else s
  bticUpdate config (if b.flag then b.pcnext else b.pc) s

/-- The statistics of `l_bnf`. -/
def lBnf (config : Config) (b : Branch) (s : State) : State :=
  let taken := if b.flag then 0 else 1
  let s :=
    if config.enabled then
      let fwd := if b.pc ≤ b.param0 then 1 else 0
      bpbUpdate config b.insnAddr taken
        { s with mstats := { s.mstats with bnf := count s.mstats.bnf taken fwd } }
    else s
  bticUpdate config (if b.flag then b.pc else b.pcnext) s

/-- A conditional branch. -/
inductive Insn where
  | bf (b : Branch)
  | bnf (b : Branch)

namespace Insn

/-- The instruction that is executed. -/
def exec (config : Config) (s : State) : Insn → State
  | bf b => lBf config b s
  | bnf b => lBnf config b s

/-- What the instruction reads. -/
def branch : Insn → Branch
  | bf b => b
  | bnf b => b

/-- The branch is taken. -/
def taken : Insn → Bool
  | bf b => b.flag
  | bnf b => !b.flag

/-- Where the simulator says that it goes. -/
def target (x : Insn) : Word := if x.taken then x.branch.pcnext else x.branch.pc

/-- A forward branch, as the simulator compares. -/
def fwd (x : Insn) : Bool := decide (x.branch.pc ≤ x.branch.param0)

/-- An `l.bf`. -/
def isBf : Insn → Bool
  | bf _ => true
  | bnf _ => false

/-- The set of the prediction buffer. -/
def entry (x : Insn) : ℕ := x.branch.insnAddr.toNat % bpbLen

end Insn

/-! ### What the updates do -/

section Updates

variable {config : Config} {s : State}

theorem find_bpb (ways : ℕ → Way ℕ) (addr : Word) :
    Way.find bpbWays ways addr = if (ways 0).addr = addr then some 0 else none := rfl

theorem victim_bpb (m : ℕ) (ways : ℕ → Way ℕ) : Way.victim bpbWays m ways = 0 :=
  ite_self 0

theorem counted_eq {w : Way ℕ} (hw : w.data ≤ 1) (taken : Bool) :
    counted w taken.toNat = taken.toNat := by
  unfold counted bpbPstates
  cases taken <;> simp <;> split <;> omega

/-- The prediction that is kept of the last branch. -/
def Predicts (ways : ℕ → Way ℕ) (addr : Word) (taken : Bool) : Prop :=
  (ways 0).addr = addr ∧ (ways 0).data = taken.toNat

theorem predicts_bpbFound {ways : ℕ → Way ℕ} {addr : Word} {b taken : Bool}
    (h : Predicts ways addr b) : Predicts (bpbFound ways 0 taken.toNat) addr taken := by
  refine ⟨?_, ?_⟩
  · rw [← h.1]
    rfl
  · refine counted_eq ?_ taken
    exact h.2.trans_le b.toNat_le

theorem predicts_bpbReplaced (ways : ℕ → Way ℕ) (addr : Word) (taken : Bool) :
    Predicts (bpbReplaced ways addr taken.toNat) addr taken := by
  unfold bpbReplaced
  rw [victim_bpb]
  refine ⟨?_, ?_⟩
  · simp only [Way.use, Function.update_self]
  · simp only [Way.use, Function.update_self]
    exact Nat.zero_add _

/-- The counters after a branch: it was kept or not, and went as it was kept or not. -/
def Mstats.addBranch (m : Mstats) (hit correct : Bool) : Mstats :=
  if hit then m.addHit correct else { m with bpbMiss := m.bpbMiss + 1 }

/-- A branch of the buffer: its set keeps it, the other sets stay, and the counters say whether it
was there and how it went. -/
theorem bpbUpdate_spec (henabled : config.enabled = true) {addr a : Word} {b : Bool}
    (h : Predicts (s.bpb (addr.toNat % bpbLen)) a b) (taken : Bool) :
    ∃ ways, Predicts ways addr taken ∧
      bpbUpdate config addr taken.toNat s =
        { s with
          bpb := Function.update s.bpb (addr.toNat % bpbLen) ways
          mstats := s.mstats.addBranch (a = addr) (b = taken) } := by
  unfold bpbUpdate
  rw [henabled, if_neg (by decide)]
  dsimp only
  rw [find_bpb, h.1]
  by_cases haddr : a = addr
  · subst haddr
    rw [if_pos rfl]
    refine ⟨_, predicts_bpbFound h, ?_⟩
    have hpred : (b.toNat = taken.toNat) = (b = taken) := by
      cases b <;> cases taken <;> decide
    dsimp only
    rw [h.2, bpbPstates, Nat.div_self Nat.two_pos, Nat.div_one]
    simp only [Mstats.addBranch, hpred, decide_true, if_true]
  · rw [if_neg haddr]
    refine ⟨_, predicts_bpbReplaced (s.bpb (addr.toNat % bpbLen)) addr taken, ?_⟩
    simp only [Mstats.addBranch, haddr, decide_false, if_false, Bool.false_eq_true]

theorem find_btic (ways : ℕ → Way Unit) (addr : Word) :
    Way.find bticWays ways addr =
      if (ways 1).addr = addr then some 1 else if (ways 0).addr = addr then some 0 else none :=
  rfl

theorem victim_btic (m : ℕ) (ways : ℕ → Way Unit) :
    Way.victim bticWays m ways = if (ways 1).lru < m then 1 else 0 := by
  have hfold : Way.victim bticWays m ways =
      if (ways 1).lru < m then 1 else if (ways 0).lru < m then 0 else 0 := rfl
  rw [hfold, ite_self]

/-- The addresses of an entry, the one used last first. -/
inductive Keeps (ways : ℕ → Way Unit) : List Word → Prop
  | one {a : Word} {lru : ℕ} (h₀ : ways 0 = ⟨a, (), 0⟩) (h₁ : ways 1 = ⟨a, (), lru⟩)
      (hlru : lru ≤ 1) : Keeps ways [a]
  | first {a b : Word} (h₀ : ways 0 = ⟨a, (), 1⟩) (h₁ : ways 1 = ⟨b, (), 0⟩) (hne : a ≠ b) :
      Keeps ways [a, b]
  | second {a b : Word} (h₀ : ways 0 = ⟨b, (), 0⟩) (h₁ : ways 1 = ⟨a, (), 1⟩) (hne : a ≠ b) :
      Keeps ways [a, b]

theorem Keeps.mem_iff {ways : ℕ → Way Unit} {l : List Word} (h : Keeps ways l) (t : Word) :
    t ∈ l ↔ (ways 1).addr = t ∨ (ways 0).addr = t := by
  cases h with
  | one h₀ h₁ => simp [h₀, h₁, eq_comm]
  | first h₀ h₁ => simp [h₀, h₁, eq_comm, or_comm]
  | second h₀ h₁ => simp [h₀, h₁, eq_comm]

/-- The entry after a target. -/
def bticEntry (ways : ℕ → Way Unit) (t : Word) : ℕ → Way Unit :=
  match Way.find bticWays ways t with
  | some way => Way.use bticUstates ways way
  | none => bticReplaced ways t

theorem bticUpdate_spec (hbtic : config.btic = true) {t : Word} {l : List Word}
    (h : Keeps (s.btic (t.toNat % bticLen)) l) :
    bticUpdate config t s =
      { s with
        btic := Function.update s.btic (t.toNat % bticLen)
          (bticEntry (s.btic (t.toNat % bticLen)) t)
        mstats :=
          { s.mstats with
            bticHit := s.mstats.bticHit + if t ∈ l then 1 else 0
            bticMiss := s.mstats.bticMiss + if t ∈ l then 0 else 1 } } := by
  have hfind : t ∈ l ↔ (Way.find bticWays (s.btic (t.toNat % bticLen)) t).isSome := by
    rw [h.mem_iff, find_btic]
    by_cases h₁ : (s.btic (t.toNat % bticLen) 1).addr = t
    · simp [h₁]
    · by_cases h₀ : (s.btic (t.toNat % bticLen) 0).addr = t <;> simp [h₀, h₁]
  unfold bticUpdate bticEntry
  rw [hbtic, if_neg (by decide)]
  dsimp only
  cases hway : Way.find bticWays (s.btic (t.toNat % bticLen)) t with
  | some way => simp [hfind, hway]
  | none => simp [hfind, hway]

theorem bticReplaced_one {ways : ℕ → Way Unit} {a b : Word} {m : ℕ} (h₀ : ways 0 = ⟨a, (), m⟩)
    (h₁ : ways 1 = ⟨b, (), 0⟩) (t : Word) :
    bticReplaced ways t 0 = ⟨a, (), m - 1⟩ ∧ bticReplaced ways t 1 = ⟨t, (), 1⟩ := by
  have hvictim : Way.victim bticWays (bticUstates - 1) ways = 1 := by
    rw [victim_btic, h₁]
    rfl
  unfold bticReplaced
  rw [hvictim]
  constructor <;> simp [Way.use, bticUstates, h₀]

theorem bticReplaced_zero {ways : ℕ → Way Unit} {b : Word} (h₁ : ways 1 = ⟨b, (), 1⟩) (t : Word) :
    bticReplaced ways t 0 = ⟨t, (), 1⟩ ∧ bticReplaced ways t 1 = ⟨b, (), 0⟩ := by
  have hvictim : Way.victim bticWays (bticUstates - 1) ways = 0 := by
    rw [victim_btic, h₁]
    rfl
  unfold bticReplaced
  rw [hvictim]
  constructor <;> simp [Way.use, bticUstates, h₁]

/-- **An entry keeps the last two targets**. -/
theorem Keeps.touch {ways : ℕ → Way Unit} {l : List Word} (h : Keeps ways l) (t : Word) :
    Keeps (bticEntry ways t) (Recency.touch bticWays t l) := by
  unfold bticEntry
  rw [find_btic]
  cases h with
  | @one a lru h₀ h₁ hlru =>
    rw [h₀, h₁]
    by_cases hat : a = t
    · subst hat
      rw [if_pos rfl]
      have htouch : Recency.touch bticWays a [a] = [a] := by simp [Recency.touch, bticWays]
      rw [htouch]
      exact .one (by simp [Way.use, h₀]) (by simp [Way.use, h₁, bticUstates]) le_rfl
    · rw [if_neg hat, if_neg hat]
      have htouch : Recency.touch bticWays t [a] = [t, a] := by
        simp [Recency.touch, bticWays, hat]
      rw [htouch]
      obtain rfl | rfl : lru = 0 ∨ lru = 1 := by omega
      · obtain ⟨h, h'⟩ := bticReplaced_one h₀ h₁ t
        exact .second h h' (Ne.symm hat)
      · obtain ⟨h, h'⟩ := bticReplaced_zero h₁ t
        exact .first h h' (Ne.symm hat)
  | @first a b h₀ h₁ hne =>
    rw [h₀, h₁]
    by_cases hb : b = t
    · subst hb
      rw [if_pos rfl]
      have htouch : Recency.touch bticWays b [a, b] = [b, a] := by
        simp [Recency.touch, bticWays, hne]
      rw [htouch]
      exact .second (by simp [Way.use, h₀]) (by simp [Way.use, h₁, bticUstates]) hne.symm
    · rw [if_neg hb]
      by_cases ha : a = t
      · subst ha
        rw [if_pos rfl]
        have htouch : Recency.touch bticWays a [a, b] = [a, b] := by
          simp [Recency.touch, bticWays]
        rw [htouch]
        exact .first (by simp [Way.use, h₀, bticUstates]) (by simp [Way.use, h₁]) hne
      · rw [if_neg ha]
        have htouch : Recency.touch bticWays t [a, b] = [t, a] := by
          simp [Recency.touch, bticWays, ha, hb]
        rw [htouch]
        obtain ⟨h, h'⟩ := bticReplaced_one h₀ h₁ t
        exact .second h h' (Ne.symm ha)
  | @second a b h₀ h₁ hne =>
    rw [h₀, h₁]
    by_cases ha : a = t
    · subst ha
      rw [if_pos rfl]
      have htouch : Recency.touch bticWays a [a, b] = [a, b] := by simp [Recency.touch, bticWays]
      rw [htouch]
      exact .second (by simp [Way.use, h₀]) (by simp [Way.use, h₁, bticUstates]) hne
    · rw [if_neg ha]
      by_cases hb : b = t
      · subst hb
        rw [if_pos rfl]
        have htouch : Recency.touch bticWays b [a, b] = [b, a] := by
          simp [Recency.touch, bticWays, hne]
        rw [htouch]
        exact .first (by simp [Way.use, h₀, bticUstates]) (by simp [Way.use, h₁]) hne.symm
      · rw [if_neg hb]
        have htouch : Recency.touch bticWays t [a, b] = [t, a] := by
          simp [Recency.touch, bticWays, ha, hb]
        rw [htouch]
        obtain ⟨h, h'⟩ := bticReplaced_zero h₁ t
        exact .first h h' (Ne.symm ha)

end Updates

/-! ### Runs -/

section Runs

/-- The counters of the branch instructions. -/
def Mstats.addInsn (m : Mstats) (x : Insn) : Mstats :=
  match x with
  | .bf _ => { m with bf := count m.bf x.taken.toNat x.fwd.toNat }
  | .bnf _ => { m with bnf := count m.bnf x.taken.toNat x.fwd.toNat }

theorem exec_eq (config : Config) (s : State) (x : Insn) :
    Insn.exec config s x = bticUpdate config x.target
      (if config.enabled then bpbUpdate config x.branch.insnAddr x.taken.toNat
        { s with mstats := s.mstats.addInsn x } else s) := by
  cases x with
  | bf b =>
    have hfwd : (if b.pc ≤ b.param0 then 1 else 0) = (Insn.bf b).fwd.toNat := by
      by_cases h : b.pc ≤ b.param0 <;> simp [Insn.fwd, Insn.branch, h]
    have htaken : (if b.flag then 1 else 0) = (Insn.bf b).taken.toNat := by
      cases h : b.flag <;> simp [Insn.taken, h]
    simp only [Insn.exec, lBf, hfwd, htaken]
    rfl
  | bnf b =>
    have hfwd : (if b.pc ≤ b.param0 then 1 else 0) = (Insn.bnf b).fwd.toNat := by
      by_cases h : b.pc ≤ b.param0 <;> simp [Insn.fwd, Insn.branch, h]
    have htaken : (if b.flag then 0 else 1) = (Insn.bnf b).taken.toNat := by
      cases h : b.flag <;> simp [Insn.taken, h]
    have htarget : (if b.flag then b.pc else b.pcnext) = (Insn.bnf b).target := by
      cases h : b.flag <;> simp [Insn.target, Insn.taken, Insn.branch, h]
    simp only [Insn.exec, lBnf, hfwd, htaken, htarget]
    rfl

/-- The last branch of a set, the past with the last one first, and whether it was taken; zeros
stand for it at first. -/
def lastOf (past : List Insn) (entry : ℕ) : Word × Bool :=
  ((past.find? fun x => x.entry = entry).map fun x => (x.branch.insnAddr, x.taken)).getD (0, false)

/-- The last branch of the set was this one. -/
def hits (past : List Insn) (x : Insn) : Bool := (lastOf past x.entry).1 = x.branch.insnAddr

/-- It went the same way. -/
def predicted (past : List Insn) (x : Insn) : Bool := (lastOf past x.entry).2 = x.taken

/-- The last targets of a set. -/
def lastTargets (past : List Insn) (entry : ℕ) : List Word :=
  (distinct (((past.map Insn.target).filter fun t => t.toNat % bticLen = entry) ++ [0])).take
    bticWays

/-- The prediction buffer keeps the last branch of every set. -/
def BpbOk (past : List Insn) (s : State) : Prop :=
  ∀ e, Predicts (s.bpb e) (lastOf past e).1 (lastOf past e).2

/-- The target cache keeps the last targets of every set. -/
def BticOk (past : List Insn) (s : State) : Prop := ∀ e, Keeps (s.btic e) (lastTargets past e)

variable {s : State} {past : List Insn}

theorem bticUpdate_frame (config : Config) (t : Word) (s : State) :
    (bticUpdate config t s).bpb = s.bpb ∧
      ∃ hit miss, (bticUpdate config t s).mstats =
        { s.mstats with bticHit := hit, bticMiss := miss } := by
  unfold bticUpdate
  split
  · exact ⟨rfl, _, _, rfl⟩
  · dsimp only
    split
    · exact ⟨rfl, _, _, rfl⟩
    · exact ⟨rfl, _, _, rfl⟩

theorem bpbUpdate_frame (config : Config) (addr : Word) (taken : ℕ) (s : State) :
    (bpbUpdate config addr taken s).btic = s.btic ∧
      (bpbUpdate config addr taken s).mstats.bticHit = s.mstats.bticHit ∧
      (bpbUpdate config addr taken s).mstats.bticMiss = s.mstats.bticMiss := by
  unfold bpbUpdate
  split
  · exact ⟨rfl, rfl, rfl⟩
  · dsimp only
    split
    · unfold Mstats.addHit
      refine ⟨rfl, ?_, ?_⟩ <;> split <;> rfl
    · exact ⟨rfl, rfl, rfl⟩

theorem lastOf_cons (past : List Insn) (x : Insn) (e : ℕ) :
    lastOf (x :: past) e =
      if x.entry = e then (x.branch.insnAddr, x.taken) else lastOf past e := by
  unfold lastOf
  rw [List.find?_cons]
  by_cases h : x.entry = e <;> simp [h]

theorem lastTargets_cons (past : List Insn) (x : Insn) (e : ℕ) :
    lastTargets (x :: past) e =
      if x.target.toNat % bticLen = e then
        touch bticWays x.target (lastTargets past e)
      else lastTargets past e := by
  unfold lastTargets
  rw [List.map_cons, List.filter_cons]
  by_cases h : x.target.toNat % bticLen = e
  · rw [if_pos (decide_eq_true h), if_pos h, List.cons_append]
    exact (touch_distinct x.target _).symm
  · rw [if_neg (by simpa using h), if_neg h]

theorem exec_bpb (config : Config) (henabled : config.enabled = true) (h : BpbOk past s)
    (x : Insn) :
    BpbOk (x :: past) (Insn.exec config s x) ∧
      ∃ hit miss, (Insn.exec config s x).mstats =
        { (s.mstats.addInsn x).addBranch (hits past x) (predicted past x) with
          bticHit := hit, bticMiss := miss } := by
  rw [exec_eq, if_pos henabled]
  obtain ⟨ways, hways, hupdate⟩ := bpbUpdate_spec henabled
    (s := { s with mstats := s.mstats.addInsn x }) (h x.entry) x.taken
  obtain ⟨hbpb, hit, miss, hmstats⟩ := bticUpdate_frame config x.target
    (bpbUpdate config x.branch.insnAddr x.taken.toNat { s with mstats := s.mstats.addInsn x })
  refine ⟨fun e => ?_, hit, miss, ?_⟩
  · rw [hbpb, hupdate, lastOf_cons]
    change Predicts (Function.update s.bpb x.entry ways e) _ _
    by_cases he : x.entry = e
    · subst he
      rw [if_pos rfl, Function.update_self]
      exact hways
    · rw [if_neg he, Function.update_of_ne (Ne.symm he)]
      exact h e
  · rw [hmstats, hupdate]
    rfl

theorem exec_btic (config : Config) (hbtic : config.btic = true) (h : BticOk past s) (x : Insn) :
    BticOk (x :: past) (Insn.exec config s x) ∧
      (Insn.exec config s x).mstats.bticHit = s.mstats.bticHit +
        (if x.target ∈ lastTargets past (x.target.toNat % bticLen) then 1 else 0) ∧
      (Insn.exec config s x).mstats.bticMiss = s.mstats.bticMiss +
        (if x.target ∈ lastTargets past (x.target.toNat % bticLen) then 0 else 1) := by
  rw [exec_eq]
  generalize hs' : (if config.enabled then bpbUpdate config x.branch.insnAddr x.taken.toNat
        { s with mstats := s.mstats.addInsn x } else s) = s'
  have hsame : s'.btic = s.btic ∧ s'.mstats.bticHit = s.mstats.bticHit ∧
      s'.mstats.bticMiss = s.mstats.bticMiss := by
    have hinsn : (s.mstats.addInsn x).bticHit = s.mstats.bticHit ∧
        (s.mstats.addInsn x).bticMiss = s.mstats.bticMiss := by
      cases x <;> exact ⟨rfl, rfl⟩
    rw [← hs']
    split
    · obtain ⟨hbtic', hhit, hmiss⟩ := bpbUpdate_frame config x.branch.insnAddr x.taken.toNat
        { s with mstats := s.mstats.addInsn x }
      exact ⟨hbtic', hhit.trans hinsn.1, hmiss.trans hinsn.2⟩
    · exact ⟨rfl, rfl, rfl⟩
  obtain ⟨hsame, hhit, hmiss⟩ := hsame
  have hkeeps : Keeps (s'.btic (x.target.toNat % bticLen))
      (lastTargets past (x.target.toNat % bticLen)) := hsame ▸ h _
  rw [bticUpdate_spec hbtic hkeeps, hhit, hmiss]
  refine ⟨fun e => ?_, rfl, rfl⟩
  change Keeps (Function.update s'.btic (x.target.toNat % bticLen) _ e) _
  rw [lastTargets_cons]
  by_cases he : x.target.toNat % bticLen = e
  · subst he
    rw [if_pos rfl, Function.update_self]
    exact hkeeps.touch x.target
  · rw [if_neg he, Function.update_of_ne (Ne.symm he), hsame]
    exact h e

theorem bpbOk_init : BpbOk [] init := fun _ => ⟨rfl, rfl⟩

theorem bticOk_init : BticOk [] init := fun _ => .one rfl rfl (Nat.zero_le 1)

theorem count_apply (t : ℕ → ℕ → Word) (i j i' j' : ℕ) :
    count t i j i' j' = t i' j' + if i = i' ∧ j = j' then 1 else 0 := by
  unfold count
  by_cases hi : i' = i
  · subst hi
    rw [Function.update_self]
    by_cases hj : j' = j
    · subst hj
      simp
    · simp [hj, Ne.symm hj]
  · simp [hi, Ne.symm hi]

theorem addBranch_addInsn (m : Mstats) (x : Insn) (hit correct : Bool) :
    let m' := (m.addInsn x).addBranch hit correct
    m'.bpbHit = m.bpbHit + (if hit then 1 else 0) ∧
      m'.bpbMiss = m.bpbMiss + (if !hit then 1 else 0) ∧
      m'.bpbCorrect = m.bpbCorrect + (if hit && correct then 1 else 0) ∧
      m'.bpbIncorrect = m.bpbIncorrect + (if hit && !correct then 1 else 0) := by
  cases x <;> cases hit <;> cases correct <;>
    simp [Mstats.addInsn, Mstats.addBranch, Mstats.addHit]

theorem addBranch_direction (m : Mstats) (x : Insn) (hit correct taken fwd : Bool) :
    let m' := (m.addInsn x).addBranch hit correct
    m'.bf taken.toNat fwd.toNat = m.bf taken.toNat fwd.toNat +
        (if x.isBf && x.taken == taken && x.fwd == fwd then 1 else 0) ∧
      m'.bnf taken.toNat fwd.toNat = m.bnf taken.toNat fwd.toNat +
        (if !x.isBf && x.taken == taken && x.fwd == fwd then 1 else 0) := by
  have htoNat : ∀ a b : Bool, a.toNat = b.toNat ↔ (a == b) = true := by decide
  have hbf : ((m.addInsn x).addBranch hit correct).bf = (m.addInsn x).bf := by
    cases hit <;> cases correct <;> rfl
  have hbnf : ((m.addInsn x).addBranch hit correct).bnf = (m.addInsn x).bnf := by
    cases hit <;> cases correct <;> rfl
  dsimp only
  rw [hbf, hbnf]
  cases x with
  | bf b =>
    refine ⟨?_, ?_⟩
    · simp only [Mstats.addInsn, count_apply, htoNat, Insn.isBf, Bool.true_and, Bool.and_eq_true]
    · simp [Mstats.addInsn, Insn.isBf]
  | bnf b =>
    refine ⟨?_, ?_⟩
    · simp [Mstats.addInsn, Insn.isBf]
    · simp only [Mstats.addInsn, count_apply, htoNat, Insn.isBf, Bool.not_false, Bool.true_and,
        Bool.and_eq_true]

/-- **The prediction buffer** counts as a hit each branch that was the last one of its set, predicts
that it goes as it went then, and the counters of the branch instructions are exact. -/
theorem bpb_exact (btic : Bool) (l : List Insn) :
    let m := (l.foldl (Insn.exec ⟨true, btic⟩) init).mstats
    m.bpbHit = (countSteps hits [] l : Word) ∧
      m.bpbMiss = (countSteps (fun past x => !hits past x) [] l : Word) ∧
      m.bpbCorrect = (countSteps (fun past x => hits past x && predicted past x) [] l : Word) ∧
      m.bpbIncorrect = (countSteps (fun past x => hits past x && !predicted past x) [] l : Word) ∧
      m.bpbHit + m.bpbMiss = (l.length : Word) ∧
      ∀ taken fwd : Bool,
        m.bf taken.toNat fwd.toNat =
            (l.countP fun x => x.isBf && x.taken == taken && x.fwd == fwd : Word) ∧
          m.bnf taken.toNat fwd.toNat =
            (l.countP fun x => !x.isBf && x.taken == taken && x.fwd == fwd : Word) := by
  have hstep : ∀ past s x, BpbOk past s → BpbOk (x :: past) (Insn.exec ⟨true, btic⟩ s x) :=
    fun past s x h => (exec_bpb _ rfl h x).1
  have hrun : ∀ (n : Mstats → Word) (p : List Insn → Insn → Bool), n init.mstats = 0 →
      (∀ m hit miss, n { m with bticHit := hit, bticMiss := miss } = n m) →
      (∀ m x past, n ((m.addInsn x).addBranch (hits past x) (predicted past x)) =
        n m + if p past x then 1 else 0) →
      n (l.foldl (Insn.exec ⟨true, btic⟩) init).mstats = (countSteps p [] l : Word) := by
    intro n p hinit hbtic hn
    have hcount := foldl_countSteps (n := fun s : State => n s.mstats) (p := p) hstep
      (fun past s x h => by
        obtain ⟨-, hit, miss, hm⟩ := exec_bpb ⟨true, btic⟩ rfl h x
        rw [hm, hbtic, hn]) bpbOk_init l
    rwa [hinit, zero_add] at hcount
  have hhit := hrun Mstats.bpbHit hits rfl (fun _ _ _ => rfl) fun m x past =>
    (addBranch_addInsn m x _ _).1
  have hmiss := hrun Mstats.bpbMiss (fun past x => !hits past x) rfl (fun _ _ _ => rfl)
    fun m x past => (addBranch_addInsn m x _ _).2.1
  refine ⟨hhit, hmiss, ?_, ?_, ?_, fun taken fwd => ⟨?_, ?_⟩⟩
  · exact hrun Mstats.bpbCorrect _ rfl (fun _ _ _ => rfl) fun m x past =>
      (addBranch_addInsn m x _ _).2.2.1
  · exact hrun Mstats.bpbIncorrect _ rfl (fun _ _ _ => rfl) fun m x past =>
      (addBranch_addInsn m x _ _).2.2.2
  · rw [hhit, hmiss, ← Nat.cast_add, countSteps_add_not]
  · rw [← countSteps_const _ []]
    exact hrun (fun m => m.bf taken.toNat fwd.toNat) _ rfl (fun _ _ _ => rfl) fun m x past =>
      (addBranch_direction m x _ _ taken fwd).1
  · rw [← countSteps_const _ []]
    exact hrun (fun m => m.bnf taken.toNat fwd.toNat) _ rfl (fun _ _ _ => rfl) fun m x past =>
      (addBranch_direction m x _ _ taken fwd).2

/-- **The target cache** keeps the last two targets of every set, and counts as a hit each target
that is one of them. -/
theorem btic_exact (enabled : Bool) (l : List Insn) :
    let s := l.foldl (Insn.exec ⟨enabled, true⟩) init
    let kept := fun past (x : Insn) =>
      decide (x.target ∈ lastTargets past (x.target.toNat % bticLen))
    s.mstats.bticHit = (countSteps kept [] l : Word) ∧
      s.mstats.bticMiss = (countSteps (fun past x => !kept past x) [] l : Word) ∧
      s.mstats.bticHit + s.mstats.bticMiss = (l.length : Word) ∧
      ∀ entry t, ((s.btic entry 1).addr = t ∨ (s.btic entry 0).addr = t) ↔
        t ∈ lastTargets l.reverse entry := by
  intro s kept
  have hstep : ∀ past s x, BticOk past s → BticOk (x :: past) (Insn.exec ⟨enabled, true⟩ s x) :=
    fun past s x h => (exec_btic _ rfl h x).1
  have hhit : s.mstats.bticHit = (countSteps kept [] l : Word) := by
    have hcount := foldl_countSteps (n := fun s : State => s.mstats.bticHit) (p := kept) hstep
      (fun past s x h => by
        rw [(exec_btic ⟨enabled, true⟩ rfl h x).2.1]
        simp only [kept, decide_eq_true_eq]) bticOk_init l
    exact hcount.trans (zero_add _)
  have hmiss : s.mstats.bticMiss = (countSteps (fun past x => !kept past x) [] l : Word) := by
    have hcount := foldl_countSteps (n := fun s : State => s.mstats.bticMiss)
      (p := fun past x => !kept past x) hstep
      (fun past s x h => by
        rw [(exec_btic ⟨enabled, true⟩ rfl h x).2.2]
        by_cases ht : x.target ∈ lastTargets past (x.target.toNat % bticLen) <;>
          simp [kept, ht]) bticOk_init l
    exact hcount.trans (zero_add _)
  refine ⟨hhit, hmiss, ?_, fun entry t => ?_⟩
  · rw [hhit, hmiss, ← Nat.cast_add, countSteps_add_not]
  · have hkeeps := foldl_past hstep bticOk_init l entry
    rw [List.append_nil] at hkeeps
    exact (hkeeps.mem_iff t).symm

end Runs

end Branches
end Or1ksim
