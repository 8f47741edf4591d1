import Or1ksim.Cpu.Outcome

/-!
# Peeking into the TLBs

Debuggers, breakpoints and cache prefetches look at a translation without making it.  The source
has this as functions of their own, beside the translations (`mmu/dmmu.c`, `mmu/immu.c`).

* `Mmu.translateCi`, `Mmu.peekCi` — translation and peek with the cache inhibit bit they set, the
  exception a translation raises, and the state after;
* `Mmu.touchLru_sprs_tr` — ageing the match registers of a set leaves its translate registers;
* `peek_agrees` — **a peek gives what the translation gives**, or zero where that raises an
  exception, and changes no register.
-/

namespace Or1ksim
namespace Cpu

open Bits

/-- A processor with the cache inhibit bit of an MMU (`data_ci`, `insn_ci`). -/
structure Inhibited where
  /-- The processor. -/
  sim : Sim
  /-- The bit, as the last access left it. -/
  ci : Word

/-- What a translation does. -/
structure Translation where
  /-- The address it returns. -/
  addr : Addr
  /-- The exception it calls `except_handle` with. -/
  raised : Option Exception
  /-- The state it leaves. -/
  after : Inhibited

namespace Mmu

variable (m : Mmu)

/-- Without translation the upper half of the address space is not cached. -/
def untranslatedCi (va : Addr) : Word := if 0x80000000 ≤ va then 1 else 0

/-- `SPR_DTLBTR_CI`, `SPR_ITLBTR_CI`. -/
def tlbtrCi : Word := 2

/-- `dmmu_translate`, `immu_translate`, with the cache inhibit bit. -/
def translateCi (fault : Bool → Word → Bool) (c : Inhibited) (va : Addr) : Translation :=
  if m.off c.sim then ⟨va, none, ⟨c.sim, untranslatedCi va⟩⟩
  else
    match m.findTlbmr c.sim.sprs va with
    | some hit =>
      let s := m.touchLru c.sim va hit
      let ci := s.sprs (hit + 128) &&& tlbtrCi
      if fault (s.srBit srSM) (s.sprs (hit + 128)) then
        let s := exceptHandle s m.pageFault va
        ⟨m.physical (s.sprs (hit + 128)) va, some m.pageFault, ⟨s, ci⟩⟩
      else ⟨m.physical (s.sprs (hit + 128)) va, none, ⟨s, ci⟩⟩
    | none => ⟨0, some m.tlbMiss, ⟨exceptHandle c.sim m.tlbMiss va, c.ci⟩⟩

/-- `peek_into_dtlb`, `peek_into_itlb`; the latter never goes through the cache. -/
def peekCi (fault : Bool → Word → Bool) (throughDc : Bool) (c : Inhibited) (va : Addr) :
    Addr × Inhibited :=
  if m.off c.sim then (va, if throughDc then ⟨c.sim, untranslatedCi va⟩ else c)
  else
    match m.findTlbmr c.sim.sprs va with
    | some hit =>
      if fault (c.sim.srBit srSM) (c.sim.sprs (hit + 128)) then (0, c)
      else
        (m.physical (c.sim.sprs (hit + 128)) va,
          if throughDc then ⟨c.sim, c.sim.sprs (hit + 128) &&& tlbtrCi⟩ else c)
    | none => (0, c)

theorem translateCi_eq (fault : Bool → Word → Bool) (c : Inhibited) (va : Addr) :
    ((m.translateCi fault c va).addr, (m.translateCi fault c va).after.sim) =
      m.translate fault c.sim va := by
  unfold translateCi translate
  split
  · rfl
  · cases m.findTlbmr c.sim.sprs va with
    | some hit =>
      dsimp only
      split <;> rfl
    | none => rfl

theorem peekCi_eq (fault : Bool → Word → Bool) (throughDc : Bool) (c : Inhibited) (va : Addr) :
    (m.peekCi fault throughDc c va).1 = m.peek fault c.sim va := by
  unfold peekCi peek
  split
  · rfl
  · cases m.findTlbmr c.sim.sprs va with
    | some hit =>
      dsimp only
      split <;> rfl
    | none => rfl

/-! ### The LRU fields -/

variable {m} {s : Sim} {va : Addr} {hit r : Regno}

theorem ageLru_sprs_of_ne {r' : Regno} (h : r ≠ r') : (ageLru s r').sprs r = s.sprs r := by
  unfold ageLru
  dsimp only
  split
  · exact Sim.setSpr_sprs_of_ne h
  · rfl

theorem foldl_ageLru_sprs {rs : List Regno} (h : r ∉ rs) :
    (rs.foldl ageLru s).sprs r = s.sprs r := by
  induction rs generalizing s with
  | nil => rfl
  | cons r' rs ih =>
    rw [List.foldl_cons, ih fun hr => h (.tail _ hr)]
    exact ageLru_sprs_of_ne fun he => h (he ▸ .head _)

/-- The translate register of a way is the match register of none. -/
theorem tr_ne_mr (way way' : ℕ) : m.mr va way + 128 ≠ m.mr va way' := by
  intro he
  rw [mr, mr, BitVec.add_assoc, BitVec.add_right_inj] at he
  have hnat := congrArg BitVec.toNat he
  simp only [BitVec.toNat_add, BitVec.toNat_ofNat, BitVec.ofNat_eq_ofNat] at hnat
  omega

/-- Ageing the match registers of a set leaves its translate registers. -/
theorem touchLru_sprs_tr {sprs : Regno → Word} (h : m.findTlbmr sprs va = some hit) :
    (m.touchLru s va hit).sprs (hit + 128) = s.sprs (hit + 128) := by
  obtain ⟨way, -, rfl⟩ := Option.map_eq_some_iff.1 h
  unfold touchLru
  dsimp only
  rw [Sim.setSpr_sprs_of_ne (tr_ne_mr way way), foldl_ageLru_sprs]
  intro hmem
  obtain ⟨way', -, he⟩ := List.mem_map.1 hmem
  exact tr_ne_mr way way' he.symm

end Mmu

/-! ### Agreement -/

/-- A peek agrees with a translation from the same state: where that raises nothing it gives the
same address and, going through the cache, the same cache inhibit bit; elsewhere it gives zero.
The registers stay as they are. -/
structure PeekAgrees (c : Inhibited) (throughDc : Bool) (t : Translation) (p : Addr × Inhibited) :
    Prop where
  addr : t.raised = none → p.1 = t.addr
  ci : t.raised = none → throughDc = true → p.2.ci = t.after.ci
  zero : t.raised ≠ none → p.1 = 0
  same : p.2.sim = c.sim

theorem Mmu.peekCi_agrees {m : Mmu} (hm : m.tlbmr = sprDTLBMR ∨ m.tlbmr = sprITLBMR)
    (fault : Bool → Word → Bool) (throughDc : Bool) (c : Inhibited) (va : Addr) :
    PeekAgrees c throughDc (m.translateCi fault c va) (m.peekCi fault throughDc c va) := by
  unfold translateCi peekCi
  split
  · cases throughDc with
    | true => exact ⟨fun _ => rfl, fun _ _ => rfl, absurd rfl, rfl⟩
    | false => exact ⟨fun _ => rfl, fun _ h => (nomatch h), absurd rfl, rfl⟩
  · split
    case h_1 hit hfind =>
      have hsr : (m.touchLru c.sim va hit).srBit srSM = c.sim.srBit srSM := by
        rw [Sim.srBit, (touchLru_quiet hm (scratch_findTlbmr hm hfind)).sr, Sim.srBit]
      dsimp only
      rw [hsr, touchLru_sprs_tr hfind]
      split
      · exact ⟨fun h => (nomatch h), fun h => (nomatch h), fun _ => rfl, rfl⟩
      · cases throughDc with
        | true => exact ⟨fun _ => rfl, fun _ _ => rfl, absurd rfl, rfl⟩
        | false => exact ⟨fun _ => rfl, fun _ h => (nomatch h), absurd rfl, rfl⟩
    case h_2 =>
      exact ⟨fun h => (nomatch h), fun h => (nomatch h), fun _ => rfl, rfl⟩

/-- `dmmu_translate`. -/
def dmmuTranslateCi (cfg : Config) (c : Inhibited) (va : Addr) (write : Bool) : Translation :=
  cfg.dataMmu.translateCi (dataFault write) c va

/-- `peek_into_dtlb`. -/
def peekIntoDtlbCi (cfg : Config) (c : Inhibited) (va : Addr) (write throughDc : Bool) :
    Addr × Inhibited := cfg.dataMmu.peekCi (dataFault write) throughDc c va

/-- `immu_translate`. -/
def immuTranslateCi (cfg : Config) (c : Inhibited) (va : Addr) : Translation :=
  cfg.insnMmu.translateCi insnFault c va

/-- `peek_into_itlb`. -/
def peekIntoItlbCi (cfg : Config) (c : Inhibited) (va : Addr) : Addr × Inhibited :=
  cfg.insnMmu.peekCi insnFault false c va

/-- **A peek gives what the translation gives**, for both MMUs and both kinds of access. -/
theorem peek_agrees (cfg : Config) (c : Inhibited) (va : Addr) (write throughDc : Bool) :
    PeekAgrees c throughDc (dmmuTranslateCi cfg c va write)
        (peekIntoDtlbCi cfg c va write throughDc) ∧
      PeekAgrees c false (immuTranslateCi cfg c va) (peekIntoItlbCi cfg c va) :=
  ⟨Mmu.peekCi_agrees (.inl rfl) _ _ c va, Mmu.peekCi_agrees (.inr rfl) _ _ c va⟩

end Cpu
end Or1ksim
