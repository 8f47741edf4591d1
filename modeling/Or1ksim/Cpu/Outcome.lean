import Or1ksim.Cpu.Execute

/-!
# What an access can do

A memory access, with its address translation, leaves the processor alone or enters one exception.

* `Quiet` — nothing changes but memory, the TLB registers and what the debug unit keeps;
* `Outcome` — a quiet change, perhaps followed by the entry of an exception;
* `evalInsn_outcome`, `evalMem_outcome`, `setMem_outcome` — fetches, loads and stores.
-/

namespace Or1ksim
namespace Cpu

open Bits

/-! ### Quiet changes -/

/-- The registers that accesses keep for themselves: the TLBs and the debug reason. -/
def scratch (r : Regno) : Prop := (0x0a00 ≤ r ∧ r < 0x1600) ∨ r = sprDRR

instance (r : Regno) : Decidable (scratch r) := inferInstanceAs (Decidable (_ ∨ _))

/-- The processor is as before. -/
structure Quiet (s q : Sim) : Prop where
  sprs : ∀ r, ¬scratch r → q.sprs r = s.sprs r
  reg : q.reg = s.reg
  pc : q.pc = s.pc
  pcnext : q.pcnext = s.pcnext
  pcDelay : q.pcDelay = s.pcDelay
  delayInsn : q.delayInsn = s.delayInsn
  nextDelayInsn : q.nextDelayInsn = s.nextDelayInsn
  exceptPending : q.exceptPending = s.exceptPending
  sched : q.sched = s.sched
  tickCounting : q.tickCounting = s.tickCounting
  cycles : q.cycles = s.cycles

namespace Quiet

variable {s q t : Sim}

theorem refl (s : Sim) : Quiet s s := by
  constructor <;> intros <;> rfl

theorem trans (h : Quiet s q) (h' : Quiet q t) : Quiet s t where
  sprs r hr := (h'.sprs r hr).trans (h.sprs r hr)
  reg := h'.reg.trans h.reg
  pc := h'.pc.trans h.pc
  pcnext := h'.pcnext.trans h.pcnext
  pcDelay := h'.pcDelay.trans h.pcDelay
  delayInsn := h'.delayInsn.trans h.delayInsn
  nextDelayInsn := h'.nextDelayInsn.trans h.nextDelayInsn
  exceptPending := h'.exceptPending.trans h.exceptPending
  sched := h'.sched.trans h.sched
  tickCounting := h'.tickCounting.trans h.tickCounting
  cycles := h'.cycles.trans h.cycles

theorem sr (h : Quiet s q) : q.sr = s.sr := h.sprs sprSR (by decide)

theorem setSpr {r : Regno} (hr : scratch r) (v : Word) : Quiet s (s.setSpr r v) where
  sprs r' hr' := Function.update_of_ne (fun he : r' = r => hr' (he ▸ hr)) _ _
  reg := rfl
  pc := rfl
  pcnext := rfl
  pcDelay := rfl
  delayInsn := rfl
  nextDelayInsn := rfl
  exceptPending := rfl
  sched := rfl
  tickCounting := rfl
  cycles := rfl

theorem debugIgnoreException (s : Sim) (e : Exception) :
    Quiet s (Cpu.debugIgnoreException s e) := by
  have hdrr := setSpr (s := s) (by decide : scratch sprDRR)
    (s.sprs sprDRR ||| (s.sprs sprDSR &&& BitVec.twoPow 32 e.dsrBit))
  refine hdrr.trans ?_
  unfold Cpu.debugIgnoreException Sim.setStallState
  split <;> exact ⟨fun _ _ => rfl, rfl, rfl, rfl, rfl, rfl, rfl, rfl, rfl, rfl, rfl⟩

end Quiet

/-! ### Outcomes -/

/-- The exceptions that come with an instruction. -/
def Exception.Sync (e : Exception) : Prop := e ≠ .reset ∧ e ≠ .tick ∧ e ≠ .int

instance (e : Exception) : Decidable e.Sync := inferInstanceAs (Decidable (_ ∧ _))

/-- A quiet change, perhaps followed by an exception. -/
inductive Outcome (s t : Sim) : Prop where
  /-- No exception, or one that the debug unit intercepted. -/
  | quiet (h : Quiet s t)
  /-- The exception `e` is entered in a state that has only changed quietly. -/
  | entered (q : Sim) (e : Exception) (ea : Addr) (h : Quiet s q) (hsync : e.Sync)
      (ht : t = enterException q e ea)

/-! ### Entering an exception -/

theorem enterException_sr (q : Sim) (e : Exception) (ea : Addr) :
    (enterException q e ea).sr = entrySr q.sr := by
  unfold enterException
  cases e <;> simp [Sim.sr, Sim.setSpr, exceptEpcr, sprSR, sprEPCR, sprESR, sprEEAR]

theorem enterException_esr (q : Sim) (e : Exception) (ea : Addr) :
    (enterException q e ea).sprs sprESR = q.sr := by
  unfold enterException
  cases e <;> simp [Sim.sr, Sim.setSpr, exceptEpcr, sprSR, sprEPCR, sprESR, sprEEAR]

theorem enterException_pcnext (q : Sim) {e : Exception} (he : e.Sync) (ea : Addr) :
    (enterException q e ea).pcnext = exceptVector q.sr e := by
  unfold enterException
  cases e <;> simp [Exception.Sync] at he <;> simp [Sim.setSpr, exceptEpcr]

theorem enterException_epcr (q : Sim) (e : Exception) (ea : Addr) {a : Addr}
    (ha : exceptEpcr q e ea = some a) : (enterException q e ea).sprs sprEPCR = a := by
  unfold enterException
  simp only [ha]
  split <;> simp only [Sim.setSpr_sprs_self]

theorem enterException_pc (q : Sim) {e : Exception} (he : e = .tick ∨ e = .int) (ea : Addr) :
    (enterException q e ea).pc = exceptVector q.sr e := by
  unfold enterException
  simp only [if_pos he]

theorem enterException_exceptPending (s : Sim) (e : Exception) (ea : Addr) :
    (enterException s e ea).exceptPending = true := by
  unfold enterException
  cases e <;> rfl

section Outcomes

variable {s q t : Sim}

theorem Outcome.of_quiet (h : Quiet s q) (h' : Outcome q t) : Outcome s t := by
  cases h' with
  | quiet h' => exact .quiet (h.trans h')
  | entered q e ea h' hsync ht => exact .entered q e ea (h.trans h') hsync ht

theorem exceptHandle_outcome (s : Sim) {e : Exception} (hsync : e.Sync) (ea : Addr) :
    Outcome s (exceptHandle s e ea) := by
  unfold exceptHandle
  dsimp only
  split
  · exact .quiet (.debugIgnoreException s e)
  · exact .entered _ e ea (.debugIgnoreException s e) hsync rfl

/-! ### Translation -/

theorem setMask_le (c : MmuConfig) : c.setMask.toNat ≤ 127 := by
  obtain ⟨k, hk, hsets⟩ := c.nsets_le
  have hpow : 2 ^ k ≤ 2 ^ 7 := Nat.pow_le_pow_right (by omega) hk
  rw [MmuConfig.setMask, hsets, BitVec.toNat_ofNat]
  exact le_trans (Nat.mod_le _ _) (by omega)

theorem set_le (c : MmuConfig) (va : Addr) : (c.set va).toNat ≤ 127 := by
  rw [MmuConfig.set, BitVec.toNat_and]
  exact le_trans Nat.and_le_right (setMask_le c)

variable {m : Mmu}

theorem scratch_mr (hm : m.tlbmr = sprDTLBMR ∨ m.tlbmr = sprITLBMR) {va : Addr} {way : ℕ}
    (hway : way < m.config.nways) : scratch (m.mr va way) := by
  have hset := set_le m.config va
  have hways := m.config.nways_le.2
  have hbase : m.tlbmr.toNat = 0x0a00 ∨ m.tlbmr.toNat = 0x1200 := by
    rcases hm with h | h <;> rw [h] <;> decide
  have hmr : (m.mr va way).toNat = m.tlbmr.toNat + (m.config.set va).toNat + way * 256 := by
    simp only [Mmu.mr, BitVec.toNat_add, BitVec.toNat_setWidth, BitVec.toNat_ofNat]
    omega
  refine .inl ⟨?_, ?_⟩
  · rw [BitVec.le_def, hmr, show BitVec.toNat (0x0a00 : Regno) = 0x0a00 from rfl]
    omega
  · rw [BitVec.lt_def, hmr, show BitVec.toNat (0x1600 : Regno) = 0x1600 from rfl]
    omega

theorem Mmu.ageLru_quiet {r : Regno} (hr : scratch r) : Quiet s (Mmu.ageLru s r) := by
  unfold Mmu.ageLru
  dsimp only
  split
  · exact .setSpr hr _
  · exact .refl s

theorem Mmu.foldl_ageLru_quiet {rs : List Regno} (hrs : ∀ r ∈ rs, scratch r) :
    Quiet s (rs.foldl Mmu.ageLru s) := by
  induction rs generalizing s with
  | nil => exact .refl s
  | cons r rs ih =>
    exact (ageLru_quiet (hrs r (.head _))).trans (ih fun r hr => hrs r (.tail _ hr))

theorem Mmu.touchLru_quiet (hm : m.tlbmr = sprDTLBMR ∨ m.tlbmr = sprITLBMR) {va : Addr}
    {hit : Regno} (hhit : scratch hit) : Quiet s (m.touchLru s va hit) := by
  refine Quiet.trans (foldl_ageLru_quiet fun r hr => ?_) (.setSpr hhit _)
  obtain ⟨way, hway, rfl⟩ := List.mem_map.1 hr
  exact scratch_mr hm (List.mem_range.1 hway)

theorem Mmu.scratch_findTlbmr (hm : m.tlbmr = sprDTLBMR ∨ m.tlbmr = sprITLBMR) {va : Addr}
    {hit : Regno} (h : m.findTlbmr s.sprs va = some hit) : scratch hit := by
  obtain ⟨way, hway, rfl⟩ := Option.map_eq_some_iff.1 h
  exact scratch_mr hm (List.mem_range.1 (List.mem_of_find?_eq_some hway))

theorem Mmu.translate_outcome (hm : m.tlbmr = sprDTLBMR ∨ m.tlbmr = sprITLBMR)
    (hfault : m.pageFault.Sync) (hmiss : m.tlbMiss.Sync) (fault : Bool → Word → Bool) (s : Sim)
    (va : Addr) : Outcome s (m.translate fault s va).2 := by
  unfold Mmu.translate
  split
  · exact .quiet (.refl s)
  · split
    case h_1 hit hfind =>
      have htouch : Quiet s (m.touchLru s va hit) := touchLru_quiet hm (scratch_findTlbmr hm hfind)
      dsimp only
      split
      · exact (exceptHandle_outcome _ hfault va).of_quiet htouch
      · exact .quiet htouch
    case h_2 => exact exceptHandle_outcome s hmiss va

theorem dmmuTranslate_outcome (cfg : Config) (s : Sim) (va : Addr) (write : Bool) :
    Outcome s (dmmuTranslate cfg s va write).2 :=
  Mmu.translate_outcome (.inl rfl) (by decide : Exception.dpf.Sync)
    (by decide : Exception.dtlbmiss.Sync) _ s va

theorem immuTranslate_outcome (cfg : Config) (s : Sim) (va : Addr) :
    Outcome s (immuTranslate cfg s va).2 :=
  Mmu.translate_outcome (.inr rfl) (by decide : Exception.ipf.Sync)
    (by decide : Exception.itlbmiss.Sync) _ s va

/-! ### Accesses -/

theorem evalsimMem_outcome (s : Sim) (pa va : Addr) (n : Width) :
    Outcome s (evalsimMem s pa va n).2 := by
  unfold evalsimMem
  split
  · exact .quiet (.refl s)
  · exact exceptHandle_outcome s (by decide) va

theorem setsimMem_outcome (s : Sim) (pa va : Addr) (v : Word) (n : Width) :
    Outcome s (setsimMem s pa va v n) := by
  unfold setsimMem
  split
  · exact .quiet ⟨fun _ _ => rfl, rfl, rfl, rfl, rfl, rfl, rfl, rfl, rfl, rfl, rfl⟩
  · exact exceptHandle_outcome s (by decide) va

/-- An access goes on after translation only if that entered no exception. -/
theorem Outcome.bind {f : Sim → Sim} (h : Outcome s q) (hf : ∀ q, Outcome q (f q)) :
    Outcome s (if q.exceptPending then q else f q) := by
  cases h with
  | quiet h =>
    split
    · exact .quiet h
    · exact (hf q).of_quiet h
  | entered q' e ea h hsync ht =>
    rw [if_pos (ht ▸ enterException_exceptPending q' e ea)]
    exact .entered q' e ea h hsync ht

theorem evalMem_outcome (cfg : Config) (s : Sim) (a : Addr) (n : Width) :
    Outcome s (evalMem cfg s a n).2 := by
  unfold evalMem
  split
  · exact exceptHandle_outcome s (by decide) a
  · have h := (dmmuTranslate_outcome cfg s a false).bind
      (f := fun q => (evalsimMem q (dmmuTranslate cfg s a false).1 a n).2)
      fun q => evalsimMem_outcome q _ a n
    dsimp only
    rw [apply_ite Prod.snd]
    exact h

theorem setMem_outcome (cfg : Config) (s : Sim) (a : Addr) (v : Word) (n : Width) :
    Outcome s (setMem cfg s a v n) := by
  unfold setMem
  split
  · exact exceptHandle_outcome s (by decide) a
  · exact (dmmuTranslate_outcome cfg s a true).bind fun q => setsimMem_outcome q _ a v n

theorem evalInsn_outcome (cfg : Config) (s : Sim) (a : Addr) : Outcome s (evalInsn cfg s a).2 := by
  unfold evalInsn
  have h := (immuTranslate_outcome cfg s a).bind
    (f := fun q => (evalsimMem q (immuTranslate cfg s a).1 a .w4).2)
    fun q => evalsimMem_outcome q _ a .w4
  dsimp only
  rw [apply_ite Prod.snd]
  exact h

end Outcomes

end Cpu
end Or1ksim
