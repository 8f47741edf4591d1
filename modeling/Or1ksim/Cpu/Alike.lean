import Mathlib.Data.List.Find
import Or1ksim.Cpu.Peek
import Or1ksim.Cpu.TickMatch
import Or1ksim.Cpu.Zero

/-!
# States that execute alike

Most special purpose registers only matter to an instruction that reads them by their number.  Two
states that agree in everything else execute the same instructions with the same results.

* `steers` — the registers that instructions depend on without reading them by number;
* `Alike` — agreement in them, in the program counters and in memory;
* `Effect.Unread` — what an instruction reads besides is the same;
* `cpuClock_alike` — instructions keep agreement;
* `clocks_alike` — so do sequences of them.
-/

namespace Or1ksim
namespace Cpu

open Bits Insn

/-! ### Registers -/

/-- The registers of the TLBs. -/
def tlbReg (r : Regno) : Prop := 0x0a00 ≤ r ∧ r < 0x1600

instance (r : Regno) : Decidable (tlbReg r) := inferInstanceAs (Decidable (_ ∧ _))

/-- The match registers among them, whose bits 6 and 7 say how long an entry has not been used. -/
def matchReg (r : Regno) : Prop := tlbReg r ∧ r.getLsbD 7 = false

instance (r : Regno) : Decidable (matchReg r) := inferInstanceAs (Decidable (_ ∧ _))

/-- The registers that instructions depend on without reading them by number. -/
def steers (r : Regno) : Prop :=
  tlbReg r ∨ r = sprUPR ∨ r = sprSR ∨ r = sprDSR ∨ r = sprMACLO ∨ r = sprMACHI ∨ r = sprFPCSR

instance (r : Regno) : Decidable (steers r) := inferInstanceAs (Decidable (_ ∨ _))

/-- No page is so small that its number reaches into the LRU field of a match register. -/
def LruApart (cfg : Config) : Prop :=
  cfg.dmmu.vpnMask &&& MmuConfig.lruField = 0 ∧ cfg.immu.vpnMask &&& MmuConfig.lruField = 0

instance (cfg : Config) : Decidable (LruApart cfg) := inferInstanceAs (Decidable (_ ∧ _))

/-- What execution depends on in a register: not on how long ago an entry was used, unless that is
mixed up with its page number. -/
def steering (cfg : Config) (r : Regno) (v : Word) : Word :=
  if LruApart cfg ∧ matchReg r then v &&& ~~~MmuConfig.lruField else v

/-- Two states that execute alike, apart from the general purpose registers. -/
structure Alike (cfg : Config) (s t : Sim) : Prop where
  sprs : ∀ r, steers r → steering cfg r (t.sprs r) = steering cfg r (s.sprs r)
  pc : t.pc = s.pc
  pcnext : t.pcnext = s.pcnext
  pcDelay : s.nextDelayInsn = true → t.pcDelay = s.pcDelay
  delayInsn : t.delayInsn = s.delayInsn
  nextDelayInsn : t.nextDelayInsn = s.nextDelayInsn
  exceptPending : t.exceptPending = s.exceptPending
  mem : t.mem = s.mem

namespace Alike

variable {cfg : Config} {s t u s' t' : Sim} {r : Regno}

theorem refl (cfg : Config) (s : Sim) : Alike cfg s s := by
  constructor <;> intros <;> rfl

theorem symm (h : Alike cfg s t) : Alike cfg t s where
  sprs r hr := (h.sprs r hr).symm
  pc := h.pc.symm
  pcnext := h.pcnext.symm
  pcDelay hn := (h.pcDelay (h.nextDelayInsn ▸ hn)).symm
  delayInsn := h.delayInsn.symm
  nextDelayInsn := h.nextDelayInsn.symm
  exceptPending := h.exceptPending.symm
  mem := h.mem.symm

theorem trans (h : Alike cfg s t) (h' : Alike cfg t u) : Alike cfg s u where
  sprs r hr := (h'.sprs r hr).trans (h.sprs r hr)
  pc := h'.pc.trans h.pc
  pcnext := h'.pcnext.trans h.pcnext
  pcDelay hn := (h'.pcDelay (h.nextDelayInsn.trans hn)).trans (h.pcDelay hn)
  delayInsn := h'.delayInsn.trans h.delayInsn
  nextDelayInsn := h'.nextDelayInsn.trans h.nextDelayInsn
  exceptPending := h'.exceptPending.trans h.exceptPending
  mem := h'.mem.trans h.mem

theorem congr (h : Alike cfg s t) (hs : Alike cfg s s') (ht : Alike cfg t t') :
    Alike cfg s' t' := hs.symm.trans (h.trans ht)

/-- Only the steering registers of the match kind are not compared in full. -/
theorem spr (h : Alike cfg s t) (hr : steers r) (hmatch : ¬matchReg r) : t.sprs r = s.sprs r := by
  have := h.sprs r hr
  rwa [steering, steering, if_neg fun hm => hmatch hm.2, if_neg fun hm => hmatch hm.2] at this

theorem sr (h : Alike cfg s t) : t.sr = s.sr := h.spr (by decide) (by decide)

theorem srBit (h : Alike cfg s t) (k : ℕ) : t.srBit k = s.srBit k := by
  rw [Sim.srBit, h.sr, Sim.srBit]

theorem intercepted (h : Alike cfg s t) (e : Exception) :
    Cpu.intercepted t e = Cpu.intercepted s e := by
  rw [Cpu.intercepted, h.spr (by decide) (by decide), Cpu.intercepted]

theorem setSpr (h : Alike cfg s t) (r : Regno) (v : Word) :
    Alike cfg (s.setSpr r v) (t.setSpr r v) := by
  refine ⟨fun r' hr' => ?_, h.pc, h.pcnext, h.pcDelay, h.delayInsn, h.nextDelayInsn,
    h.exceptPending, h.mem⟩
  by_cases he : r' = r
  · rw [he, Sim.setSpr_sprs_self, Sim.setSpr_sprs_self]
  · rw [Sim.setSpr_sprs_of_ne he, Sim.setSpr_sprs_of_ne he]
    exact h.sprs r' hr'

theorem setSpr_right (hr : ¬steers r) (s : Sim) (v : Word) : Alike cfg s (s.setSpr r v) := by
  refine ⟨fun r' hr' => ?_, rfl, rfl, fun _ => rfl, rfl, rfl, rfl, rfl⟩
  have hne : r' ≠ r := by
    rintro rfl
    exact hr hr'
  rw [Sim.setSpr_sprs_of_ne hne]

theorem setSpr_both (h : Alike cfg s t) (hr : ¬steers r) (v w : Word) :
    Alike cfg (s.setSpr r v) (t.setSpr r w) :=
  h.congr (setSpr_right hr s v) (setSpr_right hr t w)

theorem setStallState_right (s : Sim) (b : Bool) : Alike cfg s (s.setStallState b) := by
  unfold Sim.setStallState
  split <;> exact ⟨fun _ _ => rfl, rfl, rfl, fun _ => rfl, rfl, rfl, rfl, rfl⟩

theorem debugIgnoreException_right (s : Sim) (e : Exception) :
    Alike cfg s (debugIgnoreException s e) :=
  (setSpr_right (by decide) s _).trans (setStallState_right _ _)

theorem enterException (h : Alike cfg s t) (e : Exception) (ea ea' : Addr) :
    Alike cfg (enterException s e ea) (enterException t e ea') := by
  have hstart : Alike cfg { s with exceptPending := true, pcnext := exceptVector s.sr e }
      { t with exceptPending := true, pcnext := exceptVector s.sr e } :=
    ⟨h.sprs, h.pc, rfl, h.pcDelay, h.delayInsn, h.nextDelayInsn, rfl, h.mem⟩
  have hsr := ((hstart.setSpr_both (r := sprEEAR) (by decide) ea ea').setSpr_both (r := sprESR)
    (by decide) s.sr s.sr).setSpr sprSR (entrySr s.sr)
  have hsome : (exceptEpcr s e ea).isSome = (exceptEpcr t e ea').isSome := by
    cases e <;> rfl
  -- The handler starts alike, whether or not the exception saves its address.
  have hfinish : ∀ {q q' : Sim}, Alike cfg q q' → ∀ vector : Addr,
      Alike cfg
        { (if e = .tick ∨ e = .int then { q with pc := vector, pcnext := vector + 4 } else q) with
          delayInsn := false }
        { (if e = .tick ∨ e = .int then { q' with pc := vector, pcnext := vector + 4 } else q') with
          delayInsn := false } := by
    intro q q' hset vector
    split
    · exact ⟨hset.sprs, rfl, rfl, hset.pcDelay, rfl, hset.nextDelayInsn, hset.exceptPending,
        hset.mem⟩
    · exact ⟨hset.sprs, hset.pc, hset.pcnext, hset.pcDelay, rfl, hset.nextDelayInsn,
        hset.exceptPending, hset.mem⟩
  unfold Cpu.enterException
  dsimp only
  rw [h.sr]
  cases hs : exceptEpcr s e ea with
  | none =>
    cases ht : exceptEpcr t e ea' with
    | none => exact hfinish hsr _
    | some a' =>
      rw [hs, ht] at hsome
      cases hsome
  | some a =>
    cases ht : exceptEpcr t e ea' with
    | none =>
      rw [hs, ht] at hsome
      cases hsome
    | some a' => exact hfinish (hsr.setSpr_both (by decide) a a') _

theorem exceptHandle (h : Alike cfg s t) (e : Exception) (ea ea' : Addr) :
    Alike cfg (exceptHandle s e ea) (exceptHandle t e ea') := by
  have hdebug : Alike cfg (debugIgnoreException s e) (debugIgnoreException t e) :=
    h.congr (debugIgnoreException_right s e) (debugIgnoreException_right t e)
  unfold Cpu.exceptHandle
  dsimp only
  rw [h.intercepted]
  split
  · exact hdebug
  · exact hdebug.enterException e ea ea'

end Alike

/-! ### Translation -/

section Translation

variable {cfg : Config} {s t : Sim} {m : Mmu} {r : Regno} {va : Addr}

/-- One of the two MMUs. -/
def IsMmu (cfg : Config) (m : Mmu) : Prop := m = cfg.dataMmu ∨ m = cfg.insnMmu

theorem IsMmu.tlbmr (hm : IsMmu cfg m) : m.tlbmr = sprDTLBMR ∨ m.tlbmr = sprITLBMR := by
  rcases hm with rfl | rfl
  · exact .inl rfl
  · exact .inr rfl

theorem IsMmu.apart (hm : IsMmu cfg m) (h : LruApart cfg) :
    m.config.vpnMask &&& MmuConfig.lruField = 0 := by
  rcases hm with rfl | rfl
  · exact h.1
  · exact h.2

theorem toNat_mr (hm : IsMmu cfg m) {way : ℕ} (hway : way < m.config.nways) (va : Addr) :
    ∃ base set, (base = 0x0a00 ∨ base = 0x1200) ∧ set ≤ 127 ∧ way ≤ 3 ∧
      (m.mr va way).toNat = base + set + way * 256 := by
  have hset := set_le m.config va
  have hways := m.config.nways_le.2
  have hbase : m.tlbmr.toNat = 0x0a00 ∨ m.tlbmr.toNat = 0x1200 := by
    rcases hm.tlbmr with h | h <;> rw [h] <;> decide
  refine ⟨m.tlbmr.toNat, (m.config.set va).toNat, hbase, hset, by omega, ?_⟩
  simp only [Mmu.mr, BitVec.toNat_add, BitVec.toNat_setWidth, BitVec.toNat_ofNat]
  omega

theorem tlbReg_iff (r : Regno) : tlbReg r ↔ 0x0a00 ≤ r.toNat ∧ r.toNat < 0x1600 := Iff.rfl

theorem getLsbD_seven_iff (r : Regno) : r.getLsbD 7 = false ↔ r.toNat / 128 % 2 = 0 := by
  rw [BitVec.getLsbD, Nat.testBit_eq_decide_div_mod_eq]
  simp

theorem matchReg_mr (hm : IsMmu cfg m) {way : ℕ} (hway : way < m.config.nways) (va : Addr) :
    matchReg (m.mr va way) := by
  obtain ⟨base, set, hbase, hset, hle, hmr⟩ := toNat_mr hm hway va
  refine ⟨(tlbReg_iff _).2 ?_, (getLsbD_seven_iff _).2 ?_⟩ <;> rw [hmr] <;> omega

/-- The translate register of an entry is no match register. -/
theorem tr_mr (hm : IsMmu cfg m) {way : ℕ} (hway : way < m.config.nways) (va : Addr) :
    tlbReg (m.mr va way + 128) ∧ ¬matchReg (m.mr va way + 128) := by
  obtain ⟨base, set, hbase, hset, hle, hmr⟩ := toNat_mr hm hway va
  have htr : (m.mr va way + 128).toNat = base + set + way * 256 + 128 := by
    rw [BitVec.toNat_add, hmr, show BitVec.toNat (128 : Regno) = 128 from rfl]
    omega
  rw [tlbReg_iff, matchReg, getLsbD_seven_iff, htr]
  omega

theorem mr_of_findTlbmr {sprs : Regno → Word} {hit : Regno} (h : m.findTlbmr sprs va = some hit) :
    ∃ way < m.config.nways, hit = m.mr va way := by
  obtain ⟨way, hway, rfl⟩ := Option.map_eq_some_iff.1 h
  exact ⟨way, List.mem_range.1 (List.mem_of_find?_eq_some hway), rfl⟩

theorem and_eq_of_steering {v w x : Word} (hx : LruApart cfg → x &&& MmuConfig.lruField = 0)
    (h : steering cfg r v = steering cfg r w) : v &&& x = w &&& x := by
  unfold steering at h
  split at h
  case isTrue hm =>
    have hmask : ∀ u : Word, u &&& x = (u &&& ~~~MmuConfig.lruField) &&& x := by
      intro u
      have hnot : ~~~MmuConfig.lruField &&& x = x := by
        ext i hi
        have hbit : (x[i] && MmuConfig.lruField[i]) = false := by
          rw [← BitVec.getElem_and, hx hm.1]
          exact BitVec.getElem_zero hi
        rw [BitVec.getElem_and, BitVec.getElem_not]
        revert hbit
        cases x[i] <;> cases MmuConfig.lruField[i] <;> decide
      rw [BitVec.and_assoc, hnot]
    rw [hmask v, hmask w, h]
  case isFalse => rw [h]

theorem getElem_lruField {i : ℕ} (hi : i < 32) :
    MmuConfig.lruField[i] = (decide (i = 6) || decide (i = 7)) := by
  revert hi
  revert i
  decide

theorem lruField_and (v : Word) :
    v &&& MmuConfig.lruField = ((v >>> 6).setWidth 2).setWidth 32 <<< 6 := by
  ext i hi
  rw [BitVec.getElem_and, getElem_lruField hi, BitVec.getElem_shiftLeft]
  rcases Nat.lt_or_ge i 6 with h | h
  · rw [decide_eq_true h, decide_eq_false (by omega), decide_eq_false (by omega)]
    simp
  · obtain ⟨j, rfl⟩ := Nat.exists_eq_add_of_le h
    rcases j with _ | _ | j
    · simp
    · simp
    · simp [show ¬6 + (j + 1 + 1) = 7 by omega]

/-- A step of the "Set LRUs" loop, on the register. -/
def aged (v : Word) : Word :=
  if v &&& MmuConfig.lruField ≠ 0 then
    (v &&& ~~~MmuConfig.lruField) ||| ((v &&& MmuConfig.lruField) - 0x40)
  else v

theorem aged_field : ∀ y : BitVec 2, y.setWidth 32 <<< 6 ≠ 0#32 →
    (y.setWidth 32 <<< 6 - 0x40#32) &&& ~~~MmuConfig.lruField = 0#32 := by decide

theorem aged_and_not (v : Word) :
    aged v &&& ~~~MmuConfig.lruField = v &&& ~~~MmuConfig.lruField := by
  unfold aged
  split
  case isTrue h =>
    rw [BitVec.and_or_distrib_right, BitVec.and_assoc, BitVec.and_self, lruField_and] 
    rw [lruField_and] at h
    exact (congrArg _ (aged_field _ h)).trans BitVec.or_zero
  · rfl

theorem getLsbD_zero_of_steering {v w : Word} (h : steering cfg r v = steering cfg r w) :
    v.getLsbD 0 = w.getLsbD 0 := by
  have hone := and_eq_of_steering (x := 1#32) (fun _ => by decide) h
  have hbit := congrArg (fun y => y.getLsbD 0) hone
  simpa using hbit

theorem steering_aged {v w : Word} (h : steering cfg r w = steering cfg r v) :
    steering cfg r (aged w) = steering cfg r (aged v) := by
  by_cases hm : LruApart cfg ∧ matchReg r
  · simp only [steering, if_pos hm, aged_and_not] at h ⊢
    exact h
  · simp only [steering, if_neg hm] at h ⊢
    rw [h]

theorem steering_or_reload {v w : Word} (h : steering cfg r w = steering cfg r v) :
    steering cfg r (w ||| m.config.lruReload) = steering cfg r (v ||| m.config.lruReload) := by
  by_cases hm : LruApart cfg ∧ matchReg r
  · simp only [steering, if_pos hm, BitVec.and_or_distrib_right] at h ⊢
    rw [h]
  · simp only [steering, if_neg hm] at h ⊢
    rw [h]

theorem ageLru_eq (s : Sim) (r : Regno) : Mmu.ageLru s r = s.setSpr r (aged (s.sprs r)) := by
  have hsame : s.setSpr r (s.sprs r) = s := by
    rw [Sim.setSpr, Function.update_eq_self]
  unfold Mmu.ageLru aged
  dsimp only
  split
  · rfl
  · exact hsame.symm

namespace Alike

theorem findTlbmr (h : Alike cfg s t) (hm : IsMmu cfg m) (va : Addr) :
    m.findTlbmr t.sprs va = m.findTlbmr s.sprs va := by
  unfold Mmu.findTlbmr
  congr 1
  refine List.find?_congr fun way hway => ?_
  have hmr := h.sprs _ (.inl (matchReg_mr hm (List.mem_range.1 hway) va).1)
  rw [and_eq_of_steering hm.apart hmr, getLsbD_zero_of_steering hmr]

theorem setSpr_steering (h : Alike cfg s t) {v w : Word}
    (hv : steering cfg r w = steering cfg r v) :
    Alike cfg (s.setSpr r v) (t.setSpr r w) := by
  refine ⟨fun r' hr' => ?_, h.pc, h.pcnext, h.pcDelay, h.delayInsn, h.nextDelayInsn,
    h.exceptPending, h.mem⟩
  by_cases he : r' = r
  · rw [he, Sim.setSpr_sprs_self, Sim.setSpr_sprs_self, hv]
  · rw [Sim.setSpr_sprs_of_ne he, Sim.setSpr_sprs_of_ne he]
    exact h.sprs r' hr'

theorem ageLru (h : Alike cfg s t) (hr : tlbReg r) :
    Alike cfg (Mmu.ageLru s r) (Mmu.ageLru t r) := by
  rw [ageLru_eq, ageLru_eq]
  exact h.setSpr_steering (steering_aged (h.sprs r (.inl hr)))

theorem foldl_ageLru {rs : List Regno} (h : Alike cfg s t) (hrs : ∀ r ∈ rs, tlbReg r) :
    Alike cfg (rs.foldl Mmu.ageLru s) (rs.foldl Mmu.ageLru t) := by
  induction rs generalizing s t with
  | nil => exact h
  | cons r rs ih =>
    exact ih (h.ageLru (hrs r (.head _))) fun r hr => hrs r (.tail _ hr)

theorem touchLru (h : Alike cfg s t) (hm : IsMmu cfg m) {hit : Regno} (hhit : matchReg hit)
    (va : Addr) :
    Alike cfg (m.touchLru s va hit) (m.touchLru t va hit) := by
  unfold Mmu.touchLru
  have hfold : Alike cfg (((List.range m.config.nways).map (m.mr va)).foldl Mmu.ageLru s)
      (((List.range m.config.nways).map (m.mr va)).foldl Mmu.ageLru t) := by
    refine h.foldl_ageLru fun r hr => ?_
    obtain ⟨way, hway, rfl⟩ := List.mem_map.1 hr
    exact (matchReg_mr hm (List.mem_range.1 hway) va).1
  exact hfold.setSpr_steering (steering_or_reload (hfold.sprs hit (.inl hhit.1)))

theorem off (h : Alike cfg s t) (m : Mmu) : m.off t = m.off s := by
  rw [Mmu.off, Mmu.off, h.srBit, h.spr (by decide) (by decide)]

theorem translate (h : Alike cfg s t) (hm : IsMmu cfg m) (fault : Bool → Word → Bool) (va : Addr) :
    (m.translate fault t va).1 = (m.translate fault s va).1 ∧
      Alike cfg (m.translate fault s va).2 (m.translate fault t va).2 := by
  unfold Mmu.translate
  rw [h.off, h.findTlbmr hm]
  split
  · exact ⟨rfl, h⟩
  · cases hfind : m.findTlbmr s.sprs va with
    | none => exact ⟨rfl, h.exceptHandle _ va va⟩
    | some hit =>
      obtain ⟨way, hway, rfl⟩ := mr_of_findTlbmr hfind
      obtain ⟨htlb, htr⟩ := tr_mr hm hway va
      have htouch := h.touchLru hm (matchReg_mr hm hway va) va
      have htouchTr := htouch.spr (.inl htlb) htr
      dsimp only
      rw [htouch.srBit, htouchTr]
      split
      · have hraise := htouch.exceptHandle m.pageFault va va
        exact ⟨by rw [hraise.spr (.inl htlb) htr], hraise⟩
      · exact ⟨by rw [htouchTr], htouch⟩

theorem peek (h : Alike cfg s t) (hm : IsMmu cfg m) (fault : Bool → Word → Bool) (va : Addr) :
    m.peek fault t va = m.peek fault s va := by
  unfold Mmu.peek
  rw [h.off, h.findTlbmr hm]
  split
  · rfl
  · cases hfind : m.findTlbmr s.sprs va with
    | none => rfl
    | some hit =>
      obtain ⟨way, hway, rfl⟩ := mr_of_findTlbmr hfind
      obtain ⟨htlb, htr⟩ := tr_mr hm hway va
      dsimp only
      rw [h.srBit, h.spr (.inl htlb) htr]

/-! ### Accesses -/

theorem evalsimMem (h : Alike cfg s t) (pa va : Addr) (n : Width) :
    (evalsimMem t pa va n).1 = (evalsimMem s pa va n).1 ∧
      Alike cfg (evalsimMem s pa va n).2 (evalsimMem t pa va n).2 := by
  unfold Cpu.evalsimMem
  rw [h.mem]
  cases s.mem.evalsimMem pa n with
  | some v => exact ⟨rfl, h⟩
  | none => exact ⟨rfl, h.exceptHandle _ va va⟩

theorem setsimMem (h : Alike cfg s t) (pa va : Addr) (v : Word) (n : Width) :
    Alike cfg (setsimMem s pa va v n) (setsimMem t pa va v n) := by
  unfold Cpu.setsimMem
  rw [h.mem]
  cases s.mem.setsimMem pa v n with
  | some mem =>
    exact ⟨h.sprs, h.pc, h.pcnext, h.pcDelay, h.delayInsn, h.nextDelayInsn, h.exceptPending, rfl⟩
  | none => exact h.exceptHandle _ va va

theorem evalMem (h : Alike cfg s t) (a : Addr) (n : Width) :
    (evalMem cfg t a n).1 = (evalMem cfg s a n).1 ∧
      Alike cfg (evalMem cfg s a n).2 (evalMem cfg t a n).2 := by
  unfold Cpu.evalMem
  split
  · exact ⟨rfl, h.exceptHandle _ a a⟩
  · obtain ⟨hpa, htr⟩ := h.translate (m := cfg.dataMmu) (.inl rfl) (dataFault false) a
    dsimp only [dmmuTranslate]
    rw [hpa, htr.exceptPending]
    split
    · exact ⟨rfl, htr⟩
    · exact htr.evalsimMem _ a n

theorem setMem (h : Alike cfg s t) (a : Addr) (v : Word) (n : Width) :
    Alike cfg (setMem cfg s a v n) (setMem cfg t a v n) := by
  unfold Cpu.setMem
  split
  · exact h.exceptHandle _ a a
  · obtain ⟨hpa, htr⟩ := h.translate (m := cfg.dataMmu) (.inl rfl) (dataFault true) a
    dsimp only [dmmuTranslate]
    rw [hpa, htr.exceptPending]
    split
    · exact htr
    · exact htr.setsimMem _ a v n

theorem evalInsn (h : Alike cfg s t) (a : Addr) :
    (evalInsn cfg t a).1 = (evalInsn cfg s a).1 ∧
      Alike cfg (evalInsn cfg s a).2 (evalInsn cfg t a).2 := by
  unfold Cpu.evalInsn
  obtain ⟨hpa, htr⟩ := h.translate (m := cfg.insnMmu) (.inr rfl) insnFault a
  dsimp only [immuTranslate]
  rw [hpa, htr.exceptPending]
  split
  · exact ⟨rfl, htr⟩
  · exact htr.evalsimMem _ a .w4

end Alike

end Translation

/-! ### Moves -/

section Moves

variable {cfg : Config} {s t s' t' : Sim} {regno : Regno} {value : Word}

namespace Alike

theorem onlySched (h : OnlySched s s') : Alike cfg s s' := by
  rw [h]
  exact ⟨fun _ _ => rfl, rfl, rfl, fun _ => rfl, rfl, rfl, rfl, rfl⟩

theorem sprWriteTtcr (h : sprWriteTtcr s value = .ok s') : Alike cfg s s' := by
  have hstart : Alike cfg s { s with cycleCountAtTickStart := s.cycles - value.setWidth 64 } :=
    ⟨fun _ _ => rfl, rfl, rfl, fun _ => rfl, rfl, rfl, rfl, rfl⟩
  exact hstart.trans (onlySched (schedTimerJob_onlySched h))

theorem ttmrWritten_right (s : Sim) (value : Word) : Alike cfg s (ttmrWritten s value) := by
  have hmode : Alike cfg s (s.setSpr sprTTMR (clearBit value ttmrIP)) :=
    setSpr_right (by decide) s _
  unfold ttmrWritten
  dsimp only
  split
  · -- the counter catches up before the mode changes
    have hcount := hmode.trans (setSpr_right (r := sprTTCR) (by decide) _
      ((s.cycles - s.cycleCountAtTickStart).setWidth 32))
    exact hcount.trans ⟨fun _ _ => rfl, rfl, rfl, fun _ => rfl, rfl, rfl, rfl, rfl⟩
  · exact hmode.trans ⟨fun _ _ => rfl, rfl, rfl, fun _ => rfl, rfl, rfl, rfl, rfl⟩

theorem picIntsEn (h : picIntsEn s = .ok s') : Alike cfg s s' := by
  obtain ⟨q, rfl⟩ := picIntsEn_eq_ok h
  exact ⟨fun _ _ => rfl, rfl, rfl, fun _ => rfl, rfl, rfl, rfl, rfl⟩

theorem writeNpc (h : Alike cfg s t) (value : Addr) :
    Alike cfg (writeNpc s value) (writeNpc t value) := by
  unfold Cpu.writeNpc
  rw [h.pc]
  split
  · exact ⟨h.sprs, rfl, rfl, h.pcDelay, rfl, h.nextDelayInsn, h.exceptPending, h.mem⟩
  · exact h

theorem maskTlb (h : Alike cfg s t) (regno : Regno) (value : Word) :
    Alike cfg (maskTlb cfg s regno value) (maskTlb cfg t regno value) := by
  unfold Cpu.maskTlb
  dsimp only
  split_ifs
  all_goals first
    | exact (h.setSpr _ _).setSpr _ _
    | exact h.setSpr _ _
    | exact h

theorem linkGpr_right (s : Sim) (regno : Regno) (value : Word) :
    Alike cfg s (linkGpr s regno value) := by
  unfold linkGpr
  split <;> exact ⟨fun _ _ => rfl, rfl, rfl, fun _ => rfl, rfl, rfl, rfl, rfl⟩

/-- Two states take a move to a special purpose register alike. -/
theorem mtspr (h : Alike cfg s t) (hs : mtspr cfg s regno value = .ok s')
    (ht : mtspr cfg t regno value = .ok t') : Alike cfg s' t' := by
  have hset := h.setSpr regno value
  have hints : ∀ {c : Prop} [Decidable c] {q q' : Sim},
      (if c then Cpu.picIntsEn q else .ok q) = .ok q' → Alike cfg q q' := by
    intro c _ q q' hq
    split at hq
    · exact picIntsEn hq
    · cases hq
      exact refl cfg q
  by_cases httmr : regno = sprTTMR
  · subst httmr
    rw [mtspr_ttmr] at hs ht
    exact h.congr ((ttmrWritten_right s value).trans (onlySched (schedTimerJob_onlySched hs)))
      ((ttmrWritten_right t value).trans (onlySched (schedTimerJob_onlySched ht)))
  by_cases hpicmr : regno = sprPICMR
  · subst hpicmr
    rw [mtspr_picmr] at hs ht
    exact (h.setSpr sprPICMR (picmrOf cfg value)).congr (hints hs) (hints ht)
  obtain ⟨f, hf, hform⟩ := mtspr_form cfg regno value
  rw [hf] at hs ht
  cases hform with
  | ttcr hr =>
    subst hr
    exact hset.congr (sprWriteTtcr hs) (sprWriteTtcr ht)
  | ttmr hr => exact absurd hr httmr
  | dcbpr hr =>
    subst hr
    cases hs
    cases ht
    rw [show peekIntoDtlb cfg (t.setSpr sprDCBPR value) value false =
      peekIntoDtlb cfg (s.setSpr sprDCBPR value) value false from hset.peek (.inl rfl) _ value]
    exact (hset.evalsimMem _ value .w4).2.setSpr sprDCBPR 0
  | icbpr hr =>
    subst hr
    cases hs
    cases ht
    rw [show peekIntoItlb cfg (t.setSpr sprICBPR value) value =
      peekIntoItlb cfg (s.setSpr sprICBPR value) value from hset.peek (.inr rfl) _ value]
    exact (hset.evalsimMem _ value .w4).2.setSpr sprICBPR 0
  | command =>
    cases hs
    cases ht
    exact hset.setSpr _ _
  | sr => exact (hset.setSpr sprSR _).congr (hints hs) (hints ht)
  | npc =>
    cases hs
    cases ht
    exact hset.writeNpc value
  | picsr hr =>
    subst hr
    cases hs
    cases ht
    split
    · exact hset
    · exact hset.setSpr_both (by decide) _ _
  | picmr hr => exact absurd hr hpicmr
  | pmr =>
    beta_reduce at hs ht
    split at hs
    case isTrue => cases hs
    case isFalse hrun =>
      rw [if_neg hrun] at ht
      cases hs
      cases ht
      exact hset
  | other =>
    cases hs
    cases ht
    exact (hset.maskTlb regno value).congr (linkGpr_right _ _ _) (linkGpr_right _ _ _)

end Alike

end Moves

/-! ### Instructions -/

/-- What an effect reads by number, and the clock and the random numbers, are the same in both
states. -/
def Effect.Unread (cfg : Config) (s t : Sim) : Effect → Prop
  | .mfspr regno => Cpu.mfspr cfg t regno = Cpu.mfspr cfg s regno
  | .rfe => t.sprs sprEPCR = s.sprs sprEPCR ∧ t.sprs sprESR = s.sprs sprESR
  | .nop k => (k = 6 → t.cycles = s.cycles) ∧ (k = 10 → t.randoms = s.randoms)
  | _ => True

/-- Two states that execute alike, with the general purpose registers. -/
structure Same (cfg : Config) (s t : Sim) : Prop where
  alike : Alike cfg s t
  reg : t.reg = s.reg

namespace Same

variable {cfg : Config} {s t s' t' : Sim}

theorem setReg (h : Same cfg s t) (d : BitVec 5) (v : Word) :
    Same cfg (s.setReg d v) (t.setReg d v) := by
  refine ⟨⟨h.alike.sprs, h.alike.pc, h.alike.pcnext, h.alike.pcDelay, h.alike.delayInsn,
    h.alike.nextDelayInsn, h.alike.exceptPending, h.alike.mem⟩, ?_⟩
  rw [Sim.setReg, Sim.setReg, h.reg]

theorem setParam0 (h : Same cfg s t) (d : BitVec 5) (v : Option Word) :
    Same cfg (setParam0 s d v) (setParam0 t d v) := by
  cases v with
  | none => exact h
  | some v => exact h.setReg d v

theorem setSpr (h : Same cfg s t) (r : Regno) (v : Word) :
    Same cfg (s.setSpr r v) (t.setSpr r v) := ⟨h.alike.setSpr r v, h.reg⟩

theorem exceptHandle (h : Same cfg s t) (e : Exception) (ea ea' : Addr) :
    Same cfg (exceptHandle s e ea) (exceptHandle t e ea') := by
  refine ⟨h.alike.exceptHandle e ea ea', ?_⟩
  rw [exceptHandle_reg, exceptHandle_reg, h.reg]

theorem nopService (h : Same cfg s t) {k : Word}
    (hread : (Effect.nop k).Unread cfg s t) (hs : nopService cfg s k = .ok s')
    (ht : nopService cfg t k = .ok t') : Same cfg s' t' := by
  unfold Cpu.nopService at hs ht
  split at hs
  case isTrue hk =>
    rw [if_pos hk] at ht
    split at hs
    case isTrue hlib =>
      rw [if_pos hlib] at ht
      cases hs
      cases ht
      exact ⟨⟨h.alike.sprs, h.alike.pc, h.alike.pcnext, h.alike.pcDelay, h.alike.delayInsn,
        h.alike.nextDelayInsn, h.alike.exceptPending, h.alike.mem⟩, h.reg⟩
    case isFalse => cases hs
  case isFalse hk =>
    rw [if_neg hk] at ht
    split at hs
    case isTrue hk =>
      rw [if_pos hk, hread.1 hk] at ht
      cases hs
      cases ht
      exact (h.setReg 11 _).setReg 12 _
    case isFalse hk =>
      rw [if_neg hk] at ht
      split at hs
      case isTrue hk =>
        rw [if_pos hk] at ht
        cases hs
        cases ht
        exact h.setReg 11 _
      case isFalse hk =>
        rw [if_neg hk] at ht
        split at hs
        case isTrue hk =>
          rw [if_pos hk, hread.2 hk] at ht
          cases hs
          cases ht
          have hcount : Same cfg { s with randoms := s.randoms + 1 }
              { t with randoms := s.randoms + 1 } :=
            ⟨⟨h.alike.sprs, h.alike.pc, h.alike.pcnext, h.alike.pcDelay, h.alike.delayInsn,
              h.alike.nextDelayInsn, h.alike.exceptPending, h.alike.mem⟩, h.reg⟩
          exact hcount.setReg 11 _
        case isFalse hk =>
          rw [if_neg hk] at ht
          split at hs
          case isTrue hk =>
            rw [if_pos hk] at ht
            cases hs
            cases ht
            exact h.setReg 11 _
          case isFalse hk =>
            rw [if_neg hk] at ht
            cases hs
            cases ht
            exact h

theorem apply (h : Same cfg s t) {d : BitVec 5} {eff : Effect} (hread : eff.Unread cfg s t)
    (hs : eff.apply cfg d s = .ok s') (ht : eff.apply cfg d t = .ok t') : Same cfg s' t' := by
  cases eff with
  | skip => cases hs; cases ht; exact h
  | set v => cases hs; cases ht; exact h.setReg d v
  | arith v sr range =>
    have hset := (h.setParam0 d v).setSpr sprSR sr
    cases range with
    | true => cases hs; cases ht; exact hset.exceptHandle .range _ _
    | false => cases hs; cases ht; exact hset
  | flag f =>
    cases hs
    cases ht
    rw [h.alike.sr]
    exact h.setSpr sprSR _
  | load n extend a =>
    obtain ⟨hv, hmem⟩ := h.alike.evalMem a n
    have hreg : (evalMem cfg t a n).2.reg = (evalMem cfg s a n).2.reg := by
      rw [(evalMem_outcome cfg t a n).reg, (evalMem_outcome cfg s a n).reg, h.reg]
    have hboth : Same cfg (evalMem cfg s a n).2 (evalMem cfg t a n).2 := ⟨hmem, hreg⟩
    simp only [Effect.apply, Except.ok.injEq] at hs ht
    subst hs
    subst ht
    rw [hmem.exceptPending, hv]
    split
    · exact hboth
    · exact hboth.setReg d _
  | store n a v =>
    cases hs
    cases ht
    refine ⟨h.alike.setMem a v n, ?_⟩
    rw [(setMem_outcome cfg t a v n).reg, (setMem_outcome cfg s a v n).reg, h.reg]
  | jump target link =>
    cases hs
    cases ht
    have hjump : Same cfg { s with pcDelay := target, nextDelayInsn := true }
        { t with pcDelay := target, nextDelayInsn := true } :=
      ⟨⟨h.alike.sprs, h.alike.pc, h.alike.pcnext, fun _ => rfl, h.alike.delayInsn, rfl,
        h.alike.exceptPending, h.alike.mem⟩, h.reg⟩
    cases link with
    | true =>
      have hlink := hjump.setReg linkRegno (s.pc + 8)
      simpa only [if_true, h.alike.pc] using hlink
    | false => exact hjump
  | raise e => cases hs; cases ht; exact h.exceptHandle e _ _
  | raiseEear e => cases hs; cases ht; exact h.exceptHandle e _ _
  | mac v hi lo =>
    cases hs
    cases ht
    exact ((h.setParam0 d v).setSpr sprMACLO lo).setSpr sprMACHI hi
  | mtspr regno value =>
    have hs' : Cpu.mtspr cfg s regno value = .ok s' := hs
    have ht' : Cpu.mtspr cfg t regno value = .ok t' := ht
    refine ⟨h.alike.mtspr hs' ht', ?_⟩
    rw [mtspr_reg ht', mtspr_reg hs', linkGpr_congr h.reg]
  | mfspr regno =>
    cases hs
    cases ht
    rw [show Cpu.mfspr cfg t regno = Cpu.mfspr cfg s regno from hread]
    exact h.setReg d _
  | rfe =>
    have hs' : Cpu.mtspr cfg { s with pcnext := s.sprs sprEPCR } sprSR (s.sprs sprESR) = .ok s' :=
      hs
    have ht' : Cpu.mtspr cfg { t with pcnext := t.sprs sprEPCR } sprSR (t.sprs sprESR) = .ok t' :=
      ht
    rw [hread.1, hread.2] at ht'
    have hnext :
        Alike cfg { s with pcnext := s.sprs sprEPCR } { t with pcnext := s.sprs sprEPCR } :=
      ⟨h.alike.sprs, h.alike.pc, rfl, h.alike.pcDelay, h.alike.delayInsn, h.alike.nextDelayInsn,
        h.alike.exceptPending, h.alike.mem⟩
    refine ⟨hnext.mtspr hs' ht', ?_⟩
    rw [mtspr_reg ht', mtspr_reg hs']
    exact linkGpr_congr h.reg
  | nop k => exact h.nopService hread hs ht
  | float v flags =>
    cases hs
    cases ht
    rw [h.alike.spr (by decide) (by decide)]
    exact (h.setReg d v).setSpr sprFPCSR _
  | floatFlag f flags =>
    cases hs
    cases ht
    have hflag : Same cfg (s.setSpr sprSR (assignBit s.sr srF f))
        (t.setSpr sprSR (assignBit t.sr srF f)) := by
      rw [h.alike.sr]
      exact h.setSpr sprSR _
    rw [hflag.alike.spr (by decide) (by decide)]
    exact hflag.setSpr sprFPCSR _
  | done => cases hs

theorem updatePc (h : Same cfg s t) : Same cfg (updatePc s) (updatePc t) := by
  have hppc := (h.alike.setSpr sprPPC s.pc).sprs
  refine ⟨⟨?_, h.alike.pcnext, ?_, h.alike.pcDelay, h.alike.nextDelayInsn, h.alike.nextDelayInsn,
    h.alike.exceptPending, h.alike.mem⟩, h.reg⟩
  · change ∀ r, steers r → steering cfg r ((t.setSpr sprPPC t.pc).sprs r) =
      steering cfg r ((s.setSpr sprPPC s.pc).sprs r)
    rwa [h.alike.pc]
  · change (if t.nextDelayInsn then t.pcDelay else t.pcnext + 4) =
      if s.nextDelayInsn then s.pcDelay else s.pcnext + 4
    rw [h.alike.nextDelayInsn, h.alike.pcnext]
    split
    case isTrue hn => exact h.alike.pcDelay hn
    case isFalse => rfl

theorem view (h : Same cfg s t) (ps : List Param) : view t ps = view s ps := by
  rw [Cpu.view, Cpu.view, h.reg, h.alike.sr, h.alike.pc, h.alike.spr (r := sprMACLO) (by decide)
    (by decide), h.alike.spr (r := sprMACHI) (by decide) (by decide),
    h.alike.spr (r := sprFPCSR) (by decide) (by decide)]

theorem insnEffect (h : Same cfg s t) (o : Opcode) (insn : Word) :
    insnEffect cfg t o insn = insnEffect cfg s o insn := by
  rw [Cpu.insnEffect, Cpu.insnEffect, params, params, h.view, h.reg]

theorem destination (h : Same cfg s t) (o : Opcode) (insn : Word) :
    destination t o insn = destination s o insn := by
  rw [Cpu.destination, Cpu.destination, params, params, h.reg]

end Same

/-- The state in which an instruction starts. -/
def Sim.settled (s : Sim) : Sim := { s with exceptPending := false, nextDelayInsn := false }

/-- What the next instruction reads by number is the same in both states. -/
def UnreadAt (cfg : Config) (s t : Sim) : Prop :=
  ∀ o, decodeInsn cfg.haveUnsignedXori (fetch cfg s).1 = some o →
    (insnEffect cfg (fetch cfg s).2 o (fetch cfg s).1).Unread cfg (fetch cfg s).2 (fetch cfg t).2

section Clock

variable {cfg : Config} {s t s' t' : Sim}

theorem fetch_eq (cfg : Config) (s : Sim) : fetch cfg s = evalInsn cfg s.settled s.pc := rfl

theorem fetch_alike (h : Alike cfg s.settled t.settled) :
    (fetch cfg t).1 = (fetch cfg s).1 ∧ Alike cfg (fetch cfg s).2 (fetch cfg t).2 := by
  have hpc : t.pc = s.pc := h.pc
  rw [fetch_eq, fetch_eq, hpc]
  exact h.evalInsn s.pc

theorem fetch_reg (cfg : Config) (s : Sim) : (fetch cfg s).2.reg = s.reg :=
  (fetch_outcome cfg s).reg

theorem decodeExecute_same {insn : Word} (h : Same cfg s t)
    (hread : ∀ o, decodeInsn cfg.haveUnsignedXori insn = some o →
      (insnEffect cfg s o insn).Unread cfg s t)
    (hs : decodeExecute cfg s insn = .ok s') (ht : decodeExecute cfg t insn = .ok t') :
    Same cfg s' t' := by
  cases hdec : decodeInsn cfg.haveUnsignedXori insn with
  | some o =>
    rw [decodeExecute_of_some hdec] at hs ht
    obtain ⟨u, hu, rfl⟩ := Runs.map_eq_ok_iff.1 hs
    obtain ⟨v, hv, rfl⟩ := Runs.map_eq_ok_iff.1 ht
    rw [h.insnEffect, h.destination] at hv
    have huv := h.apply (hread o hdec) hu hv
    split
    · exact huv.setReg 0 0
    · exact huv
  | none =>
    rcases decoderActions_of_none (writesReg cfg.haveUnsignedXori) hdec with hacts | ⟨i, hacts⟩
    · rw [decodeExecute, hacts] at hs ht
      cases hs
      cases ht
      exact h.exceptHandle .illegal _ _
    · rw [decodeExecute, hacts, foldlM_repairActions] at hs ht
      cases hs
      cases ht
      split
      · exact h.setReg 0 0
      · exact h

/-- **Instructions keep agreement**, if what they read besides is the same. -/
theorem cpuClock_alike (h : Same cfg s.settled t.settled) (hread : UnreadAt cfg s t)
    (hs : cpuClock cfg s = .ok s') (ht : cpuClock cfg t = .ok t') :
    Same cfg s'.settled t'.settled := by
  obtain ⟨hinsn, hfetch⟩ := fetch_alike h.alike
  have hreg : (fetch cfg t).2.reg = (fetch cfg s).2.reg := by
    rw [fetch_reg, fetch_reg]
    exact h.reg
  have hboth : Same cfg (fetch cfg s).2 (fetch cfg t).2 := ⟨hfetch, hreg⟩
  have hsettle : ∀ {u v : Sim}, Same cfg u v → Same cfg u.settled v.settled := fun huv =>
    ⟨⟨huv.alike.sprs, huv.alike.pc, huv.alike.pcnext, nofun, huv.alike.delayInsn, rfl, rfl,
      huv.alike.mem⟩, huv.reg⟩
  unfold cpuClock at hs ht
  dsimp only at hs ht
  rw [hfetch.exceptPending, hinsn] at ht
  split at hs
  case isTrue hpending =>
    rw [if_pos hpending] at ht
    cases hs
    cases ht
    have hnext := hsettle hboth.updatePc
    exact hnext
  case isFalse hpending =>
    rw [if_neg hpending] at ht
    obtain ⟨u, hu, rfl⟩ := Runs.map_eq_ok_iff.1 hs
    obtain ⟨v, hv, rfl⟩ := Runs.map_eq_ok_iff.1 ht
    exact hsettle (decodeExecute_same hboth hread hu hv).updatePc

/-- So many instructions. -/
def clocks (cfg : Config) : ℕ → Sim → Except Stop Sim
  | 0, s => .ok s
  | n + 1, s => clocks cfg n s >>= cpuClock cfg

/-- **Sequences of instructions keep agreement.** -/
theorem clocks_alike (h : Same cfg s.settled t.settled) {n : ℕ}
    (hread : ∀ k < n, ∀ u v, clocks cfg k s = .ok u → clocks cfg k t = .ok v → UnreadAt cfg u v)
    (hs : clocks cfg n s = .ok s') (ht : clocks cfg n t = .ok t') :
    Same cfg s'.settled t'.settled := by
  induction n generalizing s' t' with
  | zero =>
    cases hs
    cases ht
    exact h
  | succ n ih =>
    obtain ⟨u, hu, hs⟩ := Runs.bind_eq_ok_iff.1 hs
    obtain ⟨v, hv, ht⟩ := Runs.bind_eq_ok_iff.1 ht
    have huv := ih (fun k hk => hread k (Nat.lt_succ_of_lt hk)) hu hv
    exact cpuClock_alike huv (hread n (Nat.lt_succ_self n) u v hu hv) hs ht

end Clock

end Cpu
end Or1ksim
