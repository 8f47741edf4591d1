import Or1ksim.Sched.Jobs
import Or1ksim.Uart.Registers

/-!
# What the parts of the serial line leave alone

* `schedAdd_eq_ok`, `schedFindRemove_eq_ok` — scheduler calls change the queue and nothing else;
* `OnlyRecv` — the receiver's side and the commands of the other side change nothing that the
  transmitter or the interrupts depend on;
* `vapiLoop_onlyRecv`, `nextRecv_onlyRecv` — the functions that do so;
* `OnlyInts` — raising and clearing interrupts changes nothing that the FIFOs depend on.
-/

namespace Or1ksim
namespace Uart

/-- The jobs of the transmitter. -/
def Fn.isTx : Fn → Bool
  | .charClock | .sendBreak | .txSend => true
  | _ => false

/-- The jobs of the transmitter that are queued. -/
def State.txJobs (s : State) : List Fn := s.sched.jobsOf Fn.isTx

section Calls

variable {cfg : Config} {s t u : State} {f : Fn} {n : ℕ}

theorem withSched_eq_ok {o : Option (Sched.State Fn Unit)} (h : s.withSched o = .ok t) :
    ∃ q, o = some q ∧ t = { s with sched := q } := by
  cases o with
  | none => cases h
  | some q =>
    cases h
    exact ⟨q, rfl, rfl⟩

theorem schedAdd_eq_ok (h : s.schedAdd f n = .ok t) :
    ∃ q, Sched.schedAdd s.sched f () n = some q ∧ t = { s with sched := q } := withSched_eq_ok h

theorem schedFindRemove_eq_ok (h : s.schedFindRemove f = .ok t) :
    ∃ q, Sched.schedFindRemove s.sched f () = some q ∧ t = { s with sched := q } :=
  withSched_eq_ok h

theorem txJobs_schedAdd (hf : f.isTx = true) (h : s.schedAdd f n = .ok t) :
    ∃ pre post, s.txJobs = pre ++ post ∧ t.txJobs = pre ++ f :: post := by
  obtain ⟨q, hq, rfl⟩ := schedAdd_eq_ok h
  exact Sched.jobsOf_schedAdd hf hq

theorem txJobs_schedFindRemove (h : s.schedFindRemove f = .ok t) :
    t.txJobs = s.txJobs.erase f := by
  obtain ⟨q, hq, rfl⟩ := schedFindRemove_eq_ok h
  exact Sched.jobsOf_schedFindRemove hq

/-! ### The receiver's side -/

/-- The upper bits of a character are errors, which leave the transmitter's bits alone. -/
def RxBits (ch : BitVec 16) : Prop := ch.getLsbD 14 = false

/-- Only what belongs to the receiver and to the other side has changed, and jobs that are not the
transmitter's have come and gone. -/
structure OnlyRecv (s t : State) : Prop where
  eq : t = { s with
    rxser := t.rxser
    receiveing := t.receiveing
    recvBreak := t.recvBreak
    vapiCharClks := t.vapiCharClks
    vapiDll := t.vapiDll
    vapiDlh := t.vapiDlh
    vapiLcr := t.vapiLcr
    vapiSkew := t.vapiSkew
    vapiBuf := t.vapiBuf
    vapiBufHeadPtr := t.vapiBufHeadPtr
    vapiBufTailPtr := t.vapiBufTailPtr
    sched := t.sched }
  jobs : t.txJobs = s.txJobs
  rxser : RxBits s.rxser → RxBits t.rxser

theorem OnlyRecv.refl (s : State) : OnlyRecv s s := ⟨rfl, rfl, id⟩

theorem OnlyRecv.trans (h : OnlyRecv s t) (h' : OnlyRecv t u) : OnlyRecv s u where
  eq := by
    have h₁ := h.eq
    have h₂ := h'.eq
    rw [h₁] at h₂
    exact h₂
  jobs := h'.jobs.trans h.jobs
  rxser := h'.rxser ∘ h.rxser

theorem OnlyRecv.schedAdd (hf : f.isTx = false) (h : s.schedAdd f n = .ok t) : OnlyRecv s t := by
  obtain ⟨q, hq, rfl⟩ := schedAdd_eq_ok h
  exact ⟨rfl, Sched.jobsOf_schedAdd_of_not hf hq, id⟩

theorem OnlyRecv.schedFindRemove (hf : f.isTx = false) (h : s.schedFindRemove f = .ok t) :
    OnlyRecv s t := by
  have hjobs := txJobs_schedFindRemove h
  obtain ⟨q, hq, rfl⟩ := schedFindRemove_eq_ok h
  refine ⟨rfl, hjobs.trans (List.erase_of_not_mem fun hmem => ?_), id⟩
  rw [(Sched.mem_jobsOf.1 hmem).2] at hf
  cases hf

theorem rxBits_byte (b : Byte) : RxBits (b.setWidth 16) := by
  rw [RxBits, BitVec.getLsbD_setWidth, BitVec.getLsbD_of_ge b 14 (by decide)]
  rfl

theorem uartSchedRecvCheck_onlyRecv (h : uartSchedRecvCheck cfg s = .ok t) : OnlyRecv s t := by
  unfold uartSchedRecvCheck at h
  split at h
  · exact .schedAdd rfl h
  · cases h
    exact .refl s

theorem nextRecv_onlyRecv (h : nextRecv cfg s = .ok t) : OnlyRecv s t := by
  unfold nextRecv at h
  split at h
  · have hset : OnlyRecv s { s with rxser := s.loopback.setWidth 16, receiveing := true } :=
      ⟨rfl, rfl, fun _ => rxBits_byte _⟩
    exact hset.trans (.schedAdd rfl h)
  · obtain ⟨u, hu, h⟩ := Runs.bind_eq_ok_iff.1 h
    have hset : OnlyRecv s { s with receiveing := false } := ⟨rfl, rfl, id⟩
    have hcheck := hset.trans (uartSchedRecvCheck_onlyRecv hu)
    split at h
    · exact hcheck.trans (.schedAdd rfl h)
    · cases h
      exact hcheck

theorem uartCheckChar_onlyRecv {input : ChannelRead} (h : uartCheckChar s input = .ok t) :
    OnlyRecv s t := by
  cases input with
  | none => exact .schedAdd rfl h
  | byte b =>
    have hset : OnlyRecv s { s with rxser := b.setWidth 16, receiveing := true } :=
      ⟨rfl, rfl, fun _ => rxBits_byte _⟩
    exact hset.trans (.schedAdd rfl h)
  | error =>
    cases h
    exact .refl s

theorem uartRecvBreakStop_onlyRecv (h : uartRecvBreakStop s = .ok t) : OnlyRecv s t := by
  have hset : OnlyRecv s { s with recvBreak := false } := ⟨rfl, rfl, id⟩
  exact hset.trans (.schedFindRemove rfl h)

/-! ### Commands of the other side -/

theorem uartRecvBreakStart_onlyRecv {cmd : State → Except Stop State}
    (hcmd : ∀ {s t}, cmd s = .ok t → OnlyRecv s t) (h : uartRecvBreakStart cfg cmd s = .ok t) :
    OnlyRecv s t := by
  obtain ⟨u, hu, h⟩ := Runs.bind_eq_ok_iff.1 h
  obtain ⟨v, hv, h⟩ := Runs.bind_eq_ok_iff.1 h
  have hset : OnlyRecv s { s with receiveing := false, recvBreak := true } := ⟨rfl, rfl, id⟩
  have hremove := hset.trans (.schedFindRemove rfl hu)
  have hloop : OnlyRecv u v := by
    unfold waitingCmds at hv
    split at hv
    · exact hcmd hv
    · cases hv
      exact .refl u
  exact (hremove.trans hloop).trans (.schedAdd rfl h)

theorem vapiBreak_onlyRecv {cmd : State → Except Stop State} {data : BitVec 64}
    (hcmd : ∀ {s t}, cmd s = .ok t → OnlyRecv s t) (h : vapiBreak cfg cmd s data = .ok t) :
    OnlyRecv s t := by
  unfold vapiBreak at h
  dsimp only at h
  split_ifs at h
  · exact uartRecvBreakStart_onlyRecv hcmd h
  · exact .schedAdd rfl h
  · exact uartRecvBreakStop_onlyRecv h
  · exact .schedAdd rfl h

theorem rxBits_vapi (data : BitVec 64) : RxBits (data.setWidth 16 &&& 0xff) := by
  rw [RxBits, BitVec.getLsbD_and]
  exact Bool.and_false _

theorem RxBits.or {ch flags : BitVec 16} (h : RxBits ch) (hf : RxBits flags) :
    RxBits (ch ||| flags) := by
  rw [RxBits, BitVec.getLsbD_or, h, hf]
  rfl

theorem vapiChar_onlyRecv {data : BitVec 64} (h : vapiChar s data = .ok t) : OnlyRecv s t := by
  unfold vapiChar at h
  extract_lets lcr clks rxser mismatch rxser' s' at h
  have hrxser : RxBits rxser' := by
    have hflags : RxBits 0x8800 := rfl
    have hor := (rxBits_vapi data).or hflags
    show RxBits (if mismatch then _ else _)
    split
    · split
      · exact hor.or rfl
      · exact hor
    · exact rxBits_vapi data
  have hset : OnlyRecv s s' := ⟨rfl, rfl, fun _ => hrxser⟩
  split at h
  · have hrecv : OnlyRecv s' { s' with receiveing := true } := ⟨rfl, rfl, id⟩
    exact (hset.trans hrecv).trans (.schedAdd rfl h)
  · exact Except.ok.inj h ▸ hset

theorem vapiLoop_onlyRecv {fuel : ℕ} (h : vapiLoop cfg fuel s = .ok t) : OnlyRecv s t := by
  induction fuel generalizing s t with
  | zero =>
    cases h
    exact .refl s
  | succ fuel ih =>
    unfold vapiLoop at h
    split at h
    case isTrue =>
      cases h
      exact .refl s
    case isFalse =>
      have hnext : OnlyRecv s
          { s with vapiBufTailPtr := (s.vapiBufTailPtr + 1) % vapiBufLen } := ⟨rfl, rfl, id⟩
      dsimp only at h
      split at h
      · exact hnext.trans (vapiChar_onlyRecv h)
      · have hrest := ih h
        refine OnlyRecv.trans ?_ hrest
        exact ⟨rfl, rfl, id⟩
      · have hrest := ih h
        refine OnlyRecv.trans ?_ hrest
        exact ⟨rfl, rfl, id⟩
      · have hrest := ih h
        refine OnlyRecv.trans ?_ hrest
        exact ⟨rfl, rfl, id⟩
      · obtain ⟨u, hu, h⟩ := Runs.bind_eq_ok_iff.1 h
        have hbreak := vapiBreak_onlyRecv ih hu
        exact (hnext.trans hbreak).trans (ih h)
      · have hrest := ih h
        exact hnext.trans hrest

theorem uartVapiRead_onlyRecv {data : BitVec 64} (h : uartVapiRead cfg s data = .ok t) :
    OnlyRecv s t := by
  unfold uartVapiRead at h
  extract_lets s' at h
  have hset : OnlyRecv s s' := ⟨rfl, rfl, id⟩
  split_ifs at h
  · exact hset.trans (vapiLoop_onlyRecv h)
  · exact Except.ok.inj h ▸ hset

/-! ### Interrupts -/

/-- Only what belongs to the interrupts has changed, and jobs that are not the transmitter's have
come and gone. -/
structure OnlyInts (s t : State) : Prop where
  eq : t = { s with ints := t.ints, iir := t.iir, reported := t.reported, sched := t.sched }
  jobs : t.txJobs = s.txJobs

theorem OnlyInts.refl (s : State) : OnlyInts s s := ⟨rfl, rfl⟩

theorem OnlyInts.trans (h : OnlyInts s t) (h' : OnlyInts t u) : OnlyInts s u where
  eq := by
    have h₁ := h.eq
    have h₂ := h'.eq
    rw [h₁] at h₂
    exact h₂
  jobs := h'.jobs.trans h.jobs

theorem OnlyInts.schedAdd (hf : f.isTx = false) (h : s.schedAdd f n = .ok t) : OnlyInts s t := by
  obtain ⟨q, hq, rfl⟩ := schedAdd_eq_ok h
  exact ⟨rfl, Sched.jobsOf_schedAdd_of_not hf hq⟩

theorem OnlyInts.schedFindRemove (hf : f.isTx = false) (h : s.schedFindRemove f = .ok t) :
    OnlyInts s t := by
  have hrecv := OnlyRecv.schedFindRemove hf h
  obtain ⟨q, hq, rfl⟩ := schedFindRemove_eq_ok h
  exact ⟨rfl, hrecv.jobs⟩

theorem raiseInt_onlyInts (intr : Byte) (enable : ℕ) (yields : Byte → Bool) (s : State) :
    OnlyInts s (raiseInt intr enable yields s) := by
  unfold raiseInt
  dsimp only
  split
  · exact ⟨rfl, rfl⟩
  · split
    · exact ⟨rfl, rfl⟩
    · exact ⟨rfl, rfl⟩

theorem uartCheckRlsi_onlyInts (s : State) : OnlyInts s (uartCheckRlsi s) := by
  unfold uartCheckRlsi
  split
  · exact raiseInt_onlyInts _ _ _ s
  · exact .refl s

theorem uartCheckRdi_onlyInts (s : State) : OnlyInts s (uartCheckRdi s) := by
  unfold uartCheckRdi
  split
  · exact raiseInt_onlyInts _ _ _ s
  · exact .refl s

theorem uartNextInt_onlyInts (s : State) : OnlyInts s (uartNextInt s) := by
  unfold uartNextInt
  split_ifs
  · exact raiseInt_onlyInts _ _ _ s
  · exact raiseInt_onlyInts _ _ _ s
  · exact raiseInt_onlyInts _ _ _ s
  · exact raiseInt_onlyInts _ _ _ s
  · exact raiseInt_onlyInts _ _ _ s
  · exact ⟨rfl, rfl⟩

theorem uartClearInt_onlyInts {intr : Byte} (h : uartClearInt s intr = .ok t) : OnlyInts s t := by
  obtain ⟨u, hu, h⟩ := Runs.bind_eq_ok_iff.1 h
  cases h
  have hset : OnlyInts s { s with ints := s.ints &&& ~~~BitVec.twoPow 32 intr.toNat } := ⟨rfl, rfl⟩
  have hremove : OnlyInts s u := by
    unfold removeCti at hu
    split at hu
    · exact hset.trans (.schedFindRemove rfl hu)
    · cases hu
      exact hset
  split
  · exact hremove
  · exact hremove.trans (uartNextInt_onlyInts u)

end Calls

end Uart
end Or1ksim
