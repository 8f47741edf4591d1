import Or1ksim.Cpu.Alike

/-!
# Asynchronous exceptions

A tick or an interrupt comes between two instructions.  When its handler returns, the processor
goes on as if nothing had happened, except that some special purpose registers tell.

* `Between`, `Handled`, `AtRfe` — before the exception and at the end of its handler;
* `cpuClock_jump` — only a jump leaves a delay slot to be executed;
* `executeAgain` — a jump does the same again after it has written its link register;
* `async_exception_resumes` — **an asynchronous exception is transparent**.
-/

namespace Or1ksim
namespace Cpu

open Bits Insn

/-! ### Delay slots -/

section Jumps

variable {cfg : Config} {s t b q : Sim}

theorem enterException_nextDelayInsn (s : Sim) (e : Exception) (ea : Addr) :
    (enterException s e ea).nextDelayInsn = s.nextDelayInsn := by
  unfold enterException
  cases e <;> rfl

theorem exceptHandle_nextDelayInsn (s : Sim) (e : Exception) (ea : Addr) :
    (exceptHandle s e ea).nextDelayInsn = s.nextDelayInsn := by
  have hdebug := (Quiet.debugIgnoreException s e).nextDelayInsn
  unfold exceptHandle
  dsimp only
  split
  · exact hdebug
  · rw [enterException_nextDelayInsn, hdebug]

theorem Outcome.nextDelayInsn (h : Outcome s t) : t.nextDelayInsn = s.nextDelayInsn := by
  cases h with
  | quiet h => exact h.nextDelayInsn
  | entered q e ea h _ ht => rw [ht, enterException_nextDelayInsn, h.nextDelayInsn]

theorem OnlySched.nextDelayInsn (h : OnlySched s t) : t.nextDelayInsn = s.nextDelayInsn := by rw [h]

/-- Every state that a computation may give is as the condition says. -/
def Gives (P : Sim → Prop) (x : Except Stop Sim) : Prop := ∀ t, x = .ok t → P t

theorem Gives.ite {P : Sim → Prop} {c : Prop} [Decidable c] {x y : Except Stop Sim}
    (hx : Gives P x) (hy : Gives P y) : Gives P (if c then x else y) := by
  split
  · exact hx
  · exact hy

theorem Gives.ok {P : Sim → Prop} {u : Sim} (h : P u) : Gives P (.ok u) := by
  rintro t ⟨⟩
  exact h

theorem mtspr_nextDelayInsn {regno : Regno} {value : Word} (h : mtspr cfg s regno value = .ok t) :
    t.nextDelayInsn = s.nextDelayInsn := by
  have hints : ∀ u : Sim, u.nextDelayInsn = s.nextDelayInsn →
      Gives (fun t => t.nextDelayInsn = s.nextDelayInsn) (picIntsEn u) := by
    intro u hu t ht
    obtain ⟨q, rfl⟩ := picIntsEn_eq_ok ht
    exact hu
  obtain ⟨f, hf, hform⟩ := mtspr_form cfg regno value
  refine (?_ : Gives (fun t => t.nextDelayInsn = s.nextDelayInsn) (mtspr cfg s regno value)) t h
  rw [hf]
  cases hform with
  | ttcr => exact fun t ht => (schedTimerJob_onlySched ht).nextDelayInsn
  | ttmr =>
    intro t ht
    refine (schedTimerJob_onlySched ht).nextDelayInsn.trans ?_
    dsimp only
    split <;> rfl
  | dcbpr | icbpr => exact .ok (evalsimMem_outcome _ _ _ _).nextDelayInsn
  | command => exact .ok rfl
  | sr => exact .ite (hints _ rfl) (.ok rfl)
  | npc =>
    refine .ok ?_
    unfold writeNpc
    split <;> rfl
  | picsr =>
    refine .ok ?_
    split <;> rfl
  | picmr =>
    dsimp only
    refine .ite (hints _ ?_) (.ok ?_) <;> split <;> rfl
  | pmr => exact .ite nofun (.ok rfl)
  | other =>
    refine .ok ?_
    unfold linkGpr maskTlb
    dsimp only
    split_ifs <;> rfl

theorem setParam0_nextDelayInsn (s : Sim) (d : BitVec 5) (v : Option Word) :
    (setParam0 s d v).nextDelayInsn = s.nextDelayInsn := by
  cases v <;> rfl

theorem Effect.apply_nextDelayInsn {d : BitVec 5} {eff : Effect} (h : eff.apply cfg d s = .ok t) :
    (∃ target link, eff = .jump target link) ∨ t.nextDelayInsn = s.nextDelayInsn := by
  cases eff with
  | jump target link => exact .inl ⟨target, link, rfl⟩
  | arith v sr range =>
    right
    cases range with
    | true =>
      cases h
      exact (exceptHandle_nextDelayInsn _ _ _).trans (setParam0_nextDelayInsn s d v)
    | false =>
      cases h
      exact setParam0_nextDelayInsn s d v
  | load n extend a =>
    right
    simp only [Effect.apply, Except.ok.injEq] at h
    subst h
    have hmem := (evalMem_outcome cfg s a n).nextDelayInsn
    split
    · exact hmem
    · exact hmem
  | store n a v =>
    cases h
    exact .inr (setMem_outcome cfg s a v n).nextDelayInsn
  | raise e => cases h; exact .inr (exceptHandle_nextDelayInsn _ _ _)
  | raiseEear e => cases h; exact .inr (exceptHandle_nextDelayInsn _ _ _)
  | mac v hi lo => cases h; exact .inr (setParam0_nextDelayInsn s d v)
  | mtspr regno value => exact .inr (mtspr_nextDelayInsn h)
  | rfe =>
    have hmove : Cpu.mtspr cfg { s with pcnext := s.sprs sprEPCR } sprSR (s.sprs sprESR) = .ok t :=
      h
    have hnext := mtspr_nextDelayInsn hmove
    exact .inr hnext
  | nop k =>
    right
    have hnop : nopService cfg s k = .ok t := h
    unfold nopService at hnop
    split_ifs at hnop <;> cases hnop <;> rfl
  | skip => cases h; exact .inr rfl
  | set v => cases h; exact .inr rfl
  | flag f => cases h; exact .inr rfl
  | mfspr regno => cases h; exact .inr rfl
  | float v flags => cases h; exact .inr rfl
  | floatFlag f flags => cases h; exact .inr rfl
  | done => cases h

/-- A jump has been executed, up to its delay slot. -/
def jumped (target : Addr) (link : Bool) (s : Sim) : Sim :=
  let s := { s with pcDelay := target, nextDelayInsn := true }
  if link then s.setReg linkRegno (s.pc + 8) else s

/-- The instruction at the program counter is a jump that is taken. -/
structure Jumps (cfg : Config) (b : Sim) (o : Opcode) (target : Addr) (link : Bool) : Prop where
  fetched : (fetch cfg b).2.exceptPending = false
  decoded : decodeInsn cfg.haveUnsignedXori (fetch cfg b).1 = some o
  effect : insnEffect cfg (fetch cfg b).2 o (fetch cfg b).1 = .jump target link

theorem jump_rows : ∀ x, ∀ o ∈ opcodes x,
    o.function ∈ [.lJ, .lJal, .lBnf, .lBf, .lJr, .lJalr] → writeToReg o = false := by
  decide +kernel

theorem function_of_jump {f : ExecFn} {v : View} {target : Addr} {link : Bool}
    (h : effect cfg f v = .jump target link) :
    f ∈ [.lJ, .lJal, .lBnf, .lBf, .lJr, .lJalr] := by
  have hhard : ∀ {e : Effect}, (∀ a l, e ≠ .jump a l) → hard cfg e v ≠ .jump target link := by
    intro e he
    unfold hard
    split
    · exact he target link
    · intro h
      cases h
  cases f with
  | lJ | lJal | lBnf | lBf | lJr | lJalr => decide
  | lMtspr =>
    simp only [effect, lMtspr] at h
    split at h <;> cases h
  | lMfspr =>
    simp only [effect, lMfspr] at h
    split at h <;> cases h
  | lfAddS | lfSubS | lfMulS | lfDivS | lfItofS | lfFtoiS | lfRemS | lfMaddS | lfSfeqS | lfSfneS
  | lfSfgtS | lfSfgeS | lfSfltS | lfSfleS => exact absurd h (hhard fun _ _ he => by cases he)
  | _ => cases h

/-- The row of `l.jal`. -/
def jalRow : Opcode := ⟨"l.jal", "N", "00 0x1  NNNNN NNNNN NNNN NNNN NNNN NNNN", .lJal⟩

/-- The row of `l.jalr`. -/
def jalrRow : Opcode := ⟨"l.jalr", "rB", "01 0x2  ----- ----- BBBB B--- ---- ----", .lJalr⟩

theorem link_rows : ∀ x, ∀ o ∈ opcodes x,
    (o.function = .lJal → o = jalRow) ∧ (o.function = .lJalr → o = jalrRow) := by
  decide +kernel

theorem params_jal (s : Sim) (insn : Word) : ∃ w, ∀ reg,
    params { s with reg := reg } jalRow insn = [.value w] := ⟨_, fun _ => rfl⟩

theorem params_jalr (s : Sim) (insn : Word) : ∀ reg,
    params { s with reg := reg } jalrRow insn =
      [.reg (0#32 ||| ((insn >>> 11) &&& 31#32) <<< 0)] := fun _ => rfl

theorem setWidth_operand (x : Word) :
    ((x &&& 31#32).setWidth 5).setWidth 32 = x &&& 31#32 := by
  have hmask : lowMask 32 5 = 31#32 := by decide
  rw [setWidth_setWidth_eq_and, hmask, BitVec.and_assoc, BitVec.and_self]

/-- **A jump again.**  It finds the same target after it has written its link register. -/
theorem insnEffect_again {x : Bool} {o : Opcode} {insn : Word} {target : Addr} {link : Bool}
    (ho : o ∈ opcodes x) (h : insnEffect cfg q o insn = .jump target link) (v : Word) :
    insnEffect cfg { q with reg := if link then Function.update q.reg linkRegno v else q.reg } o
      insn = .jump target link := by
  cases link with
  | false => exact h
  | true =>
    have hfun : o.function = .lJal ∨ o.function = .lJalr := by
      rw [insnEffect] at h
      have hmem := function_of_jump h
      generalize hf : o.function = f at h hmem
      simp only [List.mem_cons, List.not_mem_nil, or_false] at hmem
      rcases hmem with rfl | rfl | rfl | rfl | rfl | rfl
      · simp only [effect, lJ] at h
        split at h <;> cases h
      · exact .inl rfl
      · simp only [effect, lBnf] at h
        split at h <;> cases h
      · simp only [effect, lBf] at h
        split at h <;> cases h
      · simp only [effect, lJr] at h
        split at h <;> cases h
      · exact .inr rfl
    rcases hfun with hf | hf
    · obtain rfl := (link_rows x o ho).1 hf
      obtain ⟨w, hw⟩ := params_jal q insn
      have hq : params q jalRow insn = [.value w] := hw q.reg
      rw [insnEffect, hw]
      rw [insnEffect, hq] at h
      exact h
    · obtain rfl := (link_rows x o ho).2 hf
      have hq : params q jalrRow insn = _ := params_jalr q insn q.reg
      rw [insnEffect, params_jalr]
      rw [insnEffect, hq] at h
      generalize hw : 0#32 ||| ((insn >>> 11) &&& 31#32) <<< 0 = w at h
      have hw' : (w.setWidth 5).setWidth 32 = w := by
        rw [← hw, BitVec.shiftLeft_zero, BitVec.zero_or, setWidth_operand]
      -- "Use of link register triggers an exception": the operand is another register.
      have hne : w.setWidth 5 ≠ linkRegno := by
        intro hlink
        have hparam : w = linkRegno.setWidth 32 := by rw [← hw', hlink]
        have hraise : effect cfg .lJalr (view q [.reg w]) = .raise .illegal := if_pos hparam
        cases hraise.symm.trans h
      have hview : view { q with reg := Function.update q.reg linkRegno v } [.reg w] =
          view q [.reg w] := by
        simp only [view, List.getD_cons_zero, Param.read, Function.update_of_ne hne]
        rfl
      exact (congrArg (effect cfg .lJalr) hview).trans h

theorem mem_of_decodeInsn {x : Bool} {insn : Word} {o : Opcode} (h : decodeInsn x insn = some o) :
    o ∈ opcodes x := (decodeInsn_eq_some_iff.1 h).1

theorem Effect.apply_jump (cfg : Config) (d : BitVec 5) (target : Addr) (link : Bool) (s : Sim) :
    (Effect.jump target link).apply cfg d s = .ok (jumped target link s) := by
  cases link <;> rfl

theorem Jumps.cpuClock_eq {o : Opcode} {target : Addr} {link : Bool}
    (h : Jumps cfg b o target link) :
    cpuClock cfg b = .ok (updatePc (jumped target link (fetch cfg b).2)) := by
  have hwrites : writeToReg o = false :=
    jump_rows _ o (mem_of_decodeInsn h.decoded) (function_of_jump h.effect)
  rw [cpuClock_of_effect h.fetched h.decoded h.effect hwrites, Effect.apply_jump]
  rfl

theorem cpuClock_jump (h : cpuClock cfg b = .ok s) (hd : s.delayInsn = true) :
    ∃ o target link, Jumps cfg b o target link ∧
      s = updatePc (jumped target link (fetch cfg b).2) := by
  have hfetch : (fetch cfg b).2.nextDelayInsn = false := (fetch_outcome cfg b).nextDelayInsn
  have hclock := h
  unfold cpuClock at h
  dsimp only at h
  split at h
  case isTrue =>
    cases h
    exact absurd (hfetch.symm.trans hd) Bool.false_ne_true
  case isFalse hpending =>
    rw [Bool.not_eq_true] at hpending
    obtain ⟨u, hu, rfl⟩ := Runs.map_eq_ok_iff.1 h
    have hslot : u.nextDelayInsn = true := hd
    cases hdec : decodeInsn cfg.haveUnsignedXori (fetch cfg b).1 with
    | some o =>
      have hexec := hu
      rw [decodeExecute_of_some hdec] at hexec
      obtain ⟨v, hv, rfl⟩ := Runs.map_eq_ok_iff.1 hexec
      rcases Effect.apply_nextDelayInsn hv with ⟨target, link, heff⟩ | hnext
      · have hjumps : Jumps cfg b o target link := ⟨hpending, hdec, heff⟩
        exact ⟨o, target, link, hjumps, Except.ok.inj (hclock.symm.trans hjumps.cpuClock_eq)⟩
      · have hslot' : v.nextDelayInsn = true := by
          split at hslot <;> exact hslot
        exact absurd ((hnext.trans hfetch).symm.trans hslot') Bool.false_ne_true
    | none =>
      refine absurd (Eq.trans ?_ hslot) Bool.false_ne_true
      rw [← hfetch]
      rcases decodeExecute_of_none (fetch cfg b).2 hdec with ⟨-, hv⟩ | hv | hv <;> rw [hv] at hu <;>
        cases hu
      · exact (exceptHandle_nextDelayInsn _ _ _).symm
      · rfl
      · rfl

theorem jumped_again (target : Addr) (link : Bool) (q : Sim) :
    jumped target link { q with reg := (jumped target link q).reg } = jumped target link q := by
  cases link with
  | false => rfl
  | true => simp only [jumped, if_true, Sim.setReg, Function.update_idem]

/-- A jump is executed again, from a state like the one before it but with the registers that it has
left. -/
theorem executeAgain {r : Sim} (h : cpuClock cfg b = .ok s) (hd : s.delayInsn = true)
    (hr : Alike cfg b.settled r.settled) (hreg : r.reg = s.reg) :
    ∃ t, cpuClock cfg r = .ok t ∧ Same cfg s.settled t.settled := by
  obtain ⟨o, target, link, hjumps, rfl⟩ := cpuClock_jump h hd
  obtain ⟨hinsn, hfetch⟩ := fetch_alike hr
  generalize hq : (fetch cfg b).2 = q at *
  have hq' : Same cfg { q with reg := (jumped target link q).reg } (fetch cfg r).2 := by
    refine ⟨⟨hfetch.sprs, hfetch.pc, hfetch.pcnext, hfetch.pcDelay, hfetch.delayInsn,
      hfetch.nextDelayInsn, hfetch.exceptPending, hfetch.mem⟩, ?_⟩
    rw [fetch_reg, hreg]
    rfl
  have heffect : insnEffect cfg { q with reg := (jumped target link q).reg } o (fetch cfg b).1 =
      .jump target link := by
    have hbefore := hjumps.effect
    rw [hq] at hbefore
    have hagain := insnEffect_again (mem_of_decodeInsn hjumps.decoded) hbefore (q.pc + 8)
    cases link <;> exact hagain
  have hjumps' : Jumps cfg r o target link := by
    refine ⟨?_, ?_, ?_⟩
    · rw [hfetch.exceptPending, ← hq]
      exact hjumps.fetched
    · rw [hinsn]
      exact hjumps.decoded
    · rw [hinsn, hq'.insnEffect]
      exact heffect
  refine ⟨_, hjumps'.cpuClock_eq, ?_⟩
  have hread : (Effect.jump target link).Unread cfg { q with reg := (jumped target link q).reg }
      (fetch cfg r).2 := trivial
  have hdone : Same cfg (jumped target link { q with reg := (jumped target link q).reg })
      (jumped target link (fetch cfg r).2) :=
    hq'.apply (d := 0) hread (Effect.apply_jump cfg 0 target link _)
      (Effect.apply_jump cfg 0 target link _)
  rw [jumped_again] at hdone
  have hnext := hdone.updatePc
  exact ⟨⟨hnext.alike.sprs, hnext.alike.pc, hnext.alike.pcnext, nofun, hnext.alike.delayInsn, rfl,
    rfl, hnext.alike.mem⟩, hnext.reg⟩

end Jumps

/-! ### Fetching again -/

section Fetch

variable {cfg : Config} {s : Sim} {m : Mmu}

namespace Alike

theorem exceptHandle_right {e : Exception} {ea : Addr}
    (h : (Cpu.exceptHandle s e ea).exceptPending = false) :
    Alike cfg s (Cpu.exceptHandle s e ea) := by
  unfold Cpu.exceptHandle at h ⊢
  dsimp only at h ⊢
  split at h
  case isTrue hi =>
    rw [if_pos hi]
    exact debugIgnoreException_right s e
  case isFalse =>
    rw [enterException_exceptPending] at h
    exact Bool.noConfusion h

theorem ageLru_right {r : Regno} (hlru : LruApart cfg) (hr : matchReg r) (s : Sim) :
    Alike cfg s (Mmu.ageLru s r) := by
  have hself := (refl cfg s).setSpr_steering (r := r) (v := s.sprs r) (w := aged (s.sprs r)) (by
    rw [steering, steering, if_pos ⟨hlru, hr⟩, if_pos ⟨hlru, hr⟩, aged_and_not])
  have hsame : s.setSpr r (s.sprs r) = s := by
    rw [Sim.setSpr, Function.update_eq_self]
  rw [hsame] at hself
  rw [ageLru_eq]
  exact hself

theorem touchLru_right {hit : Regno} (hlru : LruApart cfg) (hm : IsMmu cfg m)
    (hhit : matchReg hit) (va : Addr) (s : Sim) : Alike cfg s (m.touchLru s va hit) := by
  have hfold : ∀ (rs : List Regno) (s : Sim), (∀ r ∈ rs, matchReg r) →
      Alike cfg s (rs.foldl Mmu.ageLru s) := by
    intro rs
    induction rs with
    | nil => exact fun s _ => refl cfg s
    | cons r rs ih =>
      exact fun s hrs => (ageLru_right hlru (hrs r (.head _)) s).trans
        (ih _ fun r hr => hrs r (.tail _ hr))
  unfold Mmu.touchLru
  have haged : Alike cfg s (((List.range m.config.nways).map (m.mr va)).foldl Mmu.ageLru s) := by
    refine hfold _ s fun r hr => ?_
    obtain ⟨way, hway, rfl⟩ := List.mem_map.1 hr
    exact matchReg_mr hm (List.mem_range.1 hway) va
  generalize ((List.range m.config.nways).map (m.mr va)).foldl Mmu.ageLru s = q at haged ⊢
  have hself := (refl cfg q).setSpr_steering (r := hit) (v := q.sprs hit)
    (w := q.sprs hit ||| m.config.lruReload) (by
      rw [steering, steering, if_pos ⟨hlru, hhit⟩, if_pos ⟨hlru, hhit⟩,
        BitVec.and_or_distrib_right, MmuConfig.lruReload, BitVec.and_assoc]
      have hnone : MmuConfig.lruField &&& ~~~MmuConfig.lruField = 0#32 := by decide
      rw [hnone, BitVec.and_zero, BitVec.or_zero])
  have hsame : q.setSpr hit (q.sprs hit) = q := by
    rw [Sim.setSpr, Function.update_eq_self]
  rw [hsame] at hself
  exact haged.trans hself

theorem translate_right {fault : Bool → Word → Bool} {va : Addr} (hm : IsMmu cfg m)
    (hlru : m.off s = false → LruApart cfg)
    (h : (m.translate fault s va).2.exceptPending = false) :
    Alike cfg s (m.translate fault s va).2 := by
  unfold Mmu.translate at h ⊢
  split at h
  case isTrue hoff =>
    rw [if_pos hoff]
    exact refl cfg s
  case isFalse hon =>
    rw [if_neg hon]
    cases hfind : m.findTlbmr s.sprs va with
    | none =>
      rw [hfind] at h
      exact exceptHandle_right h
    | some hit =>
      rw [hfind] at h
      obtain ⟨way, hway, rfl⟩ := mr_of_findTlbmr hfind
      have htouch := touchLru_right (hlru (Bool.not_eq_true _ ▸ hon)) hm
        (matchReg_mr hm hway va) va s
      dsimp only at h ⊢
      split at h
      case isTrue hfault =>
        rw [if_pos hfault]
        exact htouch.trans (exceptHandle_right h)
      case isFalse hfault =>
        rw [if_neg hfault]
        exact htouch

theorem fetch_right (hlru : s.srBit srIME = true → LruApart cfg)
    (h : (fetch cfg s).2.exceptPending = false) : Alike cfg s.settled (fetch cfg s).2 := by
  have hon : cfg.insnMmu.off s.settled = false → LruApart cfg := by
    intro hoff
    refine hlru ?_
    by_contra hime
    rw [Bool.not_eq_true] at hime
    exact Bool.false_ne_true (hoff.symm.trans (Mmu.off_of_disabled hime))
  rw [fetch_eq, Cpu.evalInsn] at h ⊢
  dsimp only [immuTranslate] at h ⊢
  split at h
  case isTrue hpending => exact absurd h (by simp [hpending])
  case isFalse hpending =>
    rw [if_neg hpending]
    rw [Bool.not_eq_true] at hpending
    refine (translate_right (.inr rfl) hon hpending).trans ?_
    unfold Cpu.evalsimMem at h ⊢
    generalize (cfg.insnMmu.translate insnFault s.settled s.pc).2 = q at h ⊢
    cases hread : q.mem.evalsimMem (cfg.insnMmu.translate insnFault s.settled s.pc).1 .w4 with
    | some v => exact refl cfg q
    | none =>
      rw [hread] at h
      exact exceptHandle_right h

end Alike

end Fetch

/-! ### The exception and its handler -/

/-- A state between two instructions, the last of which was no branch in a delay slot. -/
structure Between (cfg : Config) (s : Sim) : Prop where
  /-- Without a delay slot to come, instructions follow each other. -/
  next : s.delayInsn = false → s.pcnext = s.pc + 4
  /-- A delay slot comes after the instruction in front of it. -/
  slot : s.delayInsn = true → ∃ b, cpuClock cfg b = .ok s ∧ b.delayInsn = false ∧
    b.pcnext = b.pc + 4

/-- The handler has left the general purpose registers, memory and the saved registers as it found
them, and whatever steers execution. -/
structure Handled (cfg : Config) (e q : Sim) : Prop where
  reg : q.reg = e.reg
  mem : q.mem = e.mem
  epcr : q.sprs sprEPCR = e.sprs sprEPCR
  esr : q.sprs sprESR = e.sprs sprESR
  sprs : ∀ r, steers r → r ≠ sprSR → steering cfg r (q.sprs r) = steering cfg r (e.sprs r)

/-- The next instruction is `l.rfe`. -/
structure AtRfe (cfg : Config) (u : Sim) : Prop where
  fetched : (fetch cfg u).2.exceptPending = false
  rfe : ∃ o, decodeInsn cfg.haveUnsignedXori (fetch cfg u).1 = some o ∧ o.function = .lRfe

/-- `l.rfe` has been executed. -/
def returned (q : Sim) : Sim :=
  updatePc ({ q with pcnext := q.sprs sprEPCR }.setSpr sprSR (setBit (q.sprs sprESR) srFO))

section Handler

variable {cfg : Config} {s u : Sim} {e : Exception} {ea : Addr}

theorem rfe_rows : ∀ x, ∀ o ∈ opcodes x, o.function = .lRfe → writeToReg o = false := by
  decide +kernel

/-- `l.rfe` moves the saved status to the supervision register. -/
theorem AtRfe.cpuClock_mtspr (h : AtRfe cfg u) :
    cpuClock cfg u =
      (mtspr cfg { (fetch cfg u).2 with pcnext := (fetch cfg u).2.sprs sprEPCR } sprSR
        ((fetch cfg u).2.sprs sprESR)).map updatePc := by
  obtain ⟨o, hdec, hfun⟩ := h.rfe
  have heffect : insnEffect cfg (fetch cfg u).2 o (fetch cfg u).1 = .rfe := by
    rw [insnEffect, hfun]
    rfl
  rw [cpuClock_of_effect h.fetched hdec heffect (rfe_rows _ o (mem_of_decodeInsn hdec) hfun)]
  rfl

theorem AtRfe.cpuClock_eq (h : AtRfe cfg u)
    (hmasked : (fetch cfg u).2.sprs sprPICMR &&& (fetch cfg u).2.sprs sprPICSR = 0) :
    cpuClock cfg u = .ok (returned (fetch cfg u).2) := by
  rw [h.cpuClock_mtspr]
  generalize fetch cfg u = r at hmasked ⊢
  rw [mtspr_sr_of_masked cfg (s := { r.2 with pcnext := r.2.sprs sprEPCR }) _ hmasked]
  rfl

theorem debugIgnoreException_sprs (s : Sim) (e : Exception) {r : Regno} (hr : r ≠ sprDRR) :
    (debugIgnoreException s e).sprs r = s.sprs r := by
  unfold debugIgnoreException Sim.setStallState
  dsimp only
  split <;> exact Sim.setSpr_sprs_of_ne hr

theorem exceptHandle_async (he : e = .tick ∨ e = .int) (hentered : intercepted s e = false)
    (ea : Addr) :
    (exceptHandle s e ea).mem = s.mem ∧
      (exceptHandle s e ea).sprs sprEPCR = s.pc - (if s.delayInsn then 4 else 0) ∧
      (exceptHandle s e ea).sprs sprESR = s.sr ∧
      ∀ r, steers r → r ≠ sprSR → (exceptHandle s e ea).sprs r = s.sprs r := by
  have hquiet := Quiet.debugIgnoreException s e
  have halike : Alike defaultConfig s (debugIgnoreException s e) :=
    .debugIgnoreException_right s e
  have heq : exceptHandle s e ea = enterException (debugIgnoreException s e) e ea := by
    unfold exceptHandle
    dsimp only
    rw [hentered, if_neg Bool.false_ne_true]
  have hne : ∀ r, steers r → r ≠ sprESR ∧ r ≠ sprEPCR ∧ r ≠ sprEEAR ∧ r ≠ sprDRR := by
    rintro r hr
    refine ⟨?_, ?_, ?_, ?_⟩ <;> rintro rfl <;> exact absurd hr (by decide)
  rw [heq]
  refine ⟨?_, ?_, ?_, fun r hr hsr => ?_⟩
  · rw [← halike.mem]
    unfold enterException
    cases e <;> rfl
  · refine enterException_epcr _ e ea ?_
    rw [← hquiet.pc, ← hquiet.delayInsn]
    rcases he with rfl | rfl <;> rfl
  · rw [enterException_esr, hquiet.sr]
  · obtain ⟨hesr, hepcr, heear, hdrr⟩ := hne r hr
    rw [enterException_sprs _ e ea hsr hesr hepcr heear, debugIgnoreException_sprs s e hdrr]

theorem setBit_eq_self {x : Word} {k : ℕ} (h : x.getLsbD k = true) : setBit x k = x := by
  apply BitVec.eq_of_getLsbD_eq
  intro i hi
  rw [getLsbD_setBit]
  by_cases hik : i = k
  · rw [hik, h, Bool.true_or]
  · simp [hik]

/-- Where `l.rfe` leads. -/
structure Back (cfg : Config) (s r : Sim) : Prop where
  sr : r.sr = s.sr
  sprs : ∀ r', steers r' → steering cfg r' (r.sprs r') = steering cfg r' (s.sprs r')
  reg : r.reg = s.reg
  mem : r.mem = s.mem
  pc : r.pc = s.pc - (if s.delayInsn then 4 else 0)
  pcnext : r.pcnext = r.pc + 4
  delayInsn : r.delayInsn = false

theorem returned_back (he : e = .tick ∨ e = .int) (hfo : s.srBit srFO = true)
    (hentered : intercepted s e = false)
    (hh : Handled cfg (exceptHandle s e ea) (fetch cfg u).2) :
    Back cfg s (returned (fetch cfg u).2) := by
  obtain ⟨hmem, hepcr, hesr, hsprs⟩ := exceptHandle_async he hentered ea
  have hnext : (fetch cfg u).2.nextDelayInsn = false := (fetch_outcome cfg u).nextDelayInsn
  generalize (fetch cfg u).2 = q at hh hnext ⊢
  have hback : q.sprs sprEPCR = s.pc - (if s.delayInsn then 4 else 0) := hh.epcr.trans hepcr
  have hsr : (returned q).sr = s.sr := by
    change (returned q).sprs sprSR = s.sr
    rw [returned, updatePc_sprs _ (by decide), Sim.setSpr_sprs_self, hh.esr, hesr,
      setBit_eq_self hfo]
  refine ⟨hsr, fun r' hr' => ?_, ?_, ?_, hback, ?_, hnext⟩
  · by_cases hr'sr : r' = sprSR
    · rw [hr'sr]
      exact congrArg _ hsr
    · have hppc : r' ≠ sprPPC := by
        rintro rfl
        exact absurd hr' (by decide)
      rw [returned, updatePc_sprs _ hppc, Sim.setSpr_sprs_of_ne hr'sr]
      exact (hh.sprs r' hr' hr'sr).trans (congrArg _ (hsprs r' hr' hr'sr))
  · exact hh.reg.trans (exceptHandle_reg s e ea)
  · exact hh.mem.trans hmem
  · change (if q.nextDelayInsn then q.pcDelay else q.sprs sprEPCR + 4) = q.sprs sprEPCR + 4
    rw [hnext, if_neg Bool.false_ne_true]

theorem Back.same {r : Sim} (h : Back cfg s r) (hs : Between cfg s) (hd : s.delayInsn = false) :
    Same cfg s.settled r.settled := by
  have hpc : r.pc = s.pc := by
    rw [h.pc, hd, if_neg Bool.false_ne_true]
    exact BitVec.sub_zero _
  have hpcnext : r.pcnext = s.pcnext := by rw [h.pcnext, hpc, hs.next hd]
  exact ⟨⟨h.sprs, hpc, hpcnext, nofun, h.delayInsn.trans hd.symm, rfl, rfl, h.mem⟩, h.reg⟩

theorem Back.alike {b r : Sim} (h : Back cfg s r) (hclock : cpuClock cfg b = .ok s)
    (hd : s.delayInsn = true) (hslot : b.delayInsn = false) (hnext : b.pcnext = b.pc + 4)
    (hlru : s.srBit srIME = true → LruApart cfg) :
    Alike cfg b.settled r.settled ∧ r.pc = s.pc - 4 := by
  obtain ⟨o, target, link, hjumps, rfl⟩ := cpuClock_jump hclock hd
  have hsprs : ∀ r', r' ≠ sprPPC →
      (updatePc (jumped target link (fetch cfg b).2)).sprs r' = (fetch cfg b).2.sprs r' := by
    intro r' hr'
    rw [updatePc_sprs _ hr']
    cases link <;> rfl
  have hsr : (updatePc (jumped target link (fetch cfg b).2)).sr = b.sr := by
    have hfetch : (fetch cfg b).2.sr = b.sr := by
      cases fetch_outcome cfg b with
      | quiet hq => exact hq.sr
      | entered q e ea _ _ ht =>
        have hpending := hjumps.fetched
        rw [ht, enterException_exceptPending] at hpending
        exact Bool.noConfusion hpending
    exact (hsprs sprSR (by decide)).trans hfetch
  have hfetch : Alike cfg b.settled (fetch cfg b).2 :=
    .fetch_right (fun hime => hlru (by rw [Sim.srBit, hsr]; exact hime)) hjumps.fetched
  have hpc : (updatePc (jumped target link (fetch cfg b).2)).pc = b.pc + 4 := by
    have hjump : (jumped target link (fetch cfg b).2).pcnext = (fetch cfg b).2.pcnext := by
      cases link <;> rfl
    exact (hjump.trans hfetch.pcnext).trans hnext
  have hmem : (updatePc (jumped target link (fetch cfg b).2)).mem = b.mem := by
    have hjump : (jumped target link (fetch cfg b).2).mem = (fetch cfg b).2.mem := by
      cases link <;> rfl
    exact hjump.trans hfetch.mem
  have hback := h.pc
  rw [hd, if_pos rfl] at hback
  have hrpc : r.pc = b.pc := by rw [hback, hpc, BitVec.add_sub_cancel]
  refine ⟨⟨fun r' hr' => ?_, hrpc, ?_, fun hdelay => ?_, ?_, rfl, rfl, h.mem.trans hmem⟩, hback⟩
  · have hppc : r' ≠ sprPPC := by
      rintro rfl
      exact absurd hr' (by decide)
    have hs := h.sprs r' hr'
    rw [hsprs r' hppc] at hs
    exact hs.trans (hfetch.sprs r' hr')
  · exact h.pcnext.trans (by rw [hrpc]; exact hnext.symm)
  · cases hdelay
  · exact h.delayInsn.trans hslot.symm

/-- **An asynchronous exception is transparent.**  After the tick or the interrupt and its handler
the processor is back where it was, with the supervision register as it was, if need be after it has
executed the branch in front of a delay slot again; and from there on every sequence of instructions
that reads nothing else by number leaves the same registers, flags and memory. -/
theorem async_exception_resumes (cfg : Config) {s u : Sim} {e : Exception} {ea : Addr}
    (he : e = .tick ∨ e = .int) (hs : Between cfg s) (hfo : s.srBit srFO = true)
    (hentered : intercepted s e = false) (hu : AtRfe cfg u)
    (hh : Handled cfg (exceptHandle s e ea) (fetch cfg u).2)
    (hmasked : (fetch cfg u).2.sprs sprPICMR &&& (fetch cfg u).2.sprs sprPICSR = 0)
    (hlru : s.delayInsn = true → s.srBit srIME = true → LruApart cfg) :
    ∃ r t, cpuClock cfg u = .ok r ∧ r.sr = s.sr ∧
      (s.delayInsn = false → t = r) ∧
      (s.delayInsn = true → r.pc = s.pc - 4 ∧ cpuClock cfg r = .ok t) ∧
      (t.pc = s.pc ∧ t.pcnext = s.pcnext ∧ t.delayInsn = s.delayInsn) ∧
      (t.reg = s.reg ∧ t.mem = s.mem ∧ t.sr = s.sr) ∧
      ∀ n s' t', clocks cfg n s = .ok s' → clocks cfg n t = .ok t' →
        (∀ k < n, ∀ v w, clocks cfg k s = .ok v → clocks cfg k t = .ok w → UnreadAt cfg v w) →
          t'.reg = s'.reg ∧ t'.mem = s'.mem ∧ t'.sr = s'.sr := by
  have hback := returned_back he hfo hentered hh
  have hrfe := hu.cpuClock_eq hmasked
  generalize returned (fetch cfg u).2 = r at hback hrfe
  have hrest : ∀ {t : Sim}, Same cfg s.settled t.settled →
      (t.pc = s.pc ∧ t.pcnext = s.pcnext ∧ t.delayInsn = s.delayInsn) ∧
        (t.reg = s.reg ∧ t.mem = s.mem ∧ t.sr = s.sr) ∧
        ∀ n s' t', clocks cfg n s = .ok s' → clocks cfg n t = .ok t' →
          (∀ k < n, ∀ v w, clocks cfg k s = .ok v → clocks cfg k t = .ok w → UnreadAt cfg v w) →
            t'.reg = s'.reg ∧ t'.mem = s'.mem ∧ t'.sr = s'.sr := by
    intro t ht
    refine ⟨⟨ht.alike.pc, ht.alike.pcnext, ht.alike.delayInsn⟩, ⟨ht.reg, ht.alike.mem, ht.alike.sr⟩,
      fun n s' t' hs' ht' hread => ?_⟩
    have hend := clocks_alike ht hread hs' ht'
    exact ⟨hend.reg, hend.alike.mem, hend.alike.sr⟩
  cases hd : s.delayInsn with
  | false =>
    have hsame := hback.same hs hd
    obtain ⟨hpcs, hstate, hruns⟩ := hrest hsame
    rw [hd] at hpcs
    exact ⟨r, r, hrfe, hback.sr, fun _ => rfl, nofun, hpcs, hstate, hruns⟩
  | true =>
    obtain ⟨b, hclock, hslot, hnext⟩ := hs.slot hd
    obtain ⟨halike, hpc⟩ := hback.alike hclock hd hslot hnext (hlru hd)
    obtain ⟨t, ht, hsame⟩ := executeAgain hclock hd halike hback.reg
    obtain ⟨hpcs, hstate, hruns⟩ := hrest hsame
    rw [hd] at hpcs
    exact ⟨r, t, hrfe, hback.sr, nofun, fun _ => ⟨hpc, ht⟩, hpcs, hstate, hruns⟩

end Handler

/-! ### Runs -/

/-- `l.jal 2` with a delay slot, an `l.mfspr r3,r0,18` behind it, and a tick handler that returns at
once. -/
def tickHandler : Memory :=
  (((Memory.flat fun _ => 0).setProgram32 0x100 0x04000002).setProgram32 0x108
    0xb4600012).setProgram32 0x500 0x24000000

/-- The processor in front of an instruction. -/
def atInsn (pc : Addr) : Sim := { powerOn 0x601 0x8003 tickHandler with pc := pc, pcnext := pc + 4 }

/-- It has executed the jump. -/
def inSlot : Sim := updatePc (jumped 0x108 true (atInsn 0x100).settled)

theorem fetch_settled {cfg : Config} {s : Sim} {insn : Word} (hime : s.srBit srIME = false)
    (hmem : s.mem.evalsimMem s.pc .w4 = some insn) : fetch cfg s = (insn, s.settled) :=
  fetch_of_untranslated hime hmem

theorem fetch_atInsn : fetch defaultConfig (atInsn 0x100) = (0x04000002, (atInsn 0x100).settled) :=
  fetch_settled (by decide) (by decide)

theorem atInsn_jumps : Jumps defaultConfig (atInsn 0x100) jalRow 0x108 true := by
  refine ⟨by rw [fetch_atInsn]; rfl, ?_, ?_⟩
  · rw [fetch_atInsn]
    exact decodeInsn_eq_some_iff.2 ⟨List.mem_of_getElem? (i := 1) rfl, by decide⟩
  · rw [fetch_atInsn]
    rfl

theorem between_inSlot : Between defaultConfig inSlot := by
  refine ⟨fun h => absurd h (by decide), fun _ => ⟨atInsn 0x100, ?_, rfl, rfl⟩⟩
  rw [atInsn_jumps.cpuClock_eq, fetch_atInsn]
  rfl

theorem atRfe_tick {s : Sim} (hime : s.srBit srIME = false)
    (hmem : s.mem.evalsimMem s.pc .w4 = some 0x24000000) :
    AtRfe defaultConfig s ∧ Handled defaultConfig s (fetch defaultConfig s).2 := by
  have hfetch : fetch defaultConfig s = (0x24000000, s.settled) := fetch_settled hime hmem
  refine ⟨⟨by rw [hfetch]; rfl, rfeRow, ?_, rfl⟩, ?_⟩
  · rw [hfetch]
    exact decodeInsn_rfe _
  · rw [hfetch]
    exact ⟨rfl, rfl, rfl, rfl, fun _ _ _ => rfl⟩

/-- A tick in front of a delay slot: the jump is executed again. -/
theorem async_exception_resumes_slot :
    ∃ r t, cpuClock defaultConfig (exceptHandle inSlot .tick 0) = .ok r ∧ r.pc = 0x100 ∧
      cpuClock defaultConfig r = .ok t ∧ t.pc = 0x104 ∧ t.pcnext = 0x108 ∧ t.reg 9 = 0x108 := by
  obtain ⟨hrfe, hhandled⟩ := atRfe_tick (s := exceptHandle inSlot .tick 0) (by decide)
    (by decide)
  have hfetch : fetch defaultConfig (exceptHandle inSlot .tick 0) =
      (0x24000000, (exceptHandle inSlot .tick 0).settled) :=
    fetch_settled (by decide) (by decide)
  obtain ⟨r, t, hr, -, -, hslot, ⟨hpc, hpcnext, -⟩, ⟨hreg, -, -⟩, -⟩ :=
    async_exception_resumes defaultConfig (.inl rfl) between_inSlot (by decide)
      (by decide) hrfe hhandled (by rw [hfetch]; decide)
      (fun _ => by decide)
  obtain ⟨hback, ht⟩ := hslot (by decide)
  exact ⟨r, t, hr, hback.trans (by decide), ht, hpc.trans (by decide),
    hpcnext.trans (by decide), (congrFun hreg 9).trans (by decide)⟩

/-- The row of `l.mfspr`. -/
def mfsprRow : Opcode :=
  ⟨"l.mfspr", "rD,rA,K", "10 0xD  DDDDD AAAAA KKKK KKKK KKKK KKKK", .lMfspr⟩

theorem cpuClock_mfsprPpc {s : Sim} {v : Word} (hime : s.srBit srIME = false)
    (hmem : s.mem.evalsimMem s.pc .w4 = some 0xb4600012)
    (h : (executeOpcode defaultConfig s.settled mfsprRow 0xb4600012).toOption.map (·.reg 3) =
      some v) :
    ∃ t, cpuClock defaultConfig s = .ok t ∧ t.reg 3 = v := by
  have hdec : decodeInsn defaultConfig.haveUnsignedXori 0xb4600012 = some mfsprRow :=
    decodeInsn_eq_some_iff.2 ⟨List.mem_of_getElem? (i := 124) rfl, by decide⟩
  have hclock : cpuClock defaultConfig s =
      (executeOpcode defaultConfig s.settled mfsprRow 0xb4600012).map updatePc :=
    cpuClock_of_untranslated hime hmem hdec
  rw [hclock]
  cases hexec : executeOpcode defaultConfig s.settled mfsprRow 0xb4600012 with
  | error e =>
    rw [hexec] at h
    exact absurd h nofun
  | ok t =>
    rw [hexec] at h
    exact ⟨updatePc t, rfl, Option.some.inj h⟩

/-- The address of the previous instruction tells: it is that of `l.rfe`. -/
theorem ppc_tells :
    ∃ r s' t, Between defaultConfig (atInsn 0x108) ∧ (atInsn 0x108).srBit srFO = true ∧
      intercepted (atInsn 0x108) .tick = false ∧
      AtRfe defaultConfig (exceptHandle (atInsn 0x108) .tick 0) ∧
      cpuClock defaultConfig (exceptHandle (atInsn 0x108) .tick 0) = .ok r ∧
      cpuClock defaultConfig (atInsn 0x108) = .ok s' ∧ cpuClock defaultConfig r = .ok t ∧
      s'.reg 3 = 0 ∧ t.reg 3 = 0x500 := by
  obtain ⟨hrfe, -⟩ := atRfe_tick (s := exceptHandle (atInsn 0x108) .tick 0) (by decide)
    (by decide)
  have hfetch : fetch defaultConfig (exceptHandle (atInsn 0x108) .tick 0) =
      (0x24000000, (exceptHandle (atInsn 0x108) .tick 0).settled) :=
    fetch_settled (by decide) (by decide)
  have hclock := hrfe.cpuClock_eq (by rw [hfetch]; decide)
  rw [hfetch] at hclock
  obtain ⟨s', hs', hppc⟩ := cpuClock_mfsprPpc (s := atInsn 0x108) (v := 0) (by decide)
    (by decide) (by decide)
  obtain ⟨t, ht, hppc'⟩ := cpuClock_mfsprPpc
    (s := returned (exceptHandle (atInsn 0x108) .tick 0).settled) (v := 0x500) (by decide)
    (by decide) (by decide)
  exact ⟨_, s', t, ⟨fun _ => rfl, nofun⟩, by decide, by decide, hrfe, hclock, hs',
    ht, hppc, hppc'⟩

end Cpu
end Or1ksim
