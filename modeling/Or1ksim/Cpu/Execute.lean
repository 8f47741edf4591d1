import Or1ksim.Cpu.Insnset
import Or1ksim.Insn.Generate

/-!
# Executing instructions

`cpu/or32/execute.c`: fetching, decoding and executing one instruction (`cpuClock`), resetting the
processor (`cpuReset`) and the main loop with its jobs (`doScheduler`, `execMain`).
-/

namespace Or1ksim
namespace Cpu

open Bits Insn

/-! ### Operands -/

/-- An operand as the generated code has it. -/
inductive Param where
  /-- A register operand. -/
  | reg (n : Word)
  /-- A value: an immediate, or a displacement added to its base register. -/
  | value (v : Word)
deriving DecidableEq, Repr

/-- The operands of an operand program: their kind and their value. -/
def operands (insn : Word) (opds : List InsnOp) : List (OpType × Word) :=
  (operandStarts true opds).map fun g =>
    ((g.head?.map InsnOp.type).getD {}, (evalOperandVal insn g).getD 0)

/-- `gen_eval_operands`: a displacement and the register after it are one operand. -/
def evalParams (reg : BitVec 5 → Word) : List (OpType × Word) → List Param
  | (t, v) :: (u, r) :: rest =>
    if t.dis then .value (v + reg (r.setWidth 5)) :: evalParams reg rest
    else (if t.reg then .reg v else .value v) :: evalParams reg ((u, r) :: rest)
  | [(t, v)] => [if t.reg then .reg v else .value v]
  | [] => []

/-- The operand before it is read as a register. -/
def Param.raw : Param → Word
  | .reg n => n
  | .value v => v

/-- The operand as an instruction reads it. -/
def Param.read (reg : BitVec 5 → Word) : Param → Word
  | .reg n => reg (n.setWidth 5)
  | .value v => v

/-- The operand program of a row (`or1ksim_op_start`). -/
def opStart (o : Opcode) : List InsnOp := (parseParams 32 o).getD []

/-- `write_to_reg`: the instruction has a destination register. -/
def writeToReg (o : Opcode) : Bool := (opStart o).any fun d => d.type.dst

/-- What an instruction with these operands reads. -/
def view (s : Sim) (params : List Param) : View where
  param0 := (params.getD 0 (.value 0)).read s.reg
  param1 := (params.getD 1 (.value 0)).read s.reg
  param2 := (params.getD 2 (.value 0)).read s.reg
  regParam0 := (params.getD 0 (.value 0)).raw
  sr := s.sr
  pc := s.pc
  maclo := s.sprs sprMACLO
  machi := s.sprs sprMACHI
  fpcsr := s.sprs sprFPCSR

/-! ### Effects -/

/-- `l.nop k`, apart from printing. -/
def nopService (cfg : Config) (s : Sim) (k : Word) : Except Stop Sim :=
  if k = 1 then
    -- `NOP_EXIT` stalls a library and ends a program.
    if cfg.isLibrary then .ok ({ s with halted := true }.setStallState true) else .error .done
  else if k = 6 then
    .ok ((s.setReg 11 (s.cycles.setWidth 32)).setReg 12 ((s.cycles >>> 32).setWidth 32))
  else if k = 7 then .ok (s.setReg 11 cfg.clkcyclePs)
  else if k = 10 then .ok ({ s with randoms := s.randoms + 1 }.setReg 11 (cfg.random s.randoms))
  else if k = 11 then .ok (s.setReg 11 1)
  else .ok s

/-- `SET_PARAM0`, if there is a result. -/
def setParam0 (s : Sim) (d : BitVec 5) : Option Word → Sim
  | some v => s.setReg d v
  | none => s

/-- What an effect does; `d` is the register of the first operand. -/
def Effect.apply (cfg : Config) (d : BitVec 5) (s : Sim) : Effect → Except Stop Sim
  | .skip => .ok s
  | .set v => .ok (s.setReg d v)
  | .arith v sr range =>
    let s := (setParam0 s d v).setSpr sprSR sr
    .ok (if range then exceptHandle s .range s.pc else s)
  | .flag f => .ok (s.setSpr sprSR (assignBit s.sr srF f))
  | .load n extend a =>
    let (v, s) := evalMem cfg s a n
    -- "If eval operand produced exception don't set anything."
    .ok (if s.exceptPending then s else s.setReg d (extend v))
  | .store n a v => .ok (setMem cfg s a v n)
  | .jump target link =>
    let s := { s with pcDelay := target, nextDelayInsn := true }
    .ok (if link then s.setReg linkRegno (s.pc + 8) else s)
  | .raise e => .ok (exceptHandle s e s.pc)
  | .raiseEear e => .ok (exceptHandle s e (s.sprs sprEEAR))
  | .mac v hi lo => .ok (((setParam0 s d v).setSpr sprMACLO lo).setSpr sprMACHI hi)
  | .mtspr regno value => Cpu.mtspr cfg s regno value
  | .mfspr regno => .ok (s.setReg d (Cpu.mfspr cfg s regno))
  | .rfe => Cpu.mtspr cfg { s with pcnext := s.sprs sprEPCR } sprSR (s.sprs sprESR)
  | .nop k => nopService cfg s k
  | .float v flags => .ok ((s.setReg d v).setSpr sprFPCSR (floatSetFlags (s.sprs sprFPCSR) flags))
  | .floatFlag f flags =>
    let s := s.setSpr sprSR (assignBit s.sr srF f)
    .ok (s.setSpr sprFPCSR (floatSetFlags (s.sprs sprFPCSR) flags))
  | .done => .error .done

/-! ### One instruction -/

/-- The operands of an instruction. -/
def params (s : Sim) (o : Opcode) (insn : Word) : List Param :=
  evalParams s.reg (operands insn (opStart o))

/-- What an instruction does. -/
def insnEffect (cfg : Config) (s : Sim) (o : Opcode) (insn : Word) : Effect :=
  effect cfg o.function (view s (params s o insn))

/-- The register of the first operand. -/
def destination (s : Sim) (o : Opcode) (insn : Word) : BitVec 5 :=
  ((params s o insn).getD 0 (.value 0)).raw.setWidth 5

/-- Execute a row of the table. -/
def executeOpcode (cfg : Config) (s : Sim) (o : Opcode) (insn : Word) : Except Stop Sim :=
  (insnEffect cfg s o insn).apply cfg (destination s o insn) s |>.map fun s =>
    -- "Repair in case we changed it"
    if writeToReg o then s.setReg 0 0 else s

/-- What the emitted code does in one of its places. -/
def decoderAction (cfg : Config) (insn : Word) (s : Sim) : Action → Except Stop Sim
  | .body i =>
    match (opcodes cfg.haveUnsignedXori)[i]? with
    | some o => (insnEffect cfg s o insn).apply cfg (destination s o insn) s
    | none => .error .undefined
  | .lInvalid | .illegal => .ok (exceptHandle s .illegal s.pc)
  | .repair => .ok (s.setReg 0 0)

/-- `write_to_reg` of a row, by its number. -/
def writesReg (haveUnsignedXori : Bool) (i : ℕ) : Bool :=
  ((opcodes haveUnsignedXori)[i]?).any writeToReg

/-- `decode_execute`, as it is generated. -/
def decodeExecute (cfg : Config) (s : Sim) (insn : Word) : Except Stop Sim :=
  (decoderActions cfg.haveUnsignedXori (writesReg cfg.haveUnsignedXori) insn).foldlM
    (decoderAction cfg insn) s

/-- The emitted code raises an illegal instruction exception for the word. -/
def raisesIllegal (cfg : Config) (insn : Word) : Bool :=
  (decoderActions cfg.haveUnsignedXori (writesReg cfg.haveUnsignedXori) insn).contains .illegal

/-- `update_pc`. -/
def updatePc (s : Sim) : Sim :=
  let s := { s with delayInsn := s.nextDelayInsn }
  let s := s.setSpr sprPPC s.pc
  let s := { s with pc := s.pcnext }
  { s with pcnext := if s.delayInsn then s.pcDelay else s.pcnext + 4 }

/-- The start of `cpu_clock`: fetch the instruction. -/
def fetch (cfg : Config) (s : Sim) : Word × Sim :=
  evalInsn cfg { s with exceptPending := false, nextDelayInsn := false } s.pc

/-- `cpu_clock`: one instruction. -/
def cpuClock (cfg : Config) (s : Sim) : Except Stop Sim :=
  let (insn, s) := fetch cfg s
  if s.exceptPending then .ok { updatePc s with exceptPending := false }
  else (decodeExecute cfg s insn).map updatePc

/-! ### The emitted decoder -/

theorem foldlM_repairActions (cfg : Config) (insn : Word) (s : Sim) (i : ℕ) :
    (repairActions (writesReg cfg.haveUnsignedXori) i).foldlM (decoderAction cfg insn) s =
      .ok (if writesReg cfg.haveUnsignedXori i then s.setReg 0 0 else s) := by
  unfold repairActions
  split <;> rfl

/-- A word that matches a row executes it. -/
theorem decodeExecute_of_some {cfg : Config} {s : Sim} {insn : Word} {o : Opcode}
    (h : decodeInsn cfg.haveUnsignedXori insn = some o) :
    decodeExecute cfg s insn = executeOpcode cfg s o insn := by
  obtain ⟨i, hi, hacts⟩ := decoderActions_of_some (writesReg cfg.haveUnsignedXori) h
  have hwrites : writesReg cfg.haveUnsignedXori i = writeToReg o := by
    rw [writesReg, hi]
    rfl
  rw [decodeExecute, hacts, List.foldlM_cons, executeOpcode]
  simp only [decoderAction, hi, foldlM_repairActions, hwrites]
  cases (insnEffect cfg s o insn).apply cfg (destination s o insn) s <;> rfl

theorem cpuClock_of_fetched {cfg : Config} {s : Sim} {o : Opcode}
    (hfetched : (fetch cfg s).2.exceptPending = false)
    (hdec : decodeInsn cfg.haveUnsignedXori (fetch cfg s).1 = some o) :
    cpuClock cfg s = (executeOpcode cfg (fetch cfg s).2 o (fetch cfg s).1).map updatePc := by
  unfold cpuClock
  dsimp only
  rw [hfetched, if_neg Bool.false_ne_true, decodeExecute_of_some hdec]

/-- Executing an instruction without a destination is its effect. -/
theorem cpuClock_of_effect {cfg : Config} {s : Sim} {o : Opcode} {e : Effect}
    (hfetched : (fetch cfg s).2.exceptPending = false)
    (hdec : decodeInsn cfg.haveUnsignedXori (fetch cfg s).1 = some o)
    (heffect : insnEffect cfg (fetch cfg s).2 o (fetch cfg s).1 = e)
    (hwrites : writeToReg o = false) :
    cpuClock cfg s =
      (e.apply cfg (destination (fetch cfg s).2 o (fetch cfg s).1) (fetch cfg s).2).map
        updatePc := by
  rw [cpuClock_of_fetched hfetched hdec, executeOpcode, heffect, hwrites]
  cases e.apply cfg (destination (fetch cfg s).2 o (fetch cfg s).1) (fetch cfg s).2 <;> rfl

/-- Any other word raises an exception or does nothing but clear register zero. -/
theorem decodeExecute_of_none {cfg : Config} {insn : Word} (s : Sim)
    (h : decodeInsn cfg.haveUnsignedXori insn = none) :
    raisesIllegal cfg insn = true ∧
        decodeExecute cfg s insn = .ok (exceptHandle s .illegal s.pc) ∨
      decodeExecute cfg s insn = .ok s ∨ decodeExecute cfg s insn = .ok (s.setReg 0 0) := by
  rcases decoderActions_of_none (writesReg cfg.haveUnsignedXori) h with hacts | ⟨i, hacts⟩
  · rw [decodeExecute, raisesIllegal, hacts]
    exact .inl ⟨rfl, rfl⟩
  · rw [decodeExecute, hacts, foldlM_repairActions]
    split
    · exact .inr (.inr rfl)
    · exact .inr (.inl rfl)

/-! ### Reset -/

/-- `tick_reset`. -/
def tickReset (s : Sim) : Sim := { (s.setSpr sprTTCR 0).setSpr sprTTMR 0 with tickCounting := 0 }

/-- `pm_reset`. -/
def pmReset (s : Sim) : Sim := s.setSpr sprPMR 0

/-- `pic_reset`. -/
def picReset (cfg : Config) (s : Sim) : Sim :=
  (s.setSpr sprPICMR (if cfg.useNmi then 3 else 0)).setSpr sprPICSR 0

/-- `du_reset`. -/
def duReset (s : Sim) : Sim := s.setStallState false

/-- `cpu_reset`. -/
def cpuReset (s : Sim) : Sim :=
  let base : Addr := if s.srBit srEPH then 0xf0000000 else 0
  let s := { s with
    cycles := 0
    reg := fun _ => 0
    pc := base
    pcnext := base + 4 }
  let s := updatePc (exceptHandle s .reset 0)
  { s with
    exceptPending := false
    pc := Exception.reset.offset + if s.srBit srEPH then 0xf0000000 else 0 }

/-- `sim_reset`, apart from the peripherals. -/
def simReset (cfg : Config) (s : Sim) : Except Stop Sim :=
  (s.withSched (Sched.schedReset .schedGuard () s.sched)).map fun s =>
    cpuReset (duReset (picReset cfg (pmReset (tickReset s))))

/-! ### The main loop -/

/-- What a peripheral asks of the interrupt controller. -/
def LineOp.exec (cfg : Config) (s : Sim) : LineOp → Except Stop Sim
  | .report line => reportInterrupt cfg s line
  | .clear line => .ok (clearInterrupt s line)

/-- Run a job. -/
def Job.exec (cfg : Config) (s : Sim) : Job → Except Stop Sim
  | .schedGuard => s.withSched (Sched.schedGuard .schedGuard s.sched ())
  | .picRepInt => .ok (Cpu.picRepInt s)
  | .tickRaiseExcept => Cpu.tickRaiseExcept s
  | .tickRestart => Cpu.tickRestart s
  | .tickOneShot => .ok (Cpu.tickOneShot s)
  | .device ops => ops.foldlM (LineOp.exec cfg) s

/-- One round of the `do_scheduler` loop: take the head off the queue and run it. -/
def runJob (cfg : Config) (s : Sim) : Except Stop Sim :=
  match Sched.popJob s.sched with
  | some (tmp, q) => tmp.func.exec cfg { s with sched := q }
  | none => .error .undefined

/-- The end of an iteration of `exec_main`: charge the cycles of the instruction. -/
def charge (s : Sim) (cycles : ℕ) : Except Stop Sim :=
  { s with cycles := s.cycles + BitVec.ofNat 64 cycles }.withSched (Sched.charge s.sched cycles)

end Cpu
end Or1ksim
