import Or1ksim.Cpu.Zero
import Or1ksim.Rsp.Matchpoint

/-!
# RSP register writes

The `P` and `G` requests of the GDB remote serial protocol server (`debug/rsp-server.c`), which
write the registers of the processor.

* `hex`, `hex2reg` — the digits of a register;
* `rspWriteReg`, `rspWriteAllRegs` — the two requests;
* `gpr0_zero_iff` — **register zero stays zero exactly as long as** nobody writes something else to
  it: no `l.mtspr` through the window, no `P` packet but of eight zeros, and no `G` packet at all.
-/

namespace Or1ksim
namespace Rsp

open Scan Cpu

/-! ### Numbers -/

/-- `hex`: the value of a digit, and `-1` for any other character. -/
def hex (c : Char) : Word :=
  match hexDigit c with
  | some d => BitVec.ofNat 32 d
  | none => BitVec.allOnes 32

/-- `hex2reg`: the register in the first eight characters.  Each digit is shifted as an `int`, and
joins an `unsigned long` with its sign extended. -/
def hex2reg (buf : List Char) : BitVec 64 :=
  (List.range 8).foldl
    (fun val n => val ||| (hex (buf.getD n '\x00') <<< (28 - 4 * n)).signExtend 64) 0

/-- The `%x` conversion into an `unsigned int`. -/
def scanX (cs : List Char) : Option (Word × List Char) :=
  (scanLx 64 cs).map fun r => (r.1.setWidth 32, r.2)

/-- The `%8s` conversion: up to eight characters after white space. -/
def scanS8 (cs : List Char) : Option (List Char) :=
  let word := ((cs.dropWhile isSpace).takeWhile fun c => !isSpace c).take 8
  if word = [] then none else some word

/-! ### Requests -/

/-- The text of a buffer: what comes before its first null character. -/
def cString (data : Packet) : Packet := data.takeWhile (· ≠ '\x00')

/-- `sscanf (buf->data, "P%x=%8s", ..)` with both conversions assigned. -/
def scanWriteReg (data : Packet) : Option (Word × List Char) := do
  let cs ← scanLit 'P' (cString data)
  let (regnum, cs) ← scanX cs
  let cs ← scanLit '=' cs
  let word ← scanS8 cs
  return (regnum, word)

/-- `PPC_REGNUM`. -/
def ppcRegnum : Word := 32
/-- `NPC_REGNUM`. -/
def npcRegnum : Word := 33
/-- `SR_REGNUM`. -/
def srRegnum : Word := 34

/-- `set_npc`, which compares the program counter with an `unsigned long`. -/
def setNpc (s : Sim) (addr : BitVec 64) : Sim :=
  if s.pc.setWidth 64 ≠ addr then
    { s with pc := addr.setWidth 32, delayInsn := false, pcnext := (addr + 4).setWidth 32 }
  else s

/-- `valstr` after a word has been scanned into it; `stale` is what the array had before. -/
def valstr (word stale : List Char) : List Char :=
  word ++ '\x00' :: stale.drop (word.length + 1)

/-- `rsp_write_reg`, with its reply. -/
def rspWriteReg (s : Sim) (data : Packet) (stale : List Char) : Sim × String :=
  match scanWriteReg data with
  | none => (s, "E01")
  | some (regnum, word) =>
    let val := hex2reg (valstr word stale)
    if regnum < 32 then (s.setReg (regnum.setWidth 5) (val.setWidth 32), "OK")
    else if regnum = ppcRegnum then (s.setSpr sprPPC (val.setWidth 32), "OK")
    else if regnum = npcRegnum then (setNpc s val, "OK")
    else if regnum = srRegnum then (s.setSpr sprSR (val.setWidth 32), "OK")
    else (s, "E01")

/-- The register at a position of a `G` packet; the packet is read from its first character on. -/
def regAt (data : Packet) (r : ℕ) : BitVec 64 := hex2reg (data.drop (r * 8))

/-- `rsp_write_all_regs`, with its reply. -/
def rspWriteAllRegs (s : Sim) (data : Packet) : Sim × String :=
  let s := { s with reg := fun r => (regAt data r.toNat).setWidth 32 }
  let s := s.setSpr sprPPC ((regAt data ppcRegnum.toNat).setWidth 32)
  let s := s.setSpr sprSR ((regAt data srRegnum.toNat).setWidth 32)
  (setNpc s (regAt data npcRegnum.toNat), "OK")

/-- `rsp_client_request` on a register write; `none` is any other packet. -/
def rspRegisterRequest (s : Sim) (data : Packet) (stale : List Char) : Option (Sim × String) :=
  match data with
  | 'P' :: _ => some (rspWriteReg s data stale)
  | 'G' :: _ => some (rspWriteAllRegs s data)
  | _ => none

/-! ### Digits -/

/-- Eight zeros. -/
def zeros : List Char := List.replicate 8 '0'

theorem hexDigit_lt {c : Char} {d : ℕ} (h : hexDigit c = some d) : d < 16 := by
  simp only [hexDigit, Char.le_def, UInt32.le_iff_toNat_le] at h
  simp only [Char.toNat] at h
  split_ifs at h with hdigit hlower hupper
  all_goals simp at h
  · have := hdigit.2; simp at this; omega
  · have := hlower.2; simp at this; omega
  · have := hupper.2; simp at this; omega

theorem hexDigit_eq_zero {c : Char} (h : hexDigit c = some 0) : c = '0' := by
  simp only [hexDigit, Char.le_def, UInt32.le_iff_toNat_le] at h
  simp only [Char.toNat] at h
  split_ifs at h with hdigit hlower hupper
  all_goals simp at h
  · have := hdigit.1
    refine Char.ext (UInt32.toNat_inj.1 ?_)
    simp at this ⊢
    omega
  · have := hlower.1; simp at this; omega
  · have := hupper.1; simp at this; omega

theorem hex_shift_eq_zero_iff {c : Char} {k : ℕ} (hk : k ≤ 28) : hex c <<< k = 0 ↔ c = '0' := by
  constructor
  · intro h
    cases hd : hexDigit c with
    | some d =>
      have hlt := hexDigit_lt hd
      have hpow : 2 ^ k ≤ 2 ^ 28 := Nat.pow_le_pow_right (by decide) hk
      have hmul : d * 2 ^ k < 2 ^ 32 := calc
        d * 2 ^ k ≤ 15 * 2 ^ 28 := Nat.mul_le_mul (by omega) hpow
        _ < 2 ^ 32 := by decide
      have hnat := congrArg BitVec.toNat h
      rw [hex, hd] at hnat
      simp only [BitVec.toNat_shiftLeft, BitVec.toNat_ofNat, Nat.shiftLeft_eq,
        BitVec.ofNat_eq_ofNat] at hnat
      rw [Nat.mod_eq_of_lt (by omega : d < 2 ^ 32), Nat.mod_eq_of_lt hmul] at hnat
      have hzero : d = 0 := by
        rcases Nat.mul_eq_zero.1 hnat with h | h
        · exact h
        · exact absurd h (Nat.pos_iff_ne_zero.1 (Nat.two_pow_pos k))
      exact hexDigit_eq_zero (hzero ▸ hd)
    | none =>
      have hbit := congrArg (fun v => BitVec.getLsbD v k) h
      rw [hex, hd] at hbit
      simp at hbit
      omega
  · rintro rfl
    exact BitVec.zero_shiftLeft k

/-- The eight digits as a word. -/
def digitsWord (buf : List Char) : Word :=
  (List.range 8).foldl (fun val n => val ||| hex (buf.getD n '\x00') <<< (28 - 4 * n)) 0

theorem hex2reg_eq (buf : List Char) : hex2reg buf = (digitsWord buf).signExtend 64 := by
  have hfold : ∀ (ns : List ℕ) (val : Word),
      ns.foldl (fun val n => val ||| (hex (buf.getD n '\x00') <<< (28 - 4 * n)).signExtend 64)
        (val.signExtend 64) =
      (ns.foldl (fun val n => val ||| hex (buf.getD n '\x00') <<< (28 - 4 * n)) val).signExtend
        64 := by
    intro ns
    induction ns with
    | nil => exact fun _ => rfl
    | cons n ns ih =>
      intro val
      rw [List.foldl_cons, List.foldl_cons, ← BitVec.signExtend_or, ih]
  exact hfold (List.range 8) 0

theorem setWidth_signExtend (w : Word) : (w.signExtend 64).setWidth 32 = w := by
  refine BitVec.eq_of_getLsbD_eq fun i hi => ?_
  rw [BitVec.getLsbD_setWidth, BitVec.getLsbD_signExtend, if_pos hi, decide_eq_true hi,
    decide_eq_true (by omega : i < 64), Bool.true_and, Bool.true_and]

theorem setWidth_hex2reg (buf : List Char) : (hex2reg buf).setWidth 32 = digitsWord buf := by
  rw [hex2reg_eq, setWidth_signExtend]

theorem hex2reg_eq_zero_iff {buf : List Char} :
    (hex2reg buf).setWidth 32 = 0 ↔ ∀ n < 8, buf.getD n '\x00' = '0' := by
  rw [setWidth_hex2reg, digitsWord]
  refine (Bits.foldl_or_eq_zero_iff _ _ _).trans ((and_iff_right rfl).trans ?_)
  simp only [List.mem_range]
  exact forall₂_congr fun n _ => hex_shift_eq_zero_iff (Nat.sub_le 28 (4 * n))

/-- A register scanned from a word is zero only if the word is eight zeros; a shorter word ends in
a null character, which is no digit. -/
theorem hex2reg_valstr_eq_zero_iff {word stale : List Char} (hlen : word.length ≤ 8) :
    (hex2reg (valstr word stale)).setWidth 32 = 0 ↔ word = zeros := by
  rw [hex2reg_eq_zero_iff]
  constructor
  · intro h
    have hfull : word.length = 8 := by
      by_contra hne
      have := h word.length (by omega)
      simp [valstr] at this
    refine List.eq_replicate_of_mem ?_ |>.trans (by rw [hfull, zeros])
    intro c hc
    obtain ⟨n, hn, rfl⟩ := List.mem_iff_getElem.1 hc
    have := h n (by omega)
    simpa [valstr, List.getElem?_append_left hn, List.getElem?_eq_getElem hn] using this
  · rintro rfl n hn
    rw [valstr, List.getD_append _ _ _ _ (by simpa [zeros] using hn), zeros,
      List.getD_replicate _ hn]

/-! ### Register zero -/

theorem length_scanS8_le {cs word : List Char} (h : scanS8 cs = some word) : word.length ≤ 8 := by
  unfold scanS8 at h
  dsimp only at h
  split at h
  · cases h
  · cases h
    exact List.length_take_le ..

theorem length_scanWriteReg_le {data : Packet} {regnum : Word} {word : List Char}
    (h : scanWriteReg data = some (regnum, word)) : word.length ≤ 8 := by
  simp only [scanWriteReg, Option.bind_eq_bind, Option.bind_eq_some_iff] at h
  obtain ⟨_, -, _, -, _, -, word', hword, hret⟩ := h
  cases hret
  exact length_scanS8_le hword

theorem setNpc_reg (s : Sim) (addr : BitVec 64) : (setNpc s addr).reg = s.reg := by
  unfold setNpc
  split <;> rfl

/-- A `P` packet leaves register zero at zero unless it names it with anything but eight zeros. -/
theorem rspWriteReg_zero_iff {s : Sim} (hs : s.reg 0#5 = 0) (data : Packet) (stale : List Char) :
    (rspWriteReg s data stale).1.reg 0#5 = 0 ↔
      ∀ word, scanWriteReg data = some (0, word) → word = zeros := by
  unfold rspWriteReg
  cases hscan : scanWriteReg data with
  | none => simpa using hs
  | some r =>
    obtain ⟨regnum, word⟩ := r
    dsimp only
    by_cases hzero : regnum = 0
    · subst hzero
      rw [if_pos (by decide)]
      have hreg : (s.setReg ((0 : Word).setWidth 5)
          ((hex2reg (valstr word stale)).setWidth 32)).reg 0#5 =
          (hex2reg (valstr word stale)).setWidth 32 := Function.update_self (0#5) _ s.reg
      rw [hreg, hex2reg_valstr_eq_zero_iff (length_scanWriteReg_le hscan)]
      simp
    · refine iff_of_true ?_ fun word' h => absurd (Prod.ext_iff.1 (Option.some.inj h)).1 hzero
      split
      case isTrue hlt =>
        have hne : (0#5 : BitVec 5) ≠ regnum.setWidth 5 := by
          intro h
          apply hzero
          have hmod := congrArg BitVec.toNat h
          have hlt := BitVec.lt_def.1 hlt
          rw [BitVec.toNat_setWidth] at hmod
          simp only [BitVec.toNat_ofNat, BitVec.ofNat_eq_ofNat] at hlt hmod
          apply BitVec.eq_of_toNat_eq
          simp only [BitVec.toNat_ofNat, BitVec.ofNat_eq_ofNat]
          omega
        exact (Function.update_of_ne hne _ s.reg).trans hs
      case isFalse =>
        split
        · exact hs
        · split
          · rw [setNpc_reg]
            exact hs
          · split <;> exact hs

theorem rspWriteAllRegs_zero (s : Sim) (cs : Packet) :
    (rspWriteAllRegs s ('G' :: cs)).1.reg 0#5 ≠ 0 := by
  rw [rspWriteAllRegs, setNpc_reg]
  show (regAt ('G' :: cs) 0).setWidth 32 ≠ 0
  intro h
  have := hex2reg_eq_zero_iff.1 h 0 (by decide)
  simp at this

/-! ### Runs with a debugger -/

/-- What happens to a simulator with a debugger attached. -/
inductive Action where
  /-- An event of the simulator. -/
  | event (e : Event)
  /-- A packet from the debugger; `stale` is what the stack has where `rsp_write_reg` scans to. -/
  | packet (data : Packet) (stale : List Char)

/-- One action. -/
def Action.exec (cfg : Config) (s : Sim) : Action → Except Stop Sim
  | .event e => e.exec cfg s
  | .packet data stale => .ok (((rspRegisterRequest s data stale).map Prod.fst).getD s)

/-- What a packet may write if register zero is to stay zero. -/
def PacketKeepsGpr0 : Packet → Prop
  | 'P' :: cs => ∀ word, scanWriteReg ('P' :: cs) = some (0, word) → word = zeros
  | 'G' :: _ => False
  | _ => True

/-- The actions that leave register zero. -/
def Action.KeepsGpr0 (cfg : Config) (s : Sim) : Action → Prop
  | .event e => e.KeepsGpr0 cfg s
  | .packet data _ => PacketKeepsGpr0 data

theorem Action.exec_zero_iff {cfg : Config} {s : Sim} (hs : s.reg 0#5 = 0) (a : Action) :
    (∀ t, a.exec cfg s = .ok t → t.reg 0#5 = 0) ↔ a.KeepsGpr0 cfg s := by
  cases a with
  | event e => exact exec_reg_zero_iff hs e
  | packet data stale =>
    simp only [Action.exec, Action.KeepsGpr0, Except.ok.injEq, forall_eq']
    unfold rspRegisterRequest PacketKeepsGpr0
    split
    case h_1 cs => exact rspWriteReg_zero_iff hs _ stale
    case h_2 cs => exact iff_false_intro (rspWriteAllRegs_zero s cs)
    case h_3 => exact iff_of_true hs trivial

/-- **Register zero is zero** in every state of a run from a reset exactly when no action of the run
writes something else to it. -/
theorem gpr0_zero_iff (cfg : Config) (s : Sim) (as : List Action) :
    (∀ pre, pre <+: as → ∀ t, pre.foldlM (Action.exec cfg) (cpuReset s) = .ok t →
        t.reg 0#5 = 0) ↔
      Runs.Along (Action.exec cfg) (fun s a => a.KeepsGpr0 cfg s) (cpuReset s) as :=
  Runs.along_iff (fun _ a hs => Action.exec_zero_iff hs a) (congrFun (cpuReset_reg s) 0#5)

/-- The debugger sets register zero to one. -/
theorem gpr0_set_by_debugger :
    ∃ t, [Action.packet "P0=00000001".toList []].foldlM (Action.exec defaultConfig)
        (cpuReset (powerOn 0x601 0x8001 (Memory.flat fun _ => 0))) = .ok t ∧ t.reg 0#5 = 1 :=
  ⟨_, rfl, by decide⟩

end Rsp
end Or1ksim
