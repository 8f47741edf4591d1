import Mathlib.Data.List.TakeWhile
import Mathlib.Tactic.IntervalCases
import Or1ksim.Rsp.Packet

/-!
# RSP register reads

The `p` and `g` requests of the GDB remote serial protocol server (`debug/rsp-server.c`), and what
becomes of their replies when they are written back.

* `reg2hex`, `rspReadReg`, `rspReadAllRegs` — the digits of a register and the two requests;
* `serveRegisters` — the next packet of the client, where it writes registers;
* `digitsWord_reg2hex` — a register that is read back from its digits;
* `register_packets` — **which register packets make a round trip**.
-/

namespace Or1ksim
namespace Rsp

open Scan Cpu

/-! ### Reads -/

/-- `reg2hex`. -/
def reg2hex (val : Word) : List Char :=
  (List.range 8).map fun n => hexchars.getD ((val >>> (28 - 4 * n)) &&& 0xf).toNat '0'

/-- `NUM_REGS`. -/
def numRegs : ℕ := 35

/-- A register by its number: the general purpose registers, `SPR_PPC`, `SPR_NPC` and `SPR_SR`. -/
def gdbReg (s : Sim) (r : ℕ) : Word :=
  if r < 32 then s.reg (BitVec.ofNat 5 r)
  else if r = ppcRegnum.toNat then s.sprs sprPPC
  else if r = npcRegnum.toNat then s.pc
  else s.sprs sprSR

/-- The reply of `rsp_read_all_regs`. -/
def rspReadAllRegs (s : Sim) : Packet := (List.range numRegs).flatMap fun r => reg2hex (gdbReg s r)

/-- `sscanf (buf->data, "p%x", ..)` with the conversion assigned. -/
def scanReadReg (data : Packet) : Option Word := do
  let cs ← scanLit 'p' (cString data)
  let (regnum, _) ← scanX cs
  return regnum

/-- The reply of `rsp_read_reg`. -/
def rspReadReg (s : Sim) (data : Packet) : Packet :=
  match scanReadReg data with
  | none => "E01".toList
  | some regnum => if regnum < 35 then reg2hex (gdbReg s regnum.toNat) else "E01".toList

/-! ### Service -/

/-- What the client puts for a text. -/
def sent (text : Packet) : List Byte := frame (text.map chr)

/-- The packet buffer once a packet is received; `old` is what it holds behind the null
character. -/
def received (packet : List Byte) (old : Packet) : Packet :=
  packet.map (fun c => Char.ofNat c.toNat) ++ '\x00' :: old

/-- The processor after the next packet of the client, if that writes registers. -/
def serveRegisters (s : Sim) (input : List Byte) (old : Packet) (stale : List Char) : Sim :=
  match (getPacket input).buf with
  | some packet => ((rspRegisterRequest s (received packet old) stale).map Prod.fst).getD s
  | none => s

/-! ### Digits -/

theorem hex_hexchars (d : Fin 16) : hex (hexchars.getD d '0') = BitVec.ofNat 32 d := by
  revert d
  decide

theorem hex_nibble (v : Word) :
    hex (hexchars.getD (v &&& 0xf).toNat '0') = v &&& 0xf := by
  have hlt : (v &&& 0xf).toNat < 16 := by
    have := Nat.and_le_right (n := v.toNat) (m := 15)
    rw [BitVec.toNat_and]
    exact Nat.lt_succ_of_le this
  have hdigit := hex_hexchars ⟨_, hlt⟩
  rwa [BitVec.ofNat_toNat, BitVec.setWidth_eq] at hdigit

theorem getLsbD_nibble (v : Word) {k i : ℕ} (hi : i < 32) :
    (((v >>> k) &&& 0xf) <<< k).getLsbD i = (decide (k ≤ i ∧ i < k + 4) && v.getLsbD i) := by
  have hmask : (0xf : Word) = Bits.lowMask 32 4 := rfl
  rw [BitVec.getLsbD_shiftLeft, BitVec.getLsbD_and, BitVec.getLsbD_ushiftRight, hmask,
    Bits.getLsbD_lowMask]
  by_cases hk : k ≤ i
  · have hadd : k + (i - k) = i := by omega
    rw [hadd, decide_eq_true hi, decide_eq_false (by omega : ¬i < k),
      decide_eq_true (by omega : i - k < 32), Bool.not_false, Bool.and_self, Bool.true_and,
      Bool.true_and, Bool.and_comm]
    congr 1
    exact decide_eq_decide.2 (by omega)
  · rw [decide_eq_true (by omega : i < k), decide_eq_false (by omega : ¬(k ≤ i ∧ i < k + 4)),
      Bool.not_true, Bool.and_false, Bool.false_and, Bool.false_and]

/-- A register is read back from its digits, whatever follows them. -/
theorem digitsWord_reg2hex (v : Word) (rest : List Char) : digitsWord (reg2hex v ++ rest) = v := by
  refine BitVec.eq_of_getLsbD_eq fun i hi => ?_
  have hdigit : ∀ n ∈ List.range 8, (hex ((reg2hex v ++ rest).getD n '\x00') <<<
      (28 - 4 * n)).getLsbD i = (decide (28 - 4 * n ≤ i ∧ i < 28 - 4 * n + 4) && v.getLsbD i) := by
    intro n hn
    have hn : n < 8 := List.mem_range.1 hn
    have hchar : (reg2hex v ++ rest).getD n '\x00' =
        hexchars.getD ((v >>> (28 - 4 * n)) &&& 0xf).toNat '0' := by
      have hlen : n < (reg2hex v).length := by simpa [reg2hex] using hn
      rw [List.getD_append _ _ _ _ hlen, reg2hex]
      simp [hn]
    rw [hchar, hex_nibble, getLsbD_nibble v hi]
  have hzero : (0 : Word).getLsbD i = false := BitVec.getLsbD_zero
  rw [digitsWord, Bits.getLsbD_foldl_or, hzero, Bool.false_or]
  -- The bit stands in one digit.
  cases hbit : v.getLsbD i with
  | true =>
    refine List.any_eq_true.2 ⟨7 - i / 4, List.mem_range.2 (by omega), ?_⟩
    rw [hdigit _ (List.mem_range.2 (by omega)), hbit, Bool.and_true]
    exact decide_eq_true (by omega)
  | false =>
    refine List.any_eq_false.2 fun n hn => ?_
    rw [hdigit n hn, hbit, Bool.and_false]
    exact Bool.false_ne_true

/-! ### Packets of one register -/

/-- The number of a register in the text of a packet: `%x`. -/
def regName (n : ℕ) : List Char :=
  if n < 16 then [hexchars.getD n '0'] else [hexchars.getD (n / 16) '0', hexchars.getD (n % 16) '0']

theorem mem_reg2hex {v : Word} {c : Char} (hc : c ∈ reg2hex v) :
    isSpace c = false ∧ c ≠ '\x00' := by
  have hall : ('0' :: hexchars).all (fun c => !isSpace c && c != '\x00') = true := by decide
  have hdigits : ∀ c ∈ '0' :: hexchars, isSpace c = false ∧ c ≠ '\x00' := fun c hc => by
    simpa only [Bool.and_eq_true, Bool.not_eq_true', bne_iff_ne] using List.all_eq_true.1 hall c hc
  obtain ⟨n, -, rfl⟩ := List.mem_map.1 hc
  refine hdigits _ ?_
  rw [List.getD_eq_getElem?_getD]
  cases hget : hexchars[((v >>> (28 - 4 * n)) &&& 0xf).toNat]? with
  | none => exact .head _
  | some c => exact .tail _ (List.mem_of_getElem? hget)

theorem length_reg2hex (v : Word) : (reg2hex v).length = 8 := by
  rw [reg2hex, List.length_map, List.length_range]

theorem scanS8_reg2hex (v : Word) : scanS8 (reg2hex v) = some (reg2hex v) := by
  have hdrop : (reg2hex v).dropWhile isSpace = reg2hex v := by
    refine List.dropWhile_eq_self_iff.2 fun hlen => ?_
    rw [(mem_reg2hex (List.getElem_mem hlen)).1]
    exact Bool.false_ne_true
  have htake : (reg2hex v).takeWhile (fun c => !isSpace c) = reg2hex v :=
    List.takeWhile_eq_self_iff.2 fun c hc => by rw [(mem_reg2hex hc).1]; rfl
  have hlen : (reg2hex v).take 8 = reg2hex v := List.take_of_length_le (length_reg2hex v).le
  have hne : reg2hex v ≠ [] := List.ne_nil_of_length_pos (by rw [length_reg2hex]; decide)
  rw [scanS8, hdrop, htake, hlen]
  exact if_neg hne

theorem cString_append {cs : Packet} (h : ∀ c ∈ cs, c ≠ '\x00') (v : Word) :
    cString (cs ++ reg2hex v) = cs ++ reg2hex v := by
  refine List.takeWhile_eq_self_iff.2 fun c hc => decide_eq_true ?_
  rcases List.mem_append.1 hc with hc | hc
  · exact h c hc
  · exact (mem_reg2hex hc).2

theorem scanWriteReg_regName {n : ℕ} (hn : n < numRegs) (v : Word) :
    scanWriteReg ('P' :: regName n ++ '=' :: reg2hex v) = some (BitVec.ofNat 32 n, reg2hex v) := by
  have hall : ∀ n < numRegs, ('P' :: regName n ++ ['=']).all (· != '\x00') = true := by decide
  have hchars : ∀ c ∈ 'P' :: regName n ++ ['='], c ≠ '\x00' := fun c hc =>
    bne_iff_ne.1 (List.all_eq_true.1 (hall n hn) c hc)
  have htext : cString ('P' :: regName n ++ '=' :: reg2hex v) =
      'P' :: (regName n ++ '=' :: reg2hex v) := by
    have h := cString_append hchars v
    rwa [List.append_assoc, List.singleton_append] at h
  have hscan : ∀ (n : ℕ) (rest : List Char), n < numRegs →
      scanX (regName n ++ '=' :: rest) = some (BitVec.ofNat 32 n, '=' :: rest) := by
    intro n rest hn
    unfold numRegs at hn
    interval_cases n <;> rfl
  rw [scanWriteReg, htext]
  change (scanX (regName n ++ '=' :: reg2hex v)).bind _ = _
  rw [hscan n _ hn]
  change (scanS8 (reg2hex v)).bind _ = _
  rw [scanS8_reg2hex]
  rfl

theorem scanReadReg_regName : ∀ n < numRegs,
    scanReadReg ('p' :: regName n) = some (BitVec.ofNat 32 n) := by decide

section Write

variable {s : Sim} {stale : List Char}

theorem hex2reg_valstr (v : Word) (stale : List Char) :
    hex2reg (valstr (reg2hex v) stale) = v.signExtend 64 := by
  rw [hex2reg_eq, valstr, digitsWord_reg2hex]

theorem setNpc_pc (s : Sim) (v : Word) : (setNpc s (v.signExtend 64)).pc = v := by
  unfold setNpc
  split
  case isTrue => exact setWidth_signExtend v
  case isFalse hsame =>
    have hlow := congrArg (BitVec.setWidth 32) (not_not.1 hsame)
    rwa [BitVec.setWidth_setWidth_of_le _ (by decide), BitVec.setWidth_eq,
      setWidth_signExtend] at hlow

theorem rspReadReg_rspWriteReg {n : ℕ} (hn : n < numRegs) (v : Word) :
    rspReadReg (rspWriteReg s ('P' :: regName n ++ '=' :: reg2hex v) stale).1 ('p' :: regName n) =
      reg2hex v := by
  have hlt : BitVec.ofNat 32 n < (35 : Word) ∧ (BitVec.ofNat 32 n).toNat = n := by
    unfold numRegs at hn
    rw [BitVec.lt_def, BitVec.toNat_ofNat, Nat.mod_eq_of_lt (by omega)]
    exact ⟨hn, rfl⟩
  have hread : ∀ u, rspReadReg u ('p' :: regName n) = reg2hex (gdbReg u n) := by
    intro u
    rw [rspReadReg, scanReadReg_regName n hn]
    dsimp only
    rw [if_pos hlt.1, hlt.2]
  rw [hread, rspWriteReg, scanWriteReg_regName hn]
  dsimp only
  rw [hex2reg_valstr, setWidth_signExtend]
  congr 1
  -- the general registers, and then `PPC`, `NPC` and `SR`
  by_cases hgpr : n < 32
  · have hregnum : BitVec.ofNat 32 n < (32 : Word) := by
      rw [BitVec.lt_def, hlt.2]
      exact hgpr
    have hindex : (BitVec.ofNat 32 n).setWidth 5 = BitVec.ofNat 5 n :=
      BitVec.eq_of_toNat_eq (by rw [BitVec.toNat_setWidth, hlt.2, BitVec.toNat_ofNat])
    rw [if_pos hregnum, hindex, gdbReg, if_pos hgpr]
    exact Function.update_self _ _ _
  · obtain rfl | rfl | rfl : n = 32 ∨ n = 33 ∨ n = 34 := by
      unfold numRegs at hn
      omega
    · exact Sim.setSpr_sprs_self
    · exact setNpc_pc s v
    · exact Sim.setSpr_sprs_self

/-- The sign extension of an address is the address itself only in the lower half. -/
theorem setWidth_eq_signExtend_iff (v : Word) :
    v.setWidth 64 = v.signExtend 64 ↔ v.msb = false := by
  constructor
  · intro h
    have hbit := congrArg (fun w : BitVec 64 => w.getLsbD 32) h
    simp only [BitVec.getLsbD_setWidth, BitVec.getLsbD_signExtend] at hbit
    simpa using hbit.symm
  · exact fun h => (BitVec.signExtend_eq_setWidth_of_msb_false h).symm

/-- Writing the program counter its own value keeps a delay slot in the lower half of memory
only. -/
theorem setNpc_delayInsn_iff (s : Sim) :
    (setNpc s (s.pc.signExtend 64)).delayInsn = s.delayInsn ↔
      (s.delayInsn = true → s.pc.msb = false) := by
  unfold setNpc
  split
  case isTrue hne =>
    have hmsb : s.pc.msb = true := by
      rw [← Bool.not_eq_false]
      exact fun h => hne ((setWidth_eq_signExtend_iff _).2 h)
    rw [hmsb]
    cases s.delayInsn <;> simp
  case isFalse heq =>
    exact iff_of_true rfl fun _ => (setWidth_eq_signExtend_iff _).1 (not_not.1 heq)

end Write

/-! ### Packets of the client -/

/-- A character of a text that is put as it is. -/
def Plain (c : Char) : Prop := c ∈ 'P' :: '=' :: hexchars

instance (c : Char) : Decidable (Plain c) := inferInstanceAs (Decidable (c ∈ _))

theorem Plain.put_back {c : Char} (h : Plain c) :
    ¬Special (chr c) ∧ Char.ofNat (chr c).toNat = c ∧ c ≠ '\x00' := by
  have hall : (('P' :: '=' :: hexchars).all fun c =>
      decide (¬Special (chr c) ∧ Char.ofNat (chr c).toNat = c ∧ c ≠ '\x00')) = true := by
    decide
  exact of_decide_eq_true (List.all_eq_true.1 hall c h)

theorem plain_getD_hexchars (n : ℕ) : Plain (hexchars.getD n '0') := by
  rw [List.getD_eq_getElem?_getD]
  cases hget : hexchars[n]? with
  | none => decide
  | some c => exact .tail _ (.tail _ (List.mem_of_getElem? hget))

theorem plain_writeReg {n : ℕ} (v : Word) {c : Char}
    (hc : c ∈ 'P' :: regName n ++ '=' :: reg2hex v) : Plain c := by
  have hname : ∀ c ∈ regName n, Plain c := by
    unfold regName
    split
    · intro c hc
      rw [List.mem_singleton.1 hc]
      exact plain_getD_hexchars n
    · intro c hc
      rcases List.mem_pair.1 hc with rfl | rfl <;> exact plain_getD_hexchars _
  rcases List.mem_append.1 hc with hc | hc
  · rcases List.mem_cons.1 hc with rfl | hc
    · decide
    · exact hname c hc
  · rcases List.mem_cons.1 hc with rfl | hc
    · decide
    · obtain ⟨k, -, rfl⟩ := List.mem_map.1 hc
      exact plain_getD_hexchars _

theorem cString_append_null (text old : Packet) :
    cString (text ++ '\x00' :: old) = cString text := by
  induction text with
  | nil => rfl
  | cons c text ih =>
    unfold cString at ih ⊢
    rw [List.cons_append, List.takeWhile_cons, List.takeWhile_cons, ih]

/-- A `P` packet of the client is received and carried out. -/
theorem serveRegisters_writeReg (s : Sim) {n : ℕ} (hn : n < numRegs) (v : Word) (rest : List Byte)
    (old : Packet) (stale : List Char) :
    serveRegisters s (sent ('P' :: regName n ++ '=' :: reg2hex v) ++ rest) old stale =
      (rspWriteReg s ('P' :: regName n ++ '=' :: reg2hex v) stale).1 := by
  generalize htext : 'P' :: regName n ++ '=' :: reg2hex v = text
  have hplain : ∀ c ∈ text, Plain c := fun c hc => plain_writeReg v (htext ▸ hc)
  have hescaped : escaped (text.map chr) = text.map chr := by
    refine escaped_of_plain fun c hc => ?_
    obtain ⟨ch, hch, rfl⟩ := List.mem_map.1 hc
    exact (hplain ch hch).put_back.1
  have hlength : ∀ n < numRegs, (regName n).length ≤ 2 := by decide
  have hfits : (escaped (text.map chr)).length < gdbBufMax - 1 := by
    have hname := hlength n hn
    have hmax : gdbBufMax - 1 = 280 := rfl
    rw [hescaped, List.length_map, ← htext, List.cons_append, List.length_cons,
      List.length_append, List.length_cons, length_reg2hex]
    omega
  have hback : (text.map chr).map (fun c => Char.ofNat c.toNat) = text := by
    rw [List.map_map]
    exact (List.map_congr_left fun c hc => (hplain c hc).put_back.2.1).trans (List.map_id _)
  have hscan : scanWriteReg (text ++ '\x00' :: old) = scanWriteReg text := by
    rw [scanWriteReg, scanWriteReg, cString_append_null]
  rw [serveRegisters, sent, getPacket_frame _ _ hfits, hescaped]
  dsimp only
  rw [received, hback]
  have hrequest : rspRegisterRequest s (text ++ '\x00' :: old) stale =
      some (rspWriteReg s (text ++ '\x00' :: old) stale) := by
    rw [← htext]
    rfl
  rw [hrequest, rspWriteReg, hscan]
  rfl

/-- The digits of all registers and a letter do not fit the buffer: the packet is dropped. -/
theorem serveRegisters_allRegs (s : Sim) (rest : List Byte) (old : Packet) (stale : List Char) :
    serveRegisters s (sent ('G' :: rspReadAllRegs s) ++ rest) old stale =
      serveRegisters s rest old stale := by
  have hdigits : (rspReadAllRegs s).length = 280 := by
    have hconst : (List.range numRegs).map (fun r => (reg2hex (gdbReg s r)).length) =
        List.replicate numRegs 8 := by
      simp only [length_reg2hex]
      rfl
    rw [rspReadAllRegs, List.length_flatMap, hconst]
    rfl
  have hlong : gdbBufMax - 1 ≤ (escaped (('G' :: rspReadAllRegs s).map chr)).length := by
    refine le_trans ?_ (length_le_escaped _)
    rw [List.length_map, List.length_cons, hdigits]
    decide
  rw [serveRegisters, sent, getPacket_frame_of_long _ _ hlong]
  rfl

/-! ### Round trips -/

/-- **Register packets**: a `G` packet with the reply of a `g` packet changes nothing, since it is
never received; a register reads back what a `P` packet wrote; and writing the program counter its
own value, by a `P` packet or by the digits that a received `G` packet has for it, keeps a delay
slot exactly in the lower half of memory. -/
theorem register_packets (s : Sim) (old : Packet) (stale : List Char) :
    (∀ rest, serveRegisters s (sent ('G' :: rspReadAllRegs s) ++ rest) old stale =
        serveRegisters s rest old stale) ∧
      (∀ rest n v, 0 < n → n < numRegs →
        rspReadReg
            (serveRegisters s (sent ('P' :: regName n ++ '=' :: reg2hex v) ++ rest) old stale)
            ('p' :: regName n) =
          reg2hex v) ∧
      (∀ rest, (serveRegisters s
            (sent ('P' :: regName npcRegnum.toNat ++ '=' :: reg2hex s.pc) ++ rest) old
              stale).delayInsn = s.delayInsn ↔ (s.delayInsn = true → s.pc.msb = false)) ∧
      ∀ input packet, (getPacket input).buf = some (chr 'G' :: packet) →
        digitsWord ((received (chr 'G' :: packet) old).drop (npcRegnum.toNat * 8)) = s.pc →
        ((serveRegisters s input old stale).delayInsn = s.delayInsn ↔
          (s.delayInsn = true → s.pc.msb = false)) := by
  refine ⟨fun rest => serveRegisters_allRegs s rest old stale, fun rest n v _ hn => ?_,
    fun rest => ?_, fun input packet hinput hdata => ?_⟩
  · rw [serveRegisters_writeReg s hn]
    exact rspReadReg_rspWriteReg hn v
  · have hwrite : (rspWriteReg s ('P' :: regName npcRegnum.toNat ++ '=' :: reg2hex s.pc) stale).1 =
        setNpc s (s.pc.signExtend 64) := by
      rw [rspWriteReg, scanWriteReg_regName (by decide)]
      dsimp only
      rw [hex2reg_valstr]
      rfl
    rw [serveRegisters_writeReg s (by decide), hwrite]
    exact setNpc_delayInsn_iff s
  · have hnpc : regAt (received (chr 'G' :: packet) old) npcRegnum.toNat = s.pc.signExtend 64 := by
      rw [regAt, hex2reg_eq, hdata]
    rw [serveRegisters, hinput]
    change (rspWriteAllRegs s (received (chr 'G' :: packet) old)).1.delayInsn = _ ↔ _
    rw [rspWriteAllRegs, hnpc]
    exact setNpc_delayInsn_iff (Sim.setSpr _ _ _)

/-- The program counter is written its own value in a delay slot in the upper half of memory. -/
theorem delaySlot_lost :
    ¬∀ s : Sim, s.reg 0 = 0 →
      (serveRegisters s (sent ('P' :: regName npcRegnum.toNat ++ '=' :: reg2hex s.pc)) []
        []).delayInsn = s.delayInsn := by
  intro h
  have hkept := h { powerOn 0x601 0x8001 (Memory.flat fun _ => 0) with
    pc := 0x80000000, delayInsn := true } rfl
  exact absurd hkept (by decide)

end Rsp
end Or1ksim
