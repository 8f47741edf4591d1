import Or1ksim.Memory.BigEndian

/-!
# Programs as text

The simulator dumps memory as text (`support/dumpverilog.c`), and the loader of the board reads it
back (`Baton_API.cpp`).

* `dumphex` — the dump: a word a line, without leading zero bytes;
* `lines` — the lines of a text;
* `myHexToInt` — a line that is read back;
* `myHexToInt_bytes` — the digits of some bytes are read as their number;
* `dumpWord_spec` — the text of one word, whatever the count of zeros so far;
* `hex_round_trip` — **every word is read back**.
-/

namespace Or1ksim
namespace Baton

/-! ### The dump -/

/-- `"%.2x"` -/
def byteHex (b : Byte) : List Char :=
  [Nat.digitChar (b.toNat / 16), Nat.digitChar (b.toNat % 16)]

/-- The loop over the bytes of a word, from `j` on, up to the first one that is not zero: its
number, and the count of zeros. -/
def skipZeros (byte : ℕ → Byte) (j : ℕ) (zeroCnt : Word) : ℕ → ℕ × Word
  | 0 => (j, zeroCnt)
  | n + 1 => if byte j ≠ 0#8 then (j, 0) else skipZeros byte (j + 1) (zeroCnt + 1) n

/-- The text of a word, and the count of zeros after it. -/
def dumpWord (byte : ℕ → Byte) (zeroCnt : Word) : List Char × Word :=
  let r := skipZeros byte 0 zeroCnt 4
  (if r.2 ≠ 0 then ['0'] else (List.range' r.1 (4 - r.1)).flatMap fun j => byteHex (byte j), r.2)

/-- The loop over the words, `n` times at most. -/
def dumpLoop (M : Memory) (stop : Addr) : ℕ → Addr → Word → List Char
  | 0, _, _ => []
  | n + 1, i, zeroCnt =>
    if i < stop then
      let r := dumpWord (fun j => M.evalDirect8 (i + BitVec.ofNat 32 j)) zeroCnt
      r.1 ++ (if stop - i ≠ 4 then ['\n'] else []) ++ dumpLoop M stop n (i + 4) r.2
    else []

/-- `dumphex` -/
def dumphex (M : Memory) (start stop : Addr) : List Char :=
  dumpLoop M stop ((stop - start).toNat / 4 + 1) start 0

/-- The lines of a text. -/
def lines (text : List Char) : List (List Char) := if text = [] then [] else text.splitOn '\n'

/-! ### The loader -/

/-- The value of a digit. -/
def digit (c : Char) : Option ℕ :=
  if 'A' ≤ c ∧ c ≤ 'F' then some (c.toNat - 'A'.toNat + 10)
  else if 'a' ≤ c ∧ c ≤ 'f' then some (c.toNat - 'a'.toNat + 10)
  else if '0' ≤ c ∧ c ≤ '9' then some (c.toNat - '0'.toNat)
  else none

/-- The loop over the digits behind the first one, if `iValue` is the number so far; what is no
digit makes the result -1. -/
def hexLoop (iValue : Word) : List Char → Word
  | [] => iValue
  | c :: cs =>
    match digit c with
    | some d => hexLoop (iValue * 16 + BitVec.ofNat 32 d) cs
    | none => -1

/-- The text behind a `0x`. -/
def dropPrefix (cHexStr : List Char) : List Char :=
  if 2 < cHexStr.length ∧ cHexStr.getD 0 ' ' = '0' ∧
      (cHexStr.getD 1 ' ' = 'x' ∨ cHexStr.getD 1 ' ' = 'X') then cHexStr.drop 2
  else cHexStr

/-- `myHexToInt`.  A longer text than the local buffer of 128 characters has no result. -/
def myHexToInt (cHexStr : List Char) : Option Word :=
  if cHexStr = [] then some (-1)
  else if 128 ≤ (dropPrefix cHexStr).length then none
  else
    -- The first digit is not preceded by a multiplication, which makes no difference for zero.
    some (hexLoop 0 (dropPrefix cHexStr))

/-! ### Digits -/

theorem digitChar_spec {d : ℕ} (hd : d < 16) :
    digit (Nat.digitChar d) = some d ∧ Nat.digitChar d ≠ 'x' ∧ Nat.digitChar d ≠ 'X' ∧
      Nat.digitChar d ≠ '\n' := by
  revert d
  decide

/-- The number in some bytes, the first being the most significant one. -/
def number (bytes : List Byte) : Word :=
  bytes.foldl (fun acc b => acc * 256 + b.setWidth 32) 0

theorem hexLoop_bytes (iValue : Word) (bytes : List Byte) :
    hexLoop iValue (bytes.flatMap byteHex) =
      bytes.foldl (fun acc b => acc * 256 + b.setWidth 32) iValue := by
  induction bytes generalizing iValue with
  | nil => rfl
  | cons b bytes ih =>
    have hb := b.isLt
    obtain ⟨hhigh, -⟩ := digitChar_spec (show b.toNat / 16 < 16 by omega)
    obtain ⟨hlow, -⟩ := digitChar_spec (show b.toNat % 16 < 16 by omega)
    have hbyte : (iValue * 16 + BitVec.ofNat 32 (b.toNat / 16)) * 16 +
        BitVec.ofNat 32 (b.toNat % 16) = iValue * 256 + b.setWidth 32 := by
      apply BitVec.eq_of_toNat_eq
      simp only [BitVec.ofNat_eq_ofNat, BitVec.toNat_add, BitVec.toNat_mul, BitVec.toNat_ofNat,
        BitVec.toNat_setWidth]
      omega
    have hpair : hexLoop iValue (byteHex b ++ bytes.flatMap byteHex) =
        hexLoop ((iValue * 16 + BitVec.ofNat 32 (b.toNat / 16)) * 16 +
          BitVec.ofNat 32 (b.toNat % 16)) (bytes.flatMap byteHex) := by
      simp only [byteHex, List.cons_append, List.nil_append, hexLoop, hhigh, hlow]
    rw [List.flatMap_cons, hpair, hbyte, ih, List.foldl_cons]

theorem length_bytes (bytes : List Byte) : (bytes.flatMap byteHex).length = 2 * bytes.length := by
  induction bytes with
  | nil => rfl
  | cons b bytes ih =>
    rw [List.flatMap_cons, List.length_append, ih, byteHex]
    simp only [List.length_cons, List.length_nil]
    omega

theorem newline_notMem_bytes (bytes : List Byte) : '\n' ∉ bytes.flatMap byteHex := by
  intro hmem
  obtain ⟨b, -, hb⟩ := List.mem_flatMap.1 hmem
  have hlt := b.isLt
  rcases List.mem_cons.1 hb with hb | hb
  · exact (digitChar_spec (show b.toNat / 16 < 16 by omega)).2.2.2 hb.symm
  · exact (digitChar_spec (show b.toNat % 16 < 16 by omega)).2.2.2 (List.mem_singleton.1 hb).symm

theorem dropPrefix_bytes (bytes : List Byte) :
    dropPrefix (bytes.flatMap byteHex) = bytes.flatMap byteHex := by
  cases bytes with
  | nil => rfl
  | cons b bytes =>
    have hlt := b.isLt
    obtain ⟨-, hx, hX, -⟩ := digitChar_spec (show b.toNat % 16 < 16 by omega)
    refine if_neg fun h => ?_
    rcases h.2.2 with h | h
    · exact hx h
    · exact hX h

/-- **The digits of some bytes** are read as their number. -/
theorem myHexToInt_bytes {bytes : List Byte} (hne : bytes ≠ []) (hlen : bytes.length ≤ 4) :
    myHexToInt (bytes.flatMap byteHex) = some (number bytes) := by
  have hlength := length_bytes bytes
  have hpos := List.length_pos_iff.2 hne
  have htext : bytes.flatMap byteHex ≠ [] := by
    intro hnil
    rw [hnil, List.length_nil] at hlength
    omega
  rw [myHexToInt, if_neg htext, dropPrefix_bytes, if_neg (by omega), hexLoop_bytes]
  rfl

/-! ### Words -/

theorem number_append_of_zero {zs bytes : List Byte} (hzs : ∀ z ∈ zs, z = 0#8) :
    number (zs ++ bytes) = number bytes := by
  induction zs with
  | nil => rfl
  | cons z zs ih =>
    rw [hzs z List.mem_cons_self]
    exact ih fun z hz => hzs z (.tail _ hz)

/-- The loop stops at the first byte that is not zero, or counts them all. -/
theorem skipZeros_spec (byte : ℕ → Byte) (j : ℕ) (zeroCnt : Word) (n : ℕ) :
    (skipZeros byte j zeroCnt n = (j + n, zeroCnt + BitVec.ofNat 32 n) ∧
        ∀ b ∈ (List.range' j n).map byte, b = 0#8) ∨
      ∃ k, k < n ∧ skipZeros byte j zeroCnt n = (j + k, 0) ∧
        ∀ b ∈ (List.range' j k).map byte, b = 0#8 := by
  -- The zeros that are counted before the byte at `j` are in `zeroCnt`.
  induction n generalizing j zeroCnt with
  | zero => exact .inl ⟨by simp [skipZeros], by simp⟩
  | succ n ih =>
    rw [skipZeros]
    by_cases hj : byte j = 0#8
    · rw [if_neg (not_not.2 hj)]
      rcases ih (j + 1) (zeroCnt + 1) with ⟨hskip, hzeros⟩ | ⟨k, hk, hskip, hzeros⟩
      · refine .inl ⟨?_, ?_⟩
        · rw [hskip]
          refine Prod.ext (by dsimp only; omega) (BitVec.eq_of_toNat_eq ?_)
          simp only [BitVec.ofNat_eq_ofNat, BitVec.toNat_add, BitVec.toNat_ofNat]
          omega
        · rw [List.range'_succ, List.map_cons]
          exact List.forall_mem_cons.2 ⟨hj, hzeros⟩
      · refine .inr ⟨k + 1, by omega, ?_, ?_⟩
        · rw [hskip]
          exact Prod.ext (by dsimp only; omega) rfl
        · rw [List.range'_succ, List.map_cons]
          exact List.forall_mem_cons.2 ⟨hj, hzeros⟩
    · exact .inr ⟨0, Nat.succ_pos n, by rw [if_pos hj]; rfl, by simp⟩

/-- **The text of a word** is read back as the word, and has no line break.  A word of zeros leaves
the count of zeros positive, and another one sets it to zero. -/
theorem dumpWord_spec (byte : ℕ → Byte) {zeroCnt : Word} (hcnt : zeroCnt.toNat + 4 < 2 ^ 32) :
    myHexToInt (dumpWord byte zeroCnt).1 = some (number ((List.range' 0 4).map byte)) ∧
      '\n' ∉ (dumpWord byte zeroCnt).1 ∧ (dumpWord byte zeroCnt).1 ≠ [] ∧
      (dumpWord byte zeroCnt).2.toNat ≤ zeroCnt.toNat + 4 := by
  rcases skipZeros_spec byte 0 zeroCnt 4 with ⟨hskip, hzeros⟩ | ⟨k, hk, hskip, hzeros⟩
  · have hcount : (zeroCnt + BitVec.ofNat 32 4).toNat = zeroCnt.toNat + 4 := by
      simp only [BitVec.toNat_add, BitVec.toNat_ofNat]
      omega
    have hne : zeroCnt + BitVec.ofNat 32 4 ≠ 0 := by
      intro h
      rw [h] at hcount
      exact absurd hcount (by simp)
    have htext : dumpWord byte zeroCnt = (['0'], zeroCnt + BitVec.ofNat 32 4) := by
      rw [dumpWord, hskip]
      exact Prod.ext (if_pos hne) rfl
    have hnumber : number ((List.range' 0 4).map byte ++ []) = 0 := number_append_of_zero hzeros
    have hzero : myHexToInt ['0'] = some 0 := by decide
    rw [List.append_nil] at hnumber
    rw [htext, hnumber]
    exact ⟨hzero, by simp, List.cons_ne_nil _ _, hcount.le⟩
  · have hsplit : List.range' 0 4 = List.range' 0 k ++ List.range' k (4 - k) := by
      rw [← Nat.add_sub_cancel' hk.le, ← List.range'_append_1, Nat.zero_add,
        Nat.add_sub_cancel_left]
    have htext : dumpWord byte zeroCnt =
        (((List.range' k (4 - k)).map byte).flatMap byteHex, 0) := by
      rw [dumpWord, hskip, List.flatMap_map, Nat.zero_add]
      rfl
    have hlen : ((List.range' k (4 - k)).map byte).length = 4 - k := by simp
    have hne : (List.range' k (4 - k)).map byte ≠ [] := List.length_pos_iff.1 (by omega)
    have hlength := length_bytes ((List.range' k (4 - k)).map byte)
    rw [htext, hsplit, List.map_append, number_append_of_zero hzeros]
    refine ⟨myHexToInt_bytes hne (by omega), newline_notMem_bytes _, ?_, Nat.zero_le _⟩
    exact List.length_pos_iff.1 (by dsimp only; omega)

theorem bigEndian_read_eq (b : Bytes) (a : Addr) :
    BigEndian.read b a .w4 =
      number ((List.range' 0 4).map fun j => b (a + BitVec.ofNat 32 j)) := by
  have happend : ∀ {m n : ℕ} (x : BitVec m) (y : BitVec n),
      (x ++ y).toNat = x.toNat * 2 ^ n + y.toNat := by
    intro m n x y
    rw [BitVec.toNat_append, ← Nat.shiftLeft_add_eq_or_of_lt y.isLt, Nat.shiftLeft_eq]
  have h0 := (b a).isLt
  have h1 := (b (a + 1#32)).isLt
  have h2 := (b (a + 2#32)).isLt
  have h3 := (b (a + 3#32)).isLt
  apply BitVec.eq_of_toNat_eq
  simp only [BigEndian.read, number, List.range', List.map_cons, List.map_nil, List.foldl_cons,
    List.foldl_nil, happend, BitVec.ofNat_eq_ofNat, BitVec.toNat_add, BitVec.toNat_mul,
    BitVec.toNat_setWidth, BitVec.toNat_ofNat, BitVec.add_zero, Nat.reduceAdd]
  omega

/-- The words of a range. -/
def wordsFrom (b : Bytes) (start : Addr) (n : ℕ) : List Word :=
  (List.range n).map fun k => BigEndian.read b (start + BitVec.ofNat 32 (4 * k)) .w4

theorem wordsFrom_succ (b : Bytes) (start : Addr) (n : ℕ) :
    wordsFrom b start (n + 1) = BigEndian.read b start .w4 :: wordsFrom b (start + 4) n := by
  have hnext : ∀ k,
      start + BitVec.ofNat 32 (4 * (k + 1)) = start + 4 + BitVec.ofNat 32 (4 * k) := by
    intro k
    apply BitVec.eq_of_toNat_eq
    simp only [BitVec.ofNat_eq_ofNat, BitVec.toNat_add, BitVec.toNat_ofNat]
    omega
  rw [wordsFrom, List.range_succ_eq_map, List.map_cons, List.map_map, wordsFrom]
  refine congrArg₂ List.cons (by rw [Nat.mul_zero, BitVec.add_zero]) (List.map_congr_left ?_)
  intro k _
  rw [Function.comp_apply, Nat.succ_eq_add_one, hnext]

theorem dumpLoop_of_not_lt (M : Memory) {stop i : Addr} (h : ¬i < stop) (n : ℕ) (zeroCnt : Word) :
    dumpLoop M stop n i zeroCnt = [] := by
  cases n with
  | zero => rfl
  | succ n => exact if_neg h

/-- **The lines of the loop** are the words that are left.  There are never more zeros counted than
there are addresses below, so that the count does not become zero again. -/
theorem dumpLoop_spec (M : Memory) {stop i : Addr} {n k : ℕ} {zeroCnt : Word}
    (hstop : i.toNat + 4 * (k + 1) = stop.toNat) (hn : k < n)
    (hcnt : zeroCnt.toNat ≤ i.toNat) :
    dumpLoop M stop n i zeroCnt ≠ [] ∧
      ((dumpLoop M stop n i zeroCnt).splitOn '\n').map myHexToInt =
        (wordsFrom (fun a => M.evalDirect8 a) i (k + 1)).map some := by
  have hlt := stop.isLt
  -- `k` more words follow the one at `i`; the last one is written without a line break behind it.
  induction k generalizing n i zeroCnt with
  | zero =>
    cases n with
    | zero => exact absurd hn (Nat.lt_irrefl 0)
    | succ n =>
      obtain ⟨hvalue, hline, hne, -⟩ := dumpWord_spec
        (fun j => M.evalDirect8 (i + BitVec.ofNat 32 j)) (show zeroCnt.toNat + 4 < 2 ^ 32 by omega)
      have hi : i < stop := BitVec.lt_def.2 (by omega)
      have hsub : stop - i = 4 := by
        apply BitVec.eq_of_toNat_eq
        rw [BitVec.toNat_sub_of_le (BitVec.le_of_lt hi)]
        simp only [BitVec.ofNat_eq_ofNat, BitVec.toNat_ofNat]
        omega
      have hend : ¬i + 4 < stop := by
        rw [BitVec.lt_def, BitVec.toNat_add]
        simp only [BitVec.ofNat_eq_ofNat, BitVec.toNat_ofNat]
        omega
      rw [dumpLoop, if_pos hi]
      dsimp only
      rw [if_neg (not_not.2 hsub), dumpLoop_of_not_lt M hend, List.append_nil, List.append_nil,
        List.splitOn_eq_singleton hline, wordsFrom_succ, bigEndian_read_eq]
      exact ⟨hne, by rw [List.map_singleton, hvalue]; rfl⟩
  | succ k ih =>
    cases n with
    | zero => omega
    | succ n =>
      obtain ⟨hvalue, hline, hne, hcount⟩ := dumpWord_spec
        (fun j => M.evalDirect8 (i + BitVec.ofNat 32 j)) (show zeroCnt.toNat + 4 < 2 ^ 32 by omega)
      have hi : i < stop := BitVec.lt_def.2 (by omega)
      have hsub : stop - i ≠ 4 := by
        intro h
        have htoNat := congrArg BitVec.toNat h
        rw [BitVec.toNat_sub_of_le (BitVec.le_of_lt hi)] at htoNat
        simp only [BitVec.ofNat_eq_ofNat, BitVec.toNat_ofNat] at htoNat
        omega
      have hnext : (i + 4).toNat = i.toNat + 4 := by
        rw [BitVec.toNat_add]
        simp only [BitVec.ofNat_eq_ofNat, BitVec.toNat_ofNat]
        omega
      obtain ⟨-, hrest⟩ := ih (n := n) (i := i + 4) (by omega) (by omega)
        (show (dumpWord (fun j => M.evalDirect8 (i + BitVec.ofNat 32 j)) zeroCnt).2.toNat ≤
          (i + 4).toNat by omega)
      rw [dumpLoop, if_pos hi, wordsFrom_succ _ i]
      dsimp only
      rw [if_pos hsub, List.append_assoc, List.singleton_append,
        List.splitOn_append_cons_self_of_not_mem hline, List.map_cons, hrest, hvalue,
        List.map_cons, bigEndian_read_eq]
      exact ⟨List.append_ne_nil_of_left_ne_nil hne _, rfl⟩

/-- In readable memory the bytes are those of the words that are stored. -/
theorem wordsFrom_of_readable {M : Memory} {start stop : Addr} (hstart : start.toNat % 4 = 0)
    (h : ∀ a, start ≤ a → a < stop → ∃ r, M.verifyMemoryarea a = some r ∧ 0 < r.delayr) :
    wordsFrom (fun a => M.evalDirect8 a) start ((stop.toNat - start.toNat) / 4) =
      (List.range ((stop.toNat - start.toNat) / 4)).map fun k =>
        simmemRead32 M.bytes (start + BitVec.ofNat 32 (4 * k)) := by
  have hlt := stop.isLt
  have hbyte : ∀ a, start ≤ a → a < stop → M.evalDirect8 a = target M.bytes a := by
    intro a hle hlt
    obtain ⟨r, hr, hread⟩ := h a hle hlt
    simp [Memory.evalDirect8, hr, Memory.readfunc, hread, target]
  refine List.map_congr_left fun k hk => ?_
  rw [List.mem_range] at hk
  have hword : (start + BitVec.ofNat 32 (4 * k)).toNat = start.toNat + 4 * k := by
    rw [BitVec.toNat_add, BitVec.toNat_ofNat]
    omega
  have hread := simmemRead_eq M.bytes (a := start + BitVec.ofNat 32 (4 * k)) (n := .w4)
    (by rw [hword]; change (start.toNat + 4 * k) % 4 = 0; omega)
  rw [simmemRead] at hread
  rw [hread, bigEndian_read_eq, bigEndian_read_eq]
  refine congrArg number (List.map_congr_left fun j hj => ?_)
  have hj4 : j < 4 := by simpa using List.mem_range'.1 hj
  have hj' : (start + BitVec.ofNat 32 (4 * k) + BitVec.ofNat 32 j).toNat =
      start.toNat + 4 * k + j := by
    rw [BitVec.toNat_add, hword, BitVec.toNat_ofNat]
    omega
  exact hbyte _ (BitVec.le_def.2 (by omega)) (BitVec.lt_def.2 (by omega))

/-- **The round trip**: the lines of a dump are read back as the words of the range, one a line and
in the order of their addresses, and in readable memory these are the words that are stored. -/
theorem hex_round_trip (M : Memory) {start stop : Addr} (hstart : start.toNat % 4 = 0)
    (hstop : stop.toNat % 4 = 0) :
    (lines (dumphex M start stop)).map myHexToInt =
        (wordsFrom (fun a => M.evalDirect8 a) start ((stop.toNat - start.toNat) / 4)).map some ∧
      ((∀ a, start ≤ a → a < stop → ∃ r, M.verifyMemoryarea a = some r ∧ 0 < r.delayr) →
        wordsFrom (fun a => M.evalDirect8 a) start ((stop.toNat - start.toNat) / 4) =
          (List.range ((stop.toNat - start.toNat) / 4)).map fun k =>
            simmemRead32 M.bytes (start + BitVec.ofNat 32 (4 * k))) := by
  refine ⟨?_, wordsFrom_of_readable hstart⟩
  by_cases hlt : start < stop
  · have hlt' := BitVec.lt_def.1 hlt
    have hsub : (stop - start).toNat = stop.toNat - start.toNat :=
      BitVec.toNat_sub_of_le (BitVec.le_of_lt hlt)
    obtain ⟨k, hk⟩ : ∃ k, (stop.toNat - start.toNat) / 4 = k + 1 :=
      Nat.exists_eq_add_of_le' (by omega)
    obtain ⟨hne, hlines⟩ := @dumpLoop_spec M stop start (k + 1 + 1) k 0 (by omega) (by omega)
      (Nat.zero_le _)
    rw [dumphex, hsub, hk, lines, if_neg hne, hlines]
  · have hnone : (stop.toNat - start.toNat) / 4 = 0 := by
      rw [BitVec.lt_def] at hlt
      omega
    rw [dumphex, dumpLoop_of_not_lt M hlt, hnone]
    rfl

/-- A memory with a word of zeros between two others. -/
def dumpedMemory : Memory where
  areas := [⟨0, 0, true, 1, 1⟩]
  bytes := fun a => if a = 0 then 0x0a else if a = 11 then 0x80 else 0

theorem hex_round_trip_zeros :
    (lines (dumphex dumpedMemory 0 12)).map myHexToInt =
        (wordsFrom (fun a => dumpedMemory.evalDirect8 a) 0 3).map some ∧
      ((∀ a : Addr, 0 ≤ a → a < 12 →
          ∃ r, dumpedMemory.verifyMemoryarea a = some r ∧ 0 < r.delayr) →
        wordsFrom (fun a => dumpedMemory.evalDirect8 a) 0 3 =
          (List.range 3).map fun k =>
            simmemRead32 dumpedMemory.bytes (0 + BitVec.ofNat 32 (4 * k))) :=
  hex_round_trip dumpedMemory (by decide) (by decide)

/-- The three lines. -/
example : dumphex dumpedMemory 0 12 = "0a\n0\n80000000".toList := by decide

end Baton
end Or1ksim
