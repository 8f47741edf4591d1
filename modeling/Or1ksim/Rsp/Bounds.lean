import Or1ksim.Rsp.Memory

/-!
# Bounds of the packet buffer

Which packets the memory requests of the server answer without leaving the packet buffer.

* `readLoop_error_iff` — a read leaves the buffer once 141 bytes are read;
* `rspReadMem_ok_iff` — a read of a length whose double is not an `int` is not cut short;
* `memory_requests_ok_iff` — **which packets stay in the buffer**.
-/

namespace Or1ksim
namespace Rsp

open Scan Loader

variable {M : Memory} {buf : RspBuf} {addr : Addr} {n off : ℕ}

theorem exists_ok_iff {α : Type} (x : Except Fault α) :
    (∃ r, x = .ok r) ↔ ¬∃ e, x = .error e := by
  cases x <;> simp

/-! ### Reads -/

/-- How many bytes have room in a packet. -/
def maxRead : ℕ := (gdbBufMax - 1) / 2

theorem readLoop_succ (data : List Byte) (hoff : off < maxRead)
    (hin : mapped M (addr + BitVec.ofNat 32 off) = true) :
    ∃ data', readLoop M addr (n + 1) off data = readLoop M addr n (off + 1) data' := by
  have hmax : gdbBufMax = 281 ∧ maxRead = 140 := ⟨rfl, rfl⟩
  rw [readLoop, if_neg (by rw [isNone_iff, hin]; decide)]
  dsimp only
  rw [writeAt_of_lt _ (by omega), ok_bind, writeAt_of_lt _ (by omega), ok_bind]
  exact ⟨_, rfl⟩

/-- The loop leaves the buffer in the first round that has no room. -/
theorem readLoop_error_iff (data : List Byte) (hoff : off ≤ maxRead) :
    (∃ e, readLoop M addr n off data = .error e) ↔
      maxRead < off + n ∧
        ∀ j, off ≤ j → j ≤ maxRead → mapped M (addr + BitVec.ofNat 32 j) = true := by
  induction n generalizing off data with
  | zero => exact iff_of_false (fun ⟨e, he⟩ => nomatch he) (fun h => by omega)
  | succ n ih =>
    cases hin : mapped M (addr + BitVec.ofNat 32 off) with
    | false =>
      rw [readLoop, if_pos ((isNone_iff M _).2 hin)]
      refine iff_of_false (fun ⟨e, he⟩ => nomatch he) fun h => ?_
      rw [h.2 off le_rfl hoff] at hin
      cases hin
    | true =>
      -- the byte after the last that has room is written outside the buffer
      rcases Nat.lt_or_eq_of_le hoff with hlt | rfl
      · obtain ⟨data', hnext⟩ := readLoop_succ (n := n) data hlt hin
        rw [hnext, ih data' hlt]
        refine and_congr (by omega) ⟨fun h j hj hle => ?_, fun h j hj => h j (by omega)⟩
        rcases Nat.lt_or_eq_of_le hj with hlt | rfl
        · exact h j hlt hle
        · exact hin
      · refine iff_of_true ?_ ⟨by omega, fun j hj hle => ?_⟩
        · rw [readLoop, if_neg (by rw [isNone_iff, hin]; decide)]
          exact ⟨.write (maxRead * 2 + 1), rfl⟩
        · rw [Nat.le_antisymm hle hj]
          exact hin

theorem lt_of_writeAt {data data' : List Byte} {i : ℕ} {c : Byte}
    (h : writeAt data i c = .ok data') : i < gdbBufMax := by
  unfold writeAt at h
  split at h
  case isTrue hlt => exact hlt
  case isFalse => cases h

/-- A read that comes to its end has left room for the null character. -/
theorem readLoop_off_le {data data' : List Byte} {off' : ℕ} (hoff : off ≤ maxRead)
    (h : readLoop M addr n off data = .ok (some (data', off'))) : off' ≤ maxRead := by
  induction n generalizing off data with
  | zero =>
    obtain ⟨-, rfl⟩ := Prod.ext_iff.1 (Option.some.inj (Except.ok.inj h))
    exact hoff
  | succ n ih =>
    rw [readLoop] at h
    split at h
    · cases h
    · obtain ⟨_, -, h⟩ := Runs.bind_eq_ok_iff.1 h
      obtain ⟨_, hwrite, h⟩ := Runs.bind_eq_ok_iff.1 h
      have hlt := lt_of_writeAt hwrite
      have hmax : gdbBufMax = 281 ∧ maxRead = 140 := ⟨rfl, rfl⟩
      exact ih (by omega) h

/-- Only a length whose double overflows is longer than a packet has room for. -/
theorem readLength_le_iff (len : Word) : (readLength len).toNat ≤ maxRead ↔ len.toInt < 2 ^ 30 := by
  have hmax : gdbBufMax = 281 ∧ maxRead = 140 := ⟨rfl, rfl⟩
  have hlt := len.isLt
  have hdouble : (len * 2).toNat = len.toNat * 2 % 2 ^ 32 := BitVec.toNat_mul ..
  rw [readLength, BitVec.toInt_eq_toNat_cond, BitVec.toInt_eq_toNat_cond, hdouble]
  split_ifs <;> omega

theorem rspReadMem_error_iff {len : Word} (hscan : scanAddrLen 'm' buf.text = some (addr, len)) :
    (∃ e, rspReadMem M buf = .error e) ↔
      ∃ e, readLoop M addr (readLength len).toNat 0 buf.data = .error e := by
  rw [rspReadMem, hscan]
  dsimp only
  cases hloop : readLoop M addr (readLength len).toNat 0 buf.data with
  | error e => exact iff_of_true ⟨e, rfl⟩ ⟨e, rfl⟩
  | ok r =>
    refine iff_of_false (fun ⟨e, he⟩ => ?_) (fun ⟨e, he⟩ => nomatch he)
    cases r with
    | none => cases he
    | some r =>
      have hmax : gdbBufMax = 281 ∧ maxRead = 140 := ⟨rfl, rfl⟩
      have hle := readLoop_off_le (Nat.zero_le maxRead) hloop
      rw [ok_bind] at he
      dsimp only at he
      rw [writeAt_of_lt _ (by omega)] at he
      cases he

/-- Reads stay in the buffer unless the double of the length overflows and there is memory for
one byte more than a packet has room for. -/
theorem rspReadMem_ok_iff (M : Memory) (buf : RspBuf) :
    (∃ r, rspReadMem M buf = .ok r) ↔
      ∀ addr len, scanAddrLen 'm' buf.text = some (addr, len) →
        len.toInt < 2 ^ 30 ∨ ∃ j ≤ maxRead, mapped M (addr + BitVec.ofNat 32 j) = false := by
  cases hscan : scanAddrLen 'm' buf.text with
  | none =>
    refine iff_of_true ⟨e01, ?_⟩ fun _ _ h => nomatch h
    rw [rspReadMem, hscan]
  | some r =>
    obtain ⟨addr, len⟩ := r
    have herror := rspReadMem_error_iff (M := M) hscan
    rw [readLoop_error_iff _ (Nat.zero_le _), Nat.zero_add, ← not_le, readLength_le_iff] at herror
    rw [exists_ok_iff, herror]
    constructor
    · rintro h _ _ ⟨rfl, rfl⟩
      by_contra hnot
      refine h ⟨fun hlt => hnot (.inl hlt), fun j _ hj => ?_⟩
      rw [← Bool.not_eq_false]
      exact fun hout => hnot (.inr ⟨j, hj, hout⟩)
    · rintro h ⟨hlen, hin⟩
      rcases h addr len rfl with hlt | ⟨j, hj, hout⟩
      · exact hlen hlt
      · rw [hin j (Nat.zero_le j) hj] at hout
        cases hout

/-! ### Writes -/

/-- Writes stay in the buffer when their packet has a colon. -/
theorem rspWriteMem_ok_iff (M : Memory) (buf : RspBuf) :
    (∃ r, rspWriteMem M buf = .ok r) ↔
      (scanAddrLen 'M' buf.text).isSome = true → chr ':' ∈ buf.packet := by
  cases hscan : scanAddrLen 'M' buf.text with
  | none =>
    refine iff_of_true ⟨(M, e01), ?_⟩ fun h => absurd h Bool.false_ne_true
    rw [rspWriteMem, hscan]
  | some r =>
    rw [Option.isSome_some, imp_iff_right rfl]
    refine ⟨?_, fun hcolon => ⟨_, rspWriteMem_of_scan hscan hcolon⟩⟩
    rintro ⟨t, ht⟩
    by_contra hcolon
    obtain ⟨e, he⟩ := rspWriteMem_of_notMem (M := M) hscan hcolon
    cases he.symm.trans ht

theorem rspWriteMemBin_ok_iff (M : Memory) (buf : RspBuf) :
    (∃ r, rspWriteMemBin M buf = .ok r) ↔
      (scanAddrLen 'X' buf.text).isSome = true → chr ':' ∈ buf.packet := by
  cases hscan : scanAddrLen 'X' buf.text with
  | none =>
    refine iff_of_true ⟨(M, e01), ?_⟩ fun h => absurd h Bool.false_ne_true
    rw [rspWriteMemBin, hscan]
  | some r =>
    rw [Option.isSome_some, imp_iff_right rfl]
    refine ⟨?_, fun hcolon => ⟨_, rspWriteMemBin_of_scan hscan hcolon⟩⟩
    rintro ⟨t, ht⟩
    by_contra hcolon
    obtain ⟨e, he⟩ := rspWriteMemBin_of_notMem (M := M) hscan hcolon
    cases he.symm.trans ht

/-- **Which packets stay in the buffer**: a read whose doubled length is an `int`, or that comes to
an address outside memory in time, and a write with a colon; and any packet whose header is not
understood. -/
theorem memory_requests_ok_iff (M : Memory) (buf : RspBuf) :
    ((∃ r, rspReadMem M buf = .ok r) ↔
      ∀ addr len, scanAddrLen 'm' buf.text = some (addr, len) →
        len.toInt < 2 ^ 30 ∨ ∃ j ≤ maxRead, mapped M (addr + BitVec.ofNat 32 j) = false) ∧
    ((∃ r, rspWriteMem M buf = .ok r) ↔
      ((scanAddrLen 'M' buf.text).isSome = true → chr ':' ∈ buf.packet)) ∧
    ((∃ r, rspWriteMemBin M buf = .ok r) ↔
      ((scanAddrLen 'X' buf.text).isSome = true → chr ':' ∈ buf.packet)) :=
  ⟨rspReadMem_ok_iff M buf, rspWriteMem_ok_iff M buf, rspWriteMemBin_ok_iff M buf⟩

/-- A write without a colon. -/
theorem memory_requests_no_colon :
    ¬∀ M buf, (∃ r, rspReadMem M buf = .ok r) ∧ (∃ r, rspWriteMem M buf = .ok r) ∧
      ∃ r, rspWriteMemBin M buf = .ok r := by
  intro h
  have hrun : rspWriteMem (Memory.flat fun _ => 0)
      (.ofPacket ("M0,0".toList.map chr) (by decide)) = .error (.read 5) := rfl
  obtain ⟨r, hr⟩ := (h _ _).2.1
  exact absurd (hrun.symm.trans hr) (by simp)

end Rsp
end Or1ksim
