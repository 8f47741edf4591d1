import Mathlib.Algebra.Group.Nat.Even
import Mathlib.Data.List.GetD
import Mathlib.Logic.Function.Basic
import Mathlib.Tactic.Ring

/-!
# Reading from the board

`Baton_API.cpp`: the memory of the board is read through a FIFO, in chunks of the size of a local
buffer.  The driver of the FIFO is not part of the program.

* `Driver`, `State` — the driver, and what the program changes;
* `receiveChunk`, `batonReceive` — one request and its answer, and the loop over them;
* `delivered`, `words_batonReceive` — what the driver delivers for these requests;
* `lastAt`, `buf_batonReceive` — every chunk is stored at the start of the buffer, so that the later
  ones overwrite it;
* `received_iff` — **everything arrives** if it fits into one chunk, and else by coincidence only.
-/

namespace Or1ksim
namespace Baton

/-- `WORD`, the unit of the FIFO. -/
abbrev FifoWord := BitVec 16

/-- `bufSize`, the value of `size`: the length of the local buffers. -/
def bufSize : ℕ := 1024

/-- `SMIMS_VEXT2_AppFIFOWriteData` and `SMIMS_VEXT2_AppFIFOReadData`: whether they succeed, the
words that are read, and what becomes of the device. -/
structure Driver (D : Type) where
  write : List FifoWord → D → Bool × D
  read : ℕ → D → Bool × List FifoWord × D

/-- What is printed. -/
inductive Message where
  /-- "Write data to FPGA error" -/
  | writeError
  /-- "read from fifo error" -/
  | readError
deriving DecidableEq

/-- The device, the buffers, all words that have been read, and the messages, the latest first. -/
structure State (D : Type) where
  dev : D
  buf : ℕ → FifoWord
  readBuffer : ℕ → FifoWord
  words : List FifoWord
  messages : List Message

/-- The words of a request to read `n` words from `addr` on. -/
def request (coreID addr : ℤ) (n : ℕ) : List FifoWord :=
  [0xfff0, BitVec.ofInt 16 coreID, 0xfff2, BitVec.ofInt 16 addr, BitVec.ofNat 16 (n * 2)]

variable {D : Type}

/-- Words at the start of a buffer. -/
def fill (buf : ℕ → FifoWord) (ws : List FifoWord) : ℕ → FifoWord := fun i => ws.getD i (buf i)

/-- The loop that copies pairs of words from `ReadBuffer` to the start of `buf`. -/
def copyPairs (readBuffer : ℕ → FifoWord) : ℕ → (ℕ → FifoWord) → ℕ → FifoWord
  | 0, buf => buf
  | k + 1, buf =>
    Function.update (Function.update (copyPairs readBuffer k buf) (2 * k) (readBuffer (2 * k)))
      (2 * k + 1) (readBuffer (2 * k + 1))

/-- A request is written, and its answer is read into `ReadBuffer`. -/
def receiveChunk (drv : Driver D) (coreID addr : ℤ) (n : ℕ) (s : State D) : Bool × State D :=
  let w := drv.write (request coreID addr n) s.dev
  let r := drv.read n w.2
  let messages := if w.1 then s.messages else .writeError :: s.messages
  (r.1, { s with
    dev := r.2.2
    readBuffer := fill s.readBuffer r.2.1
    words := s.words ++ r.2.1
    messages := if r.1 then messages else .readError :: messages })

/-- `n` words are copied from `ReadBuffer`. -/
def State.copy (n : ℕ) (s : State D) : State D :=
  { s with buf := copyPairs s.readBuffer ((n + 1) / 2) s.buf }

/-- `Baton_Receive` with `dataSize` words left, to be read from `startAddr + addr` on. -/
def batonReceive (drv : Driver D) (coreID startAddr : ℤ) (addr dataSize : ℕ) (s : State D) :
    State D :=
  if bufSize < dataSize then
    let r := receiveChunk drv coreID (startAddr + addr) bufSize s
    batonReceive drv coreID startAddr (addr + bufSize / 2) (dataSize - bufSize) (r.2.copy bufSize)
  else
    let r := receiveChunk drv coreID (startAddr + addr) dataSize s
    if r.1 then r.2.copy dataSize else r.2
termination_by dataSize
decreasing_by
  rename_i h
  rw [bufSize] at h ⊢
  omega

/-- The words that the driver delivers for the requests. -/
def delivered (drv : Driver D) (coreID startAddr : ℤ) (addr dataSize : ℕ) (d : D) : List FifoWord :=
  if bufSize < dataSize then
    let r := drv.read bufSize (drv.write (request coreID (startAddr + addr) bufSize) d).2
    r.2.1 ++ delivered drv coreID startAddr (addr + bufSize / 2) (dataSize - bufSize) r.2.2
  else (drv.read dataSize (drv.write (request coreID (startAddr + addr) dataSize) d).2).2.1
termination_by dataSize
decreasing_by
  rename_i h
  rw [bufSize] at h ⊢
  omega

/-- Every read gives the number of words that is asked for. -/
def Driver.Reads (drv : Driver D) : Prop :=
  ∀ n d, (drv.read n d).1 = true ∧ (drv.read n d).2.1.length = n

/-! ### One chunk -/

theorem copyPairs_apply (readBuffer buf : ℕ → FifoWord) (k i : ℕ) :
    copyPairs readBuffer k buf i = if i < 2 * k then readBuffer i else buf i := by
  induction k with
  | zero => rfl
  | succ k ih =>
    rw [copyPairs]
    by_cases hodd : i = 2 * k + 1
    · subst hodd
      rw [Function.update_self, if_pos (by omega)]
    · rw [Function.update_of_ne hodd]
      by_cases heven : i = 2 * k
      · subst heven
        rw [Function.update_self, if_pos (by omega)]
      · rw [Function.update_of_ne heven, ih]
        exact if_congr (by omega) rfl rfl

/-- The answer of a driver that reads is copied to the start of the buffer. -/
theorem buf_copy {drv : Driver D} (hdrv : drv.Reads) (coreID addr : ℤ) {n : ℕ} (hn : Even n)
    (s : State D) (i : ℕ) :
    ((receiveChunk drv coreID addr n s).2.copy n).buf i =
      if i < n then (drv.read n (drv.write (request coreID addr n) s.dev).2).2.1.getD i 0
      else s.buf i := by
  obtain ⟨-, hlength⟩ := hdrv n (drv.write (request coreID addr n) s.dev).2
  have hpairs : 2 * ((n + 1) / 2) = n := by
    obtain ⟨k, rfl⟩ := hn
    omega
  rw [State.copy, receiveChunk]
  dsimp only
  rw [copyPairs_apply, hpairs]
  split_ifs with hi
  · rw [← hlength] at hi
    rw [fill, List.getD_eq_getElem _ _ hi, List.getD_eq_getElem _ _ hi]
  · rfl

/-! ### All chunks -/

theorem batonReceive_long (drv : Driver D) (coreID startAddr : ℤ) (addr : ℕ) {dataSize : ℕ}
    (h : bufSize < dataSize) (s : State D) :
    batonReceive drv coreID startAddr addr dataSize s =
      batonReceive drv coreID startAddr (addr + bufSize / 2) (dataSize - bufSize)
        ((receiveChunk drv coreID (startAddr + addr) bufSize s).2.copy bufSize) := by
  rw [batonReceive, if_pos h]

theorem batonReceive_short {drv : Driver D} (hdrv : drv.Reads) (coreID startAddr : ℤ) (addr : ℕ)
    {dataSize : ℕ} (h : ¬bufSize < dataSize) (s : State D) :
    batonReceive drv coreID startAddr addr dataSize s =
      (receiveChunk drv coreID (startAddr + addr) dataSize s).2.copy dataSize := by
  rw [batonReceive, if_neg h]
  exact if_pos (hdrv _ _).1

theorem delivered_long (drv : Driver D) (coreID startAddr : ℤ) (addr : ℕ) {dataSize : ℕ}
    (h : bufSize < dataSize) (d : D) :
    delivered drv coreID startAddr addr dataSize d =
      (drv.read bufSize (drv.write (request coreID (startAddr + addr) bufSize) d).2).2.1 ++
        delivered drv coreID startAddr (addr + bufSize / 2) (dataSize - bufSize)
          (drv.read bufSize (drv.write (request coreID (startAddr + addr) bufSize) d).2).2.2 := by
  rw [delivered, if_pos h]

theorem delivered_short (drv : Driver D) (coreID startAddr : ℤ) (addr : ℕ) {dataSize : ℕ}
    (h : ¬bufSize < dataSize) (d : D) :
    delivered drv coreID startAddr addr dataSize d =
      (drv.read dataSize (drv.write (request coreID (startAddr + addr) dataSize) d).2).2.1 := by
  rw [delivered, if_neg h]

theorem sub_bufSize_lt {dataSize : ℕ} (h : bufSize < dataSize) : dataSize - bufSize < dataSize :=
  Nat.sub_lt (Nat.zero_lt_of_lt h) (by decide)

theorem length_delivered {drv : Driver D} (hdrv : drv.Reads) (coreID startAddr : ℤ)
    (addr dataSize : ℕ) (d : D) :
    (delivered drv coreID startAddr addr dataSize d).length = dataSize := by
  induction dataSize using Nat.strongRecOn generalizing addr d with
  | ind dataSize ih =>
    by_cases hlong : bufSize < dataSize
    · rw [delivered_long drv coreID startAddr addr hlong, List.length_append,
        ih _ (sub_bufSize_lt hlong), (hdrv _ _).2]
      omega
    · rw [delivered_short drv coreID startAddr addr hlong]
      exact (hdrv _ _).2

/-- The words that are read are those that the driver delivers. -/
theorem words_batonReceive {drv : Driver D} (hdrv : drv.Reads) (coreID startAddr : ℤ)
    (addr dataSize : ℕ) (s : State D) :
    (batonReceive drv coreID startAddr addr dataSize s).words =
      s.words ++ delivered drv coreID startAddr addr dataSize s.dev := by
  induction dataSize using Nat.strongRecOn generalizing addr s with
  | ind dataSize ih =>
    by_cases hlong : bufSize < dataSize
    · rw [batonReceive_long drv coreID startAddr addr hlong, ih _ (sub_bufSize_lt hlong),
        delivered_long drv coreID startAddr addr hlong, ← List.append_assoc]
      rfl
    · rw [batonReceive_short hdrv coreID startAddr addr hlong,
        delivered_short drv coreID startAddr addr hlong]
      rfl

/-- The number of the word that is stored last at `i`, among `dataSize` words. -/
def lastAt (dataSize i : ℕ) : ℕ := i + bufSize * ((dataSize - 1 - i) / bufSize)

theorem lastAt_of_le {dataSize i : ℕ} (hi : i < dataSize) (hle : dataSize ≤ bufSize + i) :
    lastAt dataSize i = i := by
  rw [lastAt, Nat.div_eq_of_lt (by omega), Nat.mul_zero, Nat.add_zero]

theorem lastAt_of_lt {dataSize i : ℕ} (hlt : bufSize + i < dataSize) :
    lastAt dataSize i = bufSize + lastAt (dataSize - bufSize) i := by
  have hsub : dataSize - 1 - i = dataSize - bufSize - 1 - i + bufSize := by omega
  rw [lastAt, lastAt, hsub, Nat.add_div_right _ (by decide)]
  ring

/-- **What is in the buffer at the end**: its first words are those of the last chunk and of the one
before that, and the rest is as it was. -/
theorem buf_batonReceive {drv : Driver D} (hdrv : drv.Reads) (coreID startAddr : ℤ)
    (addr : ℕ) {dataSize : ℕ} (heven : Even dataSize) (s : State D) (i : ℕ) :
    (batonReceive drv coreID startAddr addr dataSize s).buf i =
      if i < dataSize ∧ i < bufSize then
        (delivered drv coreID startAddr addr dataSize s.dev).getD (lastAt dataSize i) 0
      else s.buf i := by
  induction dataSize using Nat.strongRecOn generalizing addr s with
  | ind dataSize ih =>
    by_cases hlong : bufSize < dataSize
    · have hrest : Even (dataSize - bufSize) :=
        (Nat.even_sub hlong.le).2 (iff_of_true heven (by decide))
      have hlength := (hdrv bufSize
        (drv.write (request coreID (startAddr + addr) bufSize) s.dev).2).2
      rw [batonReceive_long drv coreID startAddr addr hlong, ih _ (sub_bufSize_lt hlong) _ hrest,
        buf_copy hdrv _ _ (by decide), delivered_long drv coreID startAddr addr hlong]
      -- The first chunk fills the buffer; what the chunks after it write there stays instead.
      by_cases hi : i < bufSize
      · rw [if_pos hi, if_pos (show i < dataSize ∧ i < bufSize from ⟨hi.trans hlong, hi⟩)]
        by_cases hlast : i < dataSize - bufSize
        · have hlastAt := lastAt_of_lt (show bufSize + i < dataSize by omega)
          rw [if_pos ⟨hlast, hi⟩, hlastAt, List.getD_append_right _ _ _ _ (by omega), hlength,
            Nat.add_sub_cancel_left]
          rfl
        · rw [if_neg fun h => hlast h.1, lastAt_of_le (by omega) (by omega),
            List.getD_append _ _ _ _ (by omega)]
      · rw [if_neg fun h => hi h.2, if_neg hi, if_neg fun h => hi h.2]
    · rw [batonReceive_short hdrv coreID startAddr addr hlong, buf_copy hdrv _ _ heven,
        delivered_short drv coreID startAddr addr hlong]
      by_cases hi : i < dataSize
      · rw [if_pos hi, if_pos (show i < dataSize ∧ i < bufSize from ⟨hi, by omega⟩),
          lastAt_of_le hi (by omega)]
      · rw [if_neg hi, if_neg fun h => hi h.1]

/-- **Everything arrives**: the buffer holds all words that have been read, in order, and nothing
beyond them is written, exactly if each word of the first chunk is the same as the last one that is
stored in its place, and the words of the other chunks are in the buffer before. -/
theorem received_iff {drv : Driver D} (hdrv : drv.Reads) (coreID startAddr : ℤ) {dataSize : ℕ}
    (heven : Even dataSize) {s : State D} (hwords : s.words = []) :
    ((batonReceive drv coreID startAddr 0 dataSize s).words.length = dataSize ∧
        (∀ i < dataSize, (batonReceive drv coreID startAddr 0 dataSize s).buf i =
          (batonReceive drv coreID startAddr 0 dataSize s).words.getD i 0) ∧
        ∀ i, dataSize ≤ i → (batonReceive drv coreID startAddr 0 dataSize s).buf i = s.buf i) ↔
      ∀ i < dataSize, if i < bufSize then
        (delivered drv coreID startAddr 0 dataSize s.dev).getD i 0 =
          (delivered drv coreID startAddr 0 dataSize s.dev).getD (lastAt dataSize i) 0
      else s.buf i = (delivered drv coreID startAddr 0 dataSize s.dev).getD i 0 := by
  rw [words_batonReceive hdrv, hwords, List.nil_append]
  constructor
  · rintro ⟨-, hall, -⟩ i hi
    have hbuf := hall i hi
    rw [buf_batonReceive hdrv coreID startAddr 0 heven] at hbuf
    split_ifs with hfirst
    · rw [if_pos ⟨hi, hfirst⟩] at hbuf
      exact hbuf.symm
    · rwa [if_neg fun h => hfirst h.2] at hbuf
  · intro hall
    refine ⟨length_delivered hdrv .., fun i hi => ?_, fun i hi => ?_⟩
    · have hbuf := hall i hi
      rw [buf_batonReceive hdrv coreID startAddr 0 heven]
      split_ifs at hbuf with hfirst
      · rw [if_pos ⟨hi, hfirst⟩]
        exact hbuf.symm
      · rwa [if_neg fun h => hfirst h.2]
    · rw [buf_batonReceive hdrv coreID startAddr 0 heven, if_neg fun h => by omega]

/-- A board whose memory is erased. -/
def erasedDriver : Driver Unit where
  write := fun _ d => (true, d)
  read := fun n d => (true, List.replicate n 0xffff, d)

theorem erasedDriver_reads : erasedDriver.Reads := fun _ _ => ⟨rfl, List.length_replicate ..⟩

/-- An erased buffer. -/
def erasedState : State Unit := ⟨(), fun _ => 0xffff, fun _ => 0, [], []⟩

theorem delivered_erasedDriver (coreID startAddr : ℤ) (addr dataSize : ℕ) :
    delivered erasedDriver coreID startAddr addr dataSize () = List.replicate dataSize 0xffff := by
  induction dataSize using Nat.strongRecOn generalizing addr with
  | ind dataSize ih =>
    by_cases hlong : bufSize < dataSize
    · rw [delivered_long erasedDriver coreID startAddr addr hlong, ih _ (sub_bufSize_lt hlong)]
      change List.replicate _ _ ++ _ = _
      rw [List.replicate_append_replicate, Nat.add_sub_cancel' hlong.le]
    · rw [delivered_short erasedDriver coreID startAddr addr hlong]
      rfl

/-- Three chunks of erased memory arrive in an erased buffer. -/
theorem received_iff_erased :
    (batonReceive erasedDriver 0 0 0 2050 erasedState).words.length = 2050 ∧
      (∀ i < 2050, (batonReceive erasedDriver 0 0 0 2050 erasedState).buf i =
        (batonReceive erasedDriver 0 0 0 2050 erasedState).words.getD i 0) ∧
      ∀ i, 2050 ≤ i →
        (batonReceive erasedDriver 0 0 0 2050 erasedState).buf i = erasedState.buf i := by
  refine (received_iff erasedDriver_reads 0 0 (by decide) rfl).2 fun i hi => ?_
  have hword : ∀ j < 2050, (List.replicate 2050 (0xffff : FifoWord)).getD j 0 = 0xffff := by
    intro j hj
    rw [List.getD_eq_getElem _ _ (by rwa [List.length_replicate]), List.getElem_replicate]
  have hlast : lastAt 2050 i < 2050 := by
    have hle := Nat.mul_div_le (2050 - 1 - i) bufSize
    unfold lastAt
    omega
  rw [delivered_erasedDriver, hword i hi, hword _ hlast]
  split <;> rfl

/-- A device that counts. -/
def countingDriver : Driver ℕ where
  write := fun _ d => (true, d)
  read := fun n d => (true, (List.range' d n).map (BitVec.ofNat 16), d + n)

theorem countingDriver_reads : countingDriver.Reads :=
  fun n d => ⟨rfl, by simp [countingDriver]⟩

/-- The state before a transfer. -/
def emptyState : State ℕ := ⟨0, fun _ => 0, fun _ => 0, [], []⟩

theorem delivered_countingDriver (coreID startAddr : ℤ) (addr dataSize d : ℕ) :
    delivered countingDriver coreID startAddr addr dataSize d =
      (List.range' d dataSize).map (BitVec.ofNat 16) := by
  induction dataSize using Nat.strongRecOn generalizing addr d with
  | ind dataSize ih =>
    by_cases hlong : bufSize < dataSize
    · rw [delivered_long countingDriver coreID startAddr addr hlong, ih _ (sub_bufSize_lt hlong)]
      simp only [countingDriver]
      rw [← List.map_append, List.range'_append_1, Nat.add_sub_cancel' hlong.le]
    · rw [delivered_short countingDriver coreID startAddr addr hlong]
      rfl

/-- **A second chunk overwrites the first one**: of 1026 words the first is 0, and the buffer starts
with the last two. -/
theorem second_chunk_overwrites :
    countingDriver.Reads ∧
      (batonReceive countingDriver 0 0 0 1026 emptyState).words.getD 0 0 = 0 ∧
      (batonReceive countingDriver 0 0 0 1026 emptyState).buf 0 = 1024 := by
  refine ⟨countingDriver_reads, ?_, ?_⟩
  · rw [words_batonReceive countingDriver_reads, delivered_countingDriver]
    rfl
  · rw [buf_batonReceive countingDriver_reads 0 0 0 (by decide), if_pos (by decide),
      delivered_countingDriver, lastAt_of_lt (by decide), lastAt_of_le (by decide) (by decide)]
    simp [bufSize, emptyState]

end Baton
end Or1ksim
