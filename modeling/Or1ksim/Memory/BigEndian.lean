import Or1ksim.Memory.Area

/-!
# Simulated memory as a big-endian array

The accessors of `Memory.Simmem` each move the address in their own way.  Seen from the target,
they are the accesses of an array of bytes in big-endian order.

* `BigEndian.read`, `BigEndian.write` — that array;
* `target` — the array a byte store stands for: its byte reads;
* `simmem_refines` — **every sequence of aligned accesses** reads what the array reads.
-/

namespace Or1ksim

/-! ### Big-endian arrays -/

namespace BigEndian

/-- The number in `n` bytes from `a` on, the first byte being the most significant one. -/
def read (b : Bytes) (a : Addr) : Width → Word
  | .w1 => (b a).setWidth 32
  | .w2 => (b a ++ b (a + 1#32)).setWidth 32
  | .w4 => b a ++ b (a + 1#32) ++ b (a + 2#32) ++ b (a + 3#32)

/-- Put a number into `n` bytes from `a` on, and leave the other bytes. -/
def write (b : Bytes) (a : Addr) (v : Word) : Width → Bytes
  | .w1 => fun c => if c = a then v.extractLsb' 0 8 else b c
  | .w2 => fun c =>
    if c = a then v.extractLsb' 8 8
    else if c = a + 1#32 then v.extractLsb' 0 8
    else b c
  | .w4 => fun c =>
    if c = a then v.extractLsb' 24 8
    else if c = a + 1#32 then v.extractLsb' 16 8
    else if c = a + 2#32 then v.extractLsb' 8 8
    else if c = a + 3#32 then v.extractLsb' 0 8
    else b c

theorem write_of_outside (b : Bytes) (a : Addr) (v : Word) (n : Width) {c : Addr}
    (h : ∀ i < n.bytes, c ≠ a + BitVec.ofNat 32 i) : write b a v n c = b c := by
  have h0 : 0 < n.bytes → c ≠ a := fun hn => by simpa using h 0 hn
  cases n with
  | w1 => simp [write, h0 (by decide)]
  | w2 => simp [write, h0 (by decide), h 1 (by decide)]
  | w4 => simp [write, h0 (by decide), h 1 (by decide), h 2 (by decide), h 3 (by decide)]

end BigEndian

/-! ### Accesses -/

/-- `simmem_read8`, `simmem_read16`, `simmem_read32`. -/
def simmemRead (m : Bytes) (a : Addr) : Width → Word
  | .w1 => (simmemRead8 m a).setWidth 32
  | .w2 => (simmemRead16 m a).setWidth 32
  | .w4 => simmemRead32 m a

/-- `simmem_write8`, `simmem_write16`, `simmem_write32`. -/
def simmemWrite (m : Bytes) (a : Addr) (v : Word) : Width → Bytes
  | .w1 => simmemWrite8 m a (v.setWidth 8)
  | .w2 => simmemWrite16 m a (v.setWidth 16)
  | .w4 => simmemWrite32 m a v

/-- The byte array that the target sees. -/
def target (m : Bytes) : Bytes := fun a => simmemRead8 m a

theorem hostByte_injective {a b : Addr} (h : hostByte a = hostByte b) : a = b := by
  have hnat := congrArg BitVec.toNat h
  rw [toNat_hostByte, toNat_hostByte] at hnat
  apply BitVec.eq_of_toNat_eq
  omega

theorem hostByte_eq_iff {a b : Addr} : hostByte a = hostByte b ↔ a = b :=
  ⟨hostByte_injective, congrArg hostByte⟩

theorem hostByte_even {a : Addr} (ha : a.toNat % 2 = 0) :
    hostByte a = (a ^^^ 2#32) + 1#32 ∧ hostByte (a + 1#32) = a ^^^ 2#32 := by
  have hlt := a.isLt
  constructor <;> apply BitVec.eq_of_toNat_eq
  · rw [toNat_hostByte, BitVec.toNat_add, toNat_xor_two ha, BitVec.toNat_ofNat]
    omega
  · rw [toNat_hostByte, toNat_xor_two ha, BitVec.toNat_add, BitVec.toNat_ofNat]
    omega

theorem hostByte_add {a : Addr} (ha : a.toNat % 4 = 0) {i : ℕ} (hi : i < 4) :
    hostByte (a + BitVec.ofNat 32 i) = a + BitVec.ofNat 32 (3 - i) := by
  apply BitVec.eq_of_toNat_eq
  rw [toNat_hostByte, toNat_add_lt ha hi, toNat_add_lt ha (by omega)]
  omega

theorem simmemRead_eq (m : Bytes) {a : Addr} {n : Width} (ha : a.toNat % n.bytes = 0) :
    simmemRead m a n = BigEndian.read (target m) a n := by
  cases n with
  | w1 => rfl
  | w2 =>
    obtain ⟨hfirst, hsecond⟩ := hostByte_even ha
    simp only [simmemRead, BigEndian.read, target, simmemRead8, simmemRead16, hfirst, hsecond]
  | w4 =>
    have h0 := hostByte_add ha (by decide : 0 < 4)
    have h1 := hostByte_add ha (by decide : 1 < 4)
    have h2 := hostByte_add ha (by decide : 2 < 4)
    have h3 := hostByte_add ha (by decide : 3 < 4)
    simp only [BitVec.add_zero, Nat.sub_zero, Nat.sub_self, Nat.reduceSub] at h0 h1 h2 h3
    simp only [simmemRead, BigEndian.read, target, simmemRead8, simmemRead32, h0, h1, h2, h3]

theorem target_simmemWrite (m : Bytes) {a : Addr} {n : Width} (v : Word)
    (ha : a.toNat % n.bytes = 0) :
    target (simmemWrite m a v n) = BigEndian.write (target m) a v n := by
  funext c
  cases n with
  | w1 =>
    simp only [simmemWrite, BigEndian.write, target, simmemRead8, simmemWrite8,
      Function.update_apply, hostByte_eq_iff]
    rfl
  | w2 =>
    obtain ⟨hfirst, hsecond⟩ := hostByte_even ha
    have hhigh : hostByte c = (a ^^^ 2#32) + 1#32 ↔ c = a := by rw [← hfirst, hostByte_eq_iff]
    have hlow : hostByte c = a ^^^ 2#32 ↔ c = a + 1#32 := by rw [← hsecond, hostByte_eq_iff]
    simp only [simmemWrite, BigEndian.write, target, simmemRead8, simmemWrite16, hhigh, hlow]
    rcases eq_or_ne c a with rfl | hc
    · rw [if_neg (by simp), if_pos rfl, if_pos rfl]
      exact BitVec.extractLsb'_setWidth_of_le (by decide)
    · rw [if_neg hc, if_neg hc, BitVec.extractLsb'_setWidth_of_le (by decide)]
  | w4 =>
    have hcell : ∀ i < 4, hostByte c = a + BitVec.ofNat 32 (3 - i) ↔
        c = a + BitVec.ofNat 32 i := by
      intro i hi
      rw [← hostByte_add ha hi, hostByte_eq_iff]
    have h0 := hcell 0 (by decide)
    have h1 := hcell 1 (by decide)
    have h2 := hcell 2 (by decide)
    have h3 := hcell 3 (by decide)
    simp only [BitVec.add_zero, Nat.sub_zero, Nat.sub_self, Nat.reduceSub] at h0 h1 h2 h3
    simp only [simmemWrite, BigEndian.write, target, simmemRead8, simmemWrite32, h0, h1, h2, h3]
    -- The two sides test the same four addresses in opposite orders.
    rcases eq_or_ne c a with rfl | hc
    · simp
    rcases eq_or_ne c (a + 1#32) with rfl | hc1
    · simp
    rcases eq_or_ne c (a + 2#32) with rfl | hc2
    · simp
    rw [if_neg hc, if_neg hc1, if_neg hc2, if_neg hc2, if_neg hc1, if_neg hc]

/-! ### Sequences of accesses -/

/-- One call of an accessor. -/
inductive Access where
  /-- A read of the given width. -/
  | read (a : Addr) (n : Width)
  /-- A write of the low bytes of `v`. -/
  | write (a : Addr) (n : Width) (v : Word)
deriving DecidableEq, Repr

namespace Access

/-- The address is a multiple of the width. -/
def Aligned : Access → Prop
  | .read a n => a.toNat % n.bytes = 0
  | .write a n _ => a.toNat % n.bytes = 0

instance (x : Access) : Decidable x.Aligned :=
  match x with
  | .read a n => inferInstanceAs (Decidable (a.toNat % n.bytes = 0))
  | .write a n _ => inferInstanceAs (Decidable (a.toNat % n.bytes = 0))

/-- The access writes the byte at `c`. -/
def Writes : Access → Addr → Prop
  | .read _ _, _ => False
  | .write a n _, c => ∃ i < n.bytes, c = a + BitVec.ofNat 32 i

/-- An access of the store: the value read, if any, and the store after it. -/
def simmem (m : Bytes) : Access → Option Word × Bytes
  | .read a n => (some (simmemRead m a n), m)
  | .write a n v => (none, simmemWrite m a v n)

/-- The access of the array. -/
def bigEndian (b : Bytes) : Access → Option Word × Bytes
  | .read a n => (some (BigEndian.read b a n), b)
  | .write a n v => (none, BigEndian.write b a v n)

/-- A sequence of accesses: what each of them read, and the contents after the last. -/
def run (step : Bytes → Access → Option Word × Bytes) :
    Bytes → List Access → List (Option Word) × Bytes
  | m, [] => ([], m)
  | m, x :: xs =>
    let rest := run step (step m x).2 xs
    ((step m x).1 :: rest.1, rest.2)

/-- One aligned access reads what the array reads and keeps the two in step. -/
theorem simmem_eq_bigEndian (m : Bytes) {x : Access} (hx : x.Aligned) :
    (simmem m x).1 = (bigEndian (target m) x).1 ∧
      target (simmem m x).2 = (bigEndian (target m) x).2 := by
  cases x with
  | read a n => exact ⟨congrArg some (simmemRead_eq m hx), rfl⟩
  | write a n v => exact ⟨rfl, target_simmemWrite m v hx⟩

theorem run_simmem_eq (xs : List Access) (m : Bytes) (h : ∀ x ∈ xs, x.Aligned) :
    (run simmem m xs).1 = (run bigEndian (target m) xs).1 ∧
      target (run simmem m xs).2 = (run bigEndian (target m) xs).2 := by
  induction xs generalizing m with
  | nil => exact ⟨rfl, rfl⟩
  | cons x xs ih =>
    obtain ⟨hread, hstore⟩ := simmem_eq_bigEndian m (h x List.mem_cons_self)
    obtain ⟨hreads, hfinal⟩ := ih (simmem m x).2 fun y hy => h y (List.mem_cons_of_mem _ hy)
    rw [hstore] at hreads hfinal
    exact ⟨congrArg₂ List.cons hread hreads, hfinal⟩

theorem bigEndian_of_not_writes (b : Bytes) {x : Access} {c : Addr} (h : ¬x.Writes c) :
    (bigEndian b x).2 c = b c := by
  cases x with
  | read a n => rfl
  | write a n v =>
    refine BigEndian.write_of_outside b a v n fun i hi hc => h ⟨i, hi, hc⟩

theorem run_bigEndian_of_not_writes (xs : List Access) (b : Bytes) {c : Addr}
    (h : ∀ x ∈ xs, ¬x.Writes c) : (run bigEndian b xs).2 c = b c := by
  induction xs generalizing b with
  | nil => rfl
  | cons x xs ih =>
    calc (run bigEndian b (x :: xs)).2 c
        = (bigEndian b x).2 c := ih _ fun y hy => h y (List.mem_cons_of_mem _ hy)
      _ = b c := bigEndian_of_not_writes b (h x List.mem_cons_self)

end Access

/-- **Simulated memory is a big-endian byte array.**  A sequence of aligned accesses reads what
the array reads, leaves what the array holds, and changes no byte that it does not write. -/
theorem simmem_refines (m : Bytes) (xs : List Access) (h : ∀ x ∈ xs, x.Aligned) :
    (Access.run Access.simmem m xs).1 = (Access.run Access.bigEndian (target m) xs).1 ∧
      target (Access.run Access.simmem m xs).2 =
        (Access.run Access.bigEndian (target m) xs).2 ∧
      ∀ c, (∀ x ∈ xs, ¬x.Writes c) →
        target (Access.run Access.simmem m xs).2 c = target m c := by
  obtain ⟨hreads, hfinal⟩ := Access.run_simmem_eq xs m h
  refine ⟨hreads, hfinal, fun c hc => ?_⟩
  rw [hfinal, Access.run_bigEndian_of_not_writes xs (target m) hc]

/-- A word is written, and a byte and a half word of it are read back. -/
theorem simmem_refines_word :
    (Access.run Access.simmem (fun _ => 0#8)
        [.write 8#32 .w4 0x11223344#32, .read 9#32 .w1, .read 10#32 .w2]).1 =
      [none, some 0x22#32, some 0x3344#32] := by
  rw [(simmem_refines (fun _ => 0#8)
    [.write 8#32 .w4 0x11223344#32, .read 9#32 .w1, .read 10#32 .w2] (by decide)).1]
  decide

end Or1ksim
