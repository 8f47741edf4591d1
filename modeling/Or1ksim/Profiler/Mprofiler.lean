import Mathlib.Algebra.BigOperators.Ring.Finset
import Mathlib.Data.BitVec
import Or1ksim.Lib.Bits
import Or1ksim.Lib.HashTable
import Or1ksim.Lib.Histogram

/-!
# The memory profiling utility

`support/profile.c` writes a record for each access to memory, and `mprofiler.c` reads them back and
counts them in groups of successive addresses.

* `Access`, `mprofile` — the accesses of `cpu/common/abstract.c`, and their records;
* `hashAdd`, `hashGet` — the hash table, an instance of `HashTable`;
* `readFile` — the records are counted;
* `printLoop`, `printout` — one line for each group;
* `report_exact` — **every access of the range is on exactly one line**, in the column of its kind.
-/

namespace Or1ksim
namespace Mprofiler

/-- An `oraddr_t`. -/
abbrev Addr := BitVec 32

/-- An `unsigned long`. -/
abbrev Counter := BitVec 64

/-! ### The records -/

/-- `struct mprofentry_struct` -/
structure Entry where
  addr : Addr
  type : BitVec 8
deriving DecidableEq, Repr

/-- The accesses that are recorded. -/
inductive Access where
  | read8 | read16 | read32 | write8 | write16 | write32 | fetch
deriving DecidableEq, Repr

/-- `MPROF_READ`, `MPROF_WRITE` and `MPROF_FETCH`, with `MPROF_8`, `MPROF_16` and `MPROF_32`. -/
def Access.type : Access → BitVec 8
  | read8 => 8 ||| 1
  | read16 => 16 ||| 1
  | read32 => 32 ||| 1
  | write8 => 8 ||| 2
  | write16 => 16 ||| 2
  | write32 => 32 ||| 2
  | fetch => 32 ||| 4

/-- `mprofile`: a record is added to the file. -/
def mprofile (file : List Entry) (x : Addr × Access) : List Entry := file ++ [⟨x.1, x.2.type⟩]

/-! ### The table -/

/-- `HASH_FUNC` -/
def hashFunc (x : Addr) : ℕ := (x &&& 0xffff).toNat

/-- `hash`, with the three counters of an address. -/
abbrev Hash := HashTable.Table Addr (Fin 3 → Counter)

/-- `hash_add` -/
def hashAdd (hash : Hash) (addr : Addr) (index : Fin 3) : Hash :=
  HashTable.modify hashFunc (HashTable.add hashFunc hash addr 0) addr fun cnt =>
    Function.update cnt index (cnt index + 1)

/-- `hash_get` -/
def hashGet (hash : Hash) (addr : Addr) (index : Fin 3) : Counter :=
  ((HashTable.lookup hashFunc hash addr).getD 0) index

theorem hashGet_hashAdd (hash : Hash) (addr a : Addr) (index i : Fin 3) :
    hashGet (hashAdd hash addr index) a i =
      hashGet hash a i + if addr = a ∧ index = i then 1 else 0 := by
  unfold hashGet hashAdd
  rw [HashTable.lookup_modify, HashTable.lookup_add, if_pos rfl]
  by_cases ha : a = addr
  · subst ha
    rw [if_pos rfl]
    by_cases hi : i = index
    · subst hi
      simp
    · simp [hi, Ne.symm hi]
  · rw [if_neg ha, HashTable.lookup_add, if_neg ha, if_neg fun h => ha h.1.symm, add_zero]

/-! ### Reading -/

/-- `MODE_DETAIL`, `MODE_PRETTY`, `MODE_ACCESS` and `MODE_WIDTH` -/
inductive Mode where
  | detail | pretty | access | width
deriving DecidableEq, Repr

/-- The globals that the options set. -/
structure Options where
  mode : Mode
  groupBits : ℕ
  startAddr : Addr
  endAddr : Addr

/-- The counter of a record, and what is printed for a type that is not known. -/
def Options.index (o : Options) (type : BitVec 8) : Fin 3 × List String :=
  let (t, out) := if 64 < type then (0, ["!"]) else (type, [])
  let t := if o.mode = .width then t >>> 3 else t &&& 0x7
  if t = 1 then (0, out)
  else if t = 2 then (1, out)
  else if t = 4 then (2, out)
  else (0, out ++ ["!!!!"])

/-- The record lies in the range. -/
def Options.inRange (o : Options) (addr : Addr) : Bool := o.startAddr ≤ addr && addr ≤ o.endAddr

/-- One record of `read_file`. -/
def readEntry (o : Options) (s : Hash × List String) (e : Entry) : Hash × List String :=
  if o.inRange e.addr then
    let (index, out) := o.index e.type
    (hashAdd s.1 (e.addr >>> o.groupBits) index, s.2 ++ out)
  else s

/-- `init` and `read_file` -/
def readFile (o : Options) (file : List Entry) : Hash × List String :=
  file.foldl (readEntry o) (fun _ => [], [])

/-! ### Printing -/

/-- A line: its address, and the counters of the group. -/
structure Line where
  addr : Addr
  cnt : Fin 3 → Counter

/-- `1 << group_bits` -/
def Options.step (o : Options) : Addr := (1 : Addr) <<< o.groupBits

/-- The loop of `printout`. -/
def printLoop (o : Options) (hash : Hash) (addr : Addr) : List Line :=
  if addr ≤ o.endAddr then
    let line : Line := ⟨addr, hashGet hash (addr >>> o.groupBits)⟩
    if addr + o.step ≤ addr then [line] else line :: printLoop o hash (addr + o.step)
  else []
termination_by 2 ^ 32 - addr.toNat
decreasing_by
  rename_i h
  have hlt : addr.toNat < (addr + o.step).toNat := BitVec.not_le.1 h
  exact Nat.sub_lt_sub_left (hlt.trans (addr + o.step).isLt) hlt

/-- `printout` -/
def printout (o : Options) (hash : Hash) : List Line :=
  printLoop o hash (o.startAddr &&& ~~~(o.step - 1))

/-! ### The lines -/

section

variable {o : Options} {hash : Hash} {addr a : Addr}

theorem group_lt (hbits : o.groupBits < 31) : 2 ^ o.groupBits < 2 ^ 32 :=
  Nat.pow_lt_pow_right (by decide) (by omega)

theorem toNat_step (hbits : o.groupBits < 31) : o.step.toNat = 2 ^ o.groupBits := by
  have hone : (1 : Addr).toNat = 1 := rfl
  unfold Options.step
  rw [BitVec.toNat_shiftLeft, hone, Nat.shiftLeft_eq, Nat.one_mul,
    Nat.mod_eq_of_lt (group_lt hbits)]

theorem toNat_first (hbits : o.groupBits < 31) :
    (o.startAddr &&& ~~~(o.step - 1)).toNat =
      o.startAddr.toNat / 2 ^ o.groupBits * 2 ^ o.groupBits := by
  have hmask : o.step - 1 = Bits.lowMask 32 o.groupBits := by
    refine BitVec.eq_of_toNat_eq ?_
    have hpos : 0 < 2 ^ o.groupBits := Nat.two_pow_pos _
    rw [Bits.toNat_lowMask (by omega), BitVec.toNat_sub_of_le, toNat_step hbits]
    · rfl
    · rw [BitVec.le_def, toNat_step hbits]
      exact hpos
  rw [hmask, Bits.toNat_and_not_lowMask]

theorem cnt_of_mem {line : Line} (h : line ∈ printLoop o hash addr) :
    line.cnt = hashGet hash (line.addr >>> o.groupBits) := by
  fun_induction printLoop o hash addr with
  | case1 addr hle first hover =>
    rw [List.mem_singleton.1 h]
  | case2 addr hle first hover ih =>
    rcases List.mem_cons.1 h with rfl | h
    · rfl
    · exact ih h
  | case3 addr hle => cases h

theorem next_le {m n d : ℕ} (hm : d ∣ m) (hn : d ∣ n) (h : m < n) : m + d ≤ n := by
  have hle : d ≤ n - m := Nat.le_of_dvd (Nat.sub_pos_of_lt h) (Nat.dvd_sub hn hm)
  omega

theorem toNat_add_step (hbits : o.groupBits < 31) (hover : ¬addr + o.step ≤ addr) :
    (addr + o.step).toNat = addr.toNat + 2 ^ o.groupBits := by
  have hlt : addr.toNat < (addr + o.step).toNat := BitVec.not_le.1 hover
  have haddr : addr.toNat < 2 ^ 32 := addr.isLt
  have hgroup : 2 ^ o.groupBits < 2 ^ 32 := group_lt hbits
  rw [BitVec.toNat_add, toNat_step hbits] at hlt ⊢
  generalize 2 ^ o.groupBits = step at *
  omega

theorem eq_of_over (hbits : o.groupBits < 31) (hover : addr + o.step ≤ addr)
    (halign : 2 ^ o.groupBits ∣ addr.toNat) (ha : 2 ^ o.groupBits ∣ a.toNat) (hle : addr ≤ a) :
    a = addr := by
  refine BitVec.eq_of_toNat_eq ?_
  have hlt : (addr + o.step).toNat ≤ addr.toNat := hover
  have hle : addr.toNat ≤ a.toNat := hle
  have haddr : addr.toNat < 2 ^ 32 := addr.isLt
  have hbound : a.toNat < 2 ^ 32 := a.isLt
  have hgroup : 2 ^ o.groupBits < 2 ^ 32 := group_lt hbits
  have hpos : 0 < 2 ^ o.groupBits := Nat.two_pow_pos _
  rw [BitVec.toNat_add, toNat_step hbits] at hlt
  by_contra hne
  have hnext : addr.toNat + 2 ^ o.groupBits ≤ a.toNat := next_le halign ha (by omega)
  generalize 2 ^ o.groupBits = step at *
  omega

/-- **The addresses of the lines** are those of the groups from the first one on. -/
theorem mem_addrs (hbits : o.groupBits < 31) (halign : 2 ^ o.groupBits ∣ addr.toNat) :
    a ∈ (printLoop o hash addr).map Line.addr ↔
      addr ≤ a ∧ a ≤ o.endAddr ∧ 2 ^ o.groupBits ∣ a.toNat := by
  fun_induction printLoop o hash addr with
  | case1 addr hle line hover =>
    rw [List.map_singleton, List.mem_singleton]
    constructor
    · rintro rfl
      exact ⟨BitVec.le_refl _, hle, halign⟩
    · rintro ⟨hge, -, ha⟩
      exact eq_of_over hbits hover halign ha hge
  | case2 addr hle line hover ih =>
    have hnext : (addr + o.step).toNat = addr.toNat + 2 ^ o.groupBits := toNat_add_step hbits hover
    have hpos : 0 < 2 ^ o.groupBits := Nat.two_pow_pos _
    rw [List.map_cons, List.mem_cons, ih (hnext ▸ Nat.dvd_add halign (Nat.dvd_refl _))]
    constructor
    · rintro (rfl | ⟨hge, hend, ha⟩)
      · exact ⟨BitVec.le_refl _, hle, halign⟩
      · refine ⟨?_, hend, ha⟩
        rw [BitVec.le_def] at hge ⊢
        omega
    · rintro ⟨hge, hend, ha⟩
      by_cases heq : a = addr
      · exact .inl heq
      · refine .inr ⟨?_, hend, ha⟩
        have hne : addr.toNat ≠ a.toNat := fun h => heq (BitVec.eq_of_toNat_eq h.symm)
        rw [BitVec.le_def] at hge ⊢
        rw [hnext]
        exact next_le halign ha (by omega)
  | case3 addr hle =>
    rw [List.map_nil]
    refine ⟨fun h => absurd h List.not_mem_nil, fun h => absurd ?_ hle⟩
    exact BitVec.le_trans h.1 h.2.1

theorem pairwise_addrs (hbits : o.groupBits < 31) (halign : 2 ^ o.groupBits ∣ addr.toNat) :
    ((printLoop o hash addr).map Line.addr).Pairwise (· < ·) := by
  fun_induction printLoop o hash addr with
  | case1 addr hle line hover => exact List.pairwise_singleton _ _
  | case2 addr hle line hover ih =>
    have hnext : (addr + o.step).toNat = addr.toNat + 2 ^ o.groupBits := toNat_add_step hbits hover
    have halign' : 2 ^ o.groupBits ∣ (addr + o.step).toNat :=
      hnext ▸ Nat.dvd_add halign (Nat.dvd_refl _)
    rw [List.map_cons, List.pairwise_cons]
    refine ⟨fun a ha => ?_, ih halign'⟩
    have hlt : addr.toNat < (addr + o.step).toNat := BitVec.not_le.1 hover
    have hle : (addr + o.step).toNat ≤ a.toNat := ((mem_addrs hbits halign').1 ha).1
    exact BitVec.lt_def.2 (hlt.trans_le hle)
  | case3 addr hle => exact List.Pairwise.nil

/-! ### The counters -/

/-- The column of an access. -/
def column : Mode → Access → Fin 3
  | .width, .read8 | .width, .write8 => 0
  | .width, .read16 | .width, .write16 => 1
  | .width, .read32 | .width, .write32 | .width, .fetch => 2
  | _, .read8 | _, .read16 | _, .read32 => 0
  | _, .write8 | _, .write16 | _, .write32 => 1
  | _, .fetch => 2

theorem index_type (x : Access) : o.index x.type = (column o.mode x, []) := by
  unfold Options.index
  cases o.mode <;> cases x <;> rfl

/-- The accesses of the range that a counter counts. -/
def counts (o : Options) (group : Addr) (i : Fin 3) (x : Addr × Access) : Bool :=
  o.inRange x.1 && x.1 >>> o.groupBits = group && column o.mode x.2 = i

/-- **The table counts the accesses of each group**, and nothing is printed. -/
theorem readFile_eq (trace : List (Addr × Access)) :
    (readFile o (trace.foldl mprofile [])).2 = [] ∧ ∀ group i,
      hashGet (readFile o (trace.foldl mprofile [])).1 group i =
        (trace.countP (counts o group i) : Counter) := by
  induction trace using List.reverseRecOn with
  | nil => exact ⟨rfl, fun group i => rfl⟩
  | append_singleton trace x ih =>
    obtain ⟨hout, hcnt⟩ := ih
    rw [List.foldl_append, List.foldl_cons, List.foldl_nil, mprofile, readFile, List.foldl_append,
      ← readFile, List.foldl_cons, List.foldl_nil, readEntry, index_type]
    dsimp only
    by_cases hrange : o.inRange x.1
    · rw [if_pos hrange]
      refine ⟨by rw [hout, List.append_nil], fun group i => ?_⟩
      rw [hashGet_hashAdd, hcnt, List.countP_append, List.countP_singleton, Nat.cast_add]
      congr 1
      simp [counts, hrange]
    · rw [if_neg hrange]
      refine ⟨hout, fun group i => ?_⟩
      rw [hcnt, List.countP_append, List.countP_singleton]
      simp [counts, hrange]

theorem countP_columns (o : Options) (group : Addr) (trace : List (Addr × Access)) :
    trace.countP (counts o group 0) + trace.countP (counts o group 1) +
        trace.countP (counts o group 2) =
      trace.countP fun x : Addr × Access => o.inRange x.1 && x.1 >>> o.groupBits = group := by
  have hone : ∀ (b : Bool) (i : Fin 3),
      (if b && i = 0 then 1 else 0) + (if b && i = 1 then 1 else 0) +
        (if b && i = 2 then 1 else 0) = if b then 1 else 0 := by
    decide
  induction trace with
  | nil => rfl
  | cons x trace ih =>
    rw [List.countP_cons, List.countP_cons, List.countP_cons, List.countP_cons, ← ih]
    have hx : (if counts o group 0 x then 1 else 0) + (if counts o group 1 x then 1 else 0) +
        (if counts o group 2 x then 1 else 0) =
          if o.inRange x.1 && x.1 >>> o.groupBits = group then 1 else 0 :=
      hone _ (column o.mode x.2)
    omega

theorem eq_of_shift_eq {b : Addr} (ha : 2 ^ o.groupBits ∣ a.toNat)
    (hb : 2 ^ o.groupBits ∣ b.toNat) (h : a >>> o.groupBits = b >>> o.groupBits) : a = b := by
  refine BitVec.eq_of_toNat_eq ?_
  have hdiv : a.toNat / 2 ^ o.groupBits = b.toNat / 2 ^ o.groupBits := by
    simpa only [BitVec.toNat_ushiftRight, Nat.shiftRight_eq_div_pow] using congrArg BitVec.toNat h
  rw [← Nat.div_mul_cancel ha, ← Nat.div_mul_cancel hb, hdiv]

theorem shift_group (o : Options) (x : Addr) :
    ∃ a : Addr, a.toNat = x.toNat / 2 ^ o.groupBits * 2 ^ o.groupBits ∧
      a >>> o.groupBits = x >>> o.groupBits := by
  refine ⟨x &&& ~~~Bits.lowMask 32 o.groupBits, Bits.toNat_and_not_lowMask _ _, ?_⟩
  refine BitVec.eq_of_toNat_eq ?_
  rw [BitVec.toNat_ushiftRight, BitVec.toNat_ushiftRight, Bits.toNat_and_not_lowMask,
    Nat.shiftRight_eq_div_pow, Nat.shiftRight_eq_div_pow, Nat.mul_div_cancel _ (Nat.two_pow_pos _)]

/-- **The report is exact**: it has one line for each group that the range meets, in the order of
their addresses, which counts the accesses of the range to the group by their kind; together the
lines count every access of the range once. -/
theorem report_exact (o : Options) (hbits : o.groupBits < 31) (trace : List (Addr × Access)) :
    let read := readFile o (trace.foldl mprofile [])
    let lines := printout o read.1
    read.2 = [] ∧
      (lines.map Line.addr).Pairwise (· < ·) ∧
      (∀ a : Addr, a ∈ lines.map Line.addr ↔
        o.startAddr.toNat / 2 ^ o.groupBits * 2 ^ o.groupBits ≤ a.toNat ∧ a ≤ o.endAddr ∧
          2 ^ o.groupBits ∣ a.toNat) ∧
      (∀ line ∈ lines, ∀ i, line.cnt i = (trace.countP (fun x : Addr × Access => o.inRange x.1 &&
        x.1 >>> o.groupBits = line.addr >>> o.groupBits && column o.mode x.2 = i) : Counter)) ∧
      (lines.map fun line => line.cnt 0 + line.cnt 1 + line.cnt 2).sum =
        (trace.countP fun x => o.inRange x.1 : Counter) := by
  intro read lines
  obtain ⟨hout, hcnt⟩ := readFile_eq (o := o) trace
  have hfirst : (o.startAddr &&& ~~~(o.step - 1)).toNat =
      o.startAddr.toNat / 2 ^ o.groupBits * 2 ^ o.groupBits := toNat_first hbits
  have halign : 2 ^ o.groupBits ∣ (o.startAddr &&& ~~~(o.step - 1)).toNat :=
    hfirst ▸ Nat.dvd_mul_left _ _
  have hlines : ∀ line ∈ lines, ∀ i, line.cnt i =
      (trace.countP (counts o (line.addr >>> o.groupBits) i) : Counter) := fun line h i => by
    rw [cnt_of_mem h, hcnt]
  have hmem : ∀ a : Addr, a ∈ lines.map Line.addr ↔
      o.startAddr.toNat / 2 ^ o.groupBits * 2 ^ o.groupBits ≤ a.toNat ∧ a ≤ o.endAddr ∧
        2 ^ o.groupBits ∣ a.toNat := fun a => by
    rw [← hfirst]
    exact mem_addrs hbits halign
  have hsorted : (lines.map Line.addr).Pairwise (· < ·) := pairwise_addrs hbits halign
  refine ⟨hout, hsorted, hmem, hlines, ?_⟩
  -- the numbers of the groups
  have hnodup : ((lines.map Line.addr).map fun a : Addr => a >>> o.groupBits).Nodup := by
    refine List.Nodup.map_on (fun a ha b hb h => ?_) (hsorted.imp fun {a b} h => BitVec.ne_of_lt h)
    exact eq_of_shift_eq ((hmem a).1 ha).2.2 ((hmem b).1 hb).2.2 h
  have hsum : (lines.map fun line => line.cnt 0 + line.cnt 1 + line.cnt 2).sum =
      ((((lines.map Line.addr).map fun a : Addr => a >>> o.groupBits).map fun group =>
        trace.countP fun x : Addr × Access =>
          o.inRange x.1 && x.1 >>> o.groupBits = group).sum : ℕ) := by
    rw [Nat.cast_list_sum, List.map_map, List.map_map, List.map_map]
    congr 1
    refine List.map_congr_left fun line h => ?_
    rw [hlines line h, hlines line h, hlines line h, ← Nat.cast_add, ← Nat.cast_add,
      countP_columns]
    rfl
  rw [hsum, Histogram.sum_countP hnodup]
  congr 1
  refine List.countP_congr fun x _ => ?_
  rw [Bool.and_eq_true, List.contains_iff_mem]
  refine and_iff_left_of_imp fun hrange => ?_
  -- the group of an address in the range is on a line
  obtain ⟨a, ha, hshift⟩ := shift_group o x.1
  have hrange : o.startAddr ≤ x.1 ∧ x.1 ≤ o.endAddr := by
    simpa [Options.inRange] using hrange
  refine List.mem_map.2 ⟨a, (hmem a).2 ⟨?_, ?_, ?_⟩, hshift⟩
  · rw [ha]
    exact Nat.mul_le_mul_right _ (Nat.div_le_div_right hrange.1)
  · rw [BitVec.le_def, ha]
    exact (Nat.div_mul_le_self _ _).trans hrange.2
  · rw [ha]
    exact Nat.dvd_mul_left _ _

/-- Words at `0x10` and `0x14`, and a byte at `0x17`, in groups of eight. -/
theorem report_exact_eight :
    let o : Options := ⟨.width, 3, 0x12, 0x20⟩
    let lines := printout o (readFile o ([(0x10, .fetch), (0x14, .read32), (0x17, .write8)].foldl
      mprofile [])).1
    (lines.map fun line => line.cnt 0 + line.cnt 1 + line.cnt 2).sum = 2 :=
  (report_exact ⟨.width, 3, 0x12, 0x20⟩ (by decide) _).2.2.2.2

end

end Mprofiler
end Or1ksim
