import Or1ksim.Memory.Simmem

/-!
# Memory areas

The registered memory areas (`cpu/common/abstract.c`) and the accessors the simulator uses to
reach the byte store behind them.  An area is a configured `memory` section: a read delay that is
not positive makes it read as zero and a write delay that is not positive makes it ignore writes.

* `verifyMemoryarea` — the area an address falls into, if any;
* `evalsimMem`, `setsimMem` — accesses of the CPU and of the caches; `none` is an access outside
  every area, on which the source raises a bus error;
* `evalDirect8`, `evalDirect32`, `setProgram8`, `setProgram32` — accesses of the simulator itself
  (debugger, loader).
-/

namespace Or1ksim

/-- A memory area (`struct dev_memarea`) backed by a `memory` section. -/
structure MemArea where
  /-- Bits of an address that select the area. -/
  addrMask : Addr
  /-- Value of the selecting bits. -/
  addrCompare : Addr
  /-- The memory controller's valid bit. -/
  valid : Bool
  /-- Read delay; reads return zero unless it is positive. -/
  delayr : ℤ
  /-- Write delay; writes are ignored unless it is positive. -/
  delayw : ℤ
deriving DecidableEq, Repr

/-- The registered areas and the bytes behind them. -/
structure Memory where
  /-- Registered areas, in registration order. -/
  areas : List MemArea
  /-- Contents. -/
  bytes : Bytes

/-- Access widths in bytes. -/
inductive Width where
  | w1 | w2 | w4
deriving DecidableEq, Repr

/-- Number of bytes of an access. -/
def Width.bytes : Width → ℕ
  | .w1 => 1
  | .w2 => 2
  | .w4 => 4

namespace Memory

/-- `verify_memoryarea`: the first valid area whose selecting bits match. -/
def verifyMemoryarea (M : Memory) (a : Addr) : Option MemArea :=
  M.areas.find? fun r => decide (a &&& r.addrMask = r.addrCompare &&& r.addrMask) && r.valid

/-- The `readfunc8`/`readfunc16`/`readfunc32` operation of an area, zero-extended. -/
def readfunc (m : Bytes) (r : MemArea) (a : Addr) (n : Width) : Word :=
  if 0 < r.delayr then
    match n with
    | .w1 => (simmemRead8 m a).setWidth 32
    | .w2 => (simmemRead16 m a).setWidth 32
    | .w4 => simmemRead32 m a
  else 0

/-- The `writefunc8`/`writefunc16`/`writefunc32` operation of an area. -/
def writefunc (m : Bytes) (r : MemArea) (a : Addr) (v : Word) (n : Width) : Bytes :=
  if 0 < r.delayw then
    match n with
    | .w1 => simmemWrite8 m a (v.setWidth 8)
    | .w2 => simmemWrite16 m a (v.setWidth 16)
    | .w4 => simmemWrite32 m a v
  else m

/-- `evalsim_mem8`/`evalsim_mem16`/`evalsim_mem32`. -/
def evalsimMem (M : Memory) (a : Addr) (n : Width) : Option Word :=
  (M.verifyMemoryarea a).map fun r => readfunc M.bytes r a n

/-- `setsim_mem8`/`setsim_mem16`/`setsim_mem32`. -/
def setsimMem (M : Memory) (a : Addr) (v : Word) (n : Width) : Option Memory :=
  (M.verifyMemoryarea a).map fun r => { M with bytes := writefunc M.bytes r a v n }

/-- `eval_direct32` without MMU and data cache: unaligned and unmapped reads return zero. -/
def evalDirect32 (M : Memory) (a : Addr) : Word :=
  if a &&& 3#32 ≠ 0#32 then 0
  else ((M.verifyMemoryarea a).map fun r => readfunc M.bytes r a .w4).getD 0

/-- `set_program32`: unaligned and unmapped writes are ignored, a write delay is not. -/
def setProgram32 (M : Memory) (a : Addr) (v : Word) : Memory :=
  if a &&& 3#32 ≠ 0#32 then M
  else if (M.verifyMemoryarea a).isSome then { M with bytes := simmemWrite32 M.bytes a v } else M

/-- `eval_direct8` without MMU and data cache: unmapped reads return zero. -/
def evalDirect8 (M : Memory) (a : Addr) : Byte :=
  ((M.verifyMemoryarea a).map fun r => (readfunc M.bytes r a .w1).setWidth 8).getD 0

/-- `set_program8`: unmapped writes are ignored, a write delay is not. -/
def setProgram8 (M : Memory) (a : Addr) (v : Byte) : Memory :=
  if (M.verifyMemoryarea a).isSome then { M with bytes := simmemWrite8 M.bytes a v } else M

/-- The address is in readable and writable memory. -/
def Ram (M : Memory) (a : Addr) : Prop :=
  ∃ r, M.verifyMemoryarea a = some r ∧ 0 < r.delayr ∧ 0 < r.delayw

variable {M : Memory} {a b : Addr} {v : Word} {n : Width}

@[simp] theorem verifyMemoryarea_with_bytes (M : Memory) (m : Bytes) (a : Addr) :
    ({ M with bytes := m } : Memory).verifyMemoryarea a = M.verifyMemoryarea a := rfl

@[simp] theorem areas_setProgram32 (M : Memory) (a : Addr) (v : Word) :
    (M.setProgram32 a v).areas = M.areas := by
  unfold setProgram32
  split_ifs <;> rfl

theorem verifyMemoryarea_congr {M N : Memory} (h : M.areas = N.areas) (a : Addr) :
    M.verifyMemoryarea a = N.verifyMemoryarea a := by
  rw [verifyMemoryarea, h, verifyMemoryarea]

theorem ram_congr {M N : Memory} (h : M.areas = N.areas) : M.Ram a ↔ N.Ram a := by
  rw [Ram, verifyMemoryarea_congr h, Ram]

/-! ### Aligned RAM words -/

theorem evalDirect32_of_ram (h : M.Ram a) (ha : a.toNat % 4 = 0) :
    M.evalDirect32 a = wordAt M.bytes a := by
  obtain ⟨r, hr, hread, -⟩ := h
  rw [evalDirect32, if_neg (not_not.2 (and_three_eq_zero.2 ha)), hr, wordAt,
    wordBase_of_aligned ha]
  simp [readfunc, hread]

theorem bytes_setProgram32_of_ram (h : M.Ram a) (ha : a.toNat % 4 = 0) (v : Word) :
    (M.setProgram32 a v).bytes = simmemWrite32 M.bytes a v := by
  obtain ⟨r, hr, -⟩ := h
  rw [setProgram32, if_neg (not_not.2 (and_three_eq_zero.2 ha)), hr]
  rfl

/-! ### A flat RAM -/

/-- A RAM that covers the whole address space. -/
def flat (m : Bytes) : Memory := ⟨[⟨0, 0, true, 1, 1⟩], m⟩

theorem flat_ram (m : Bytes) (a : Addr) : (flat m).Ram a :=
  ⟨⟨0, 0, true, 1, 1⟩, by simp [flat, verifyMemoryarea], by decide, by decide⟩

end Memory
end Or1ksim
