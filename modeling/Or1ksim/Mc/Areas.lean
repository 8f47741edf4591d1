import Or1ksim.Lib.Linked
import Or1ksim.Memory.Area

/-!
# Areas of the memory controllers

`peripheral/mc.c`: memory sections register their areas in a list, and every memory controller
takes the areas of its index out of this list when it is reset.

* `McArea`, `Controller`, `State` — cells of the lists, controllers, and the heads of the lists;
* `mcRegMemArea` — a registration;
* `grab`, `invalidate`, `setCscTms` — the loops of a reset; they have fuel for as many cells as
  there are, so that they run out of it on a cyclic list only;
* `mcReset` — a reset.
-/

namespace Or1ksim
namespace Mc

/-- What is registered: the memory, its chip select, and the index of its controller. -/
structure Reg where
  /-- `mem`, as its number. -/
  mem : ℕ
  /-- `cs` -/
  cs : Word
  /-- `mc` -/
  mc : ℤ
deriving DecidableEq

/-- A cell of a list (`struct mc_area`). -/
structure McArea extends Reg where
  /-- `next` -/
  next : Option ℕ

/-- A memory controller (`struct mc`). -/
structure Controller where
  /-- Its index amongst the controllers, which the areas refer to. -/
  index : ℤ
  /-- Power on configuration. -/
  poc : Word
  csr : Word
  baMask : Word
  csc : Fin 8 → Word
  tms : Fin 8 → Word
  /-- The list of the areas under its control (`mc_areas`). -/
  mcAreas : Option ℕ

/-- The heap, the controllers (by pointer) and the memories (by number). -/
structure State (C : Type) where
  /-- Number of cells that have been allocated. -/
  size : ℕ
  area : ℕ → McArea
  /-- The list of the areas that no controller has taken yet (`mc_areas`). -/
  mcAreas : Option ℕ
  mc : C → Controller
  mem : ℕ → MemArea

variable {C : Type}

namespace State

/-- `next` of a cell. -/
def next (s : State C) (a : ℕ) : Option ℕ := (s.area a).next

/-- `p->next = q` -/
def setNext (s : State C) (p : ℕ) (q : Option ℕ) : State C :=
  { s with area := Function.update s.area p { s.area p with next := q } }

/-- `mc_areas = q` -/
def setHead (s : State C) (q : Option ℕ) : State C := { s with mcAreas := q }

/-- `mc->mc_areas = q` -/
def setList [DecidableEq C] (s : State C) (c : C) (q : Option ℕ) : State C :=
  { s with mc := Function.update s.mc c { s.mc c with mcAreas := q } }

/-- `set_mem_valid` -/
def setMemValid (s : State C) (m : ℕ) (valid : Bool) : State C :=
  { s with mem := Function.update s.mem m { s.mem m with valid := valid } }

end State

/-- Before any registration: a controller has its index and its configuration (`mc_sec_start`,
`mc_index`, `mc_poc`). -/
def start (index : C → ℤ) (poc : C → Word) (mem : ℕ → MemArea) : State C where
  size := 0
  area _ := ⟨⟨0, 0, 0⟩, none⟩
  mcAreas := none
  mc c := ⟨index c, poc c, 0, 0, fun _ => 0, fun _ => 0, none⟩
  mem := mem

/-- `mc_reg_mem_area`: the new cell is the first one of the list. -/
def mcRegMemArea (s : State C) (r : Reg) : State C :=
  { s with
    size := s.size + 1
    area := Function.update s.area s.size ⟨r, s.mcAreas⟩
    mcAreas := some s.size }

variable [DecidableEq C]

/-- "Grab control over all the devices we are destined to control": the areas of the index of `c`
are moved to its own list.  `prev` is the cell before `cur`, be it moved or not. -/
def grab (c : C) : ℕ → Option ℕ → Option ℕ → State C → Option (State C)
  | _, none, _, s => some s
  | 0, some _, _, _ => none
  | fuel + 1, some cur, prev, s =>
    if (s.area cur).mc = (s.mc c).index then
      let s₁ :=
        match prev with
        | some prev => s.setNext prev (s.next cur)
        | none => s.setHead (s.next cur)
      let tmp := s₁.next cur
      grab c fuel tmp (some cur) ((s₁.setNext cur (s₁.mc c).mcAreas).setList c (some cur))
    else grab c fuel (s.next cur) (some cur) s

/-- The loop that makes the areas of a controller invalid. -/
def invalidate : ℕ → Option ℕ → State C → Option (State C)
  | _, none, s => some s
  | 0, some _, _ => none
  | fuel + 1, some cur, s =>
    invalidate fuel (s.next cur) (s.setMemValid (s.area cur).mem false)

/-- `set_csc_tms`: the first area of the chip select is mapped.  Its delays are never adjusted,
since each test for it compares the constant `0x07` with the code of a type of memory. -/
def setCscTms (cs csc : Word) (c : C) : ℕ → Option ℕ → State C → Option (State C)
  | _, none, s => some s
  | 0, some _, _ => none
  | fuel + 1, some cur, s =>
    if (s.area cur).cs = cs then
      let m := (s.area cur).mem
      some { s with
        mem := Function.update s.mem m
          { s.mem m with
            addrMask := (s.mc c).baMask <<< 22
            addrCompare := (csc >>> 16) <<< 22
            valid := csc &&& 1#32 ≠ 0#32 } }
    else setCscTms cs csc c fuel (s.next cur) s

/-- The registers of a controller after a reset.  `tms[0]` stays zero: its four tests compare
constants as those of `set_csc_tms` do. -/
def Controller.reset (mc : Controller) : Controller :=
  { mc with
    csc := Function.update (fun _ => 0) 0
      ((mc.poc &&& 0x0c#32) >>> 2 <<< 1 ||| (mc.poc &&& 0x03#32) <<< 4 ||| 1#32)
    tms := fun _ => 0
    csr := 0
    baMask := 0 }

/-- `mc_reset`; `none` if it does not come to an end. -/
def mcReset (c : C) (s : State C) : Option (State C) := do
  let s₁ := { s with mc := Function.update s.mc c (s.mc c).reset }
  let s₂ ← grab c s.size s₁.mcAreas none s₁
  let s₃ ← invalidate s.size (s₂.mc c).mcAreas s₂
  setCscTms 0 ((s₃.mc c).csc 0) c s.size (s₃.mc c).mcAreas s₃

end Mc
end Or1ksim
