import Or1ksim.Memory.BigEndian

/-!
# Loading an ELF file

`cpu/common/parse.c`: `readfile_elf`, which copies the sections of a big-endian ELF file to the
memory.  It reads the file through `fread`, a table at a time, and leaves with `exit (1)` when one
of these reads fails.

* `Shdr`, `Phdr` — the headers of sections and of program segments;
* `readShdata`, `readPhdata`, `readTables`, `readNames` — what is read before anything is loaded;
* `addprogram`, `copyLoop` — a section is copied four bytes at a time;
* `readfileElf`.
-/

namespace Or1ksim
namespace Loader

/-- Why nothing is returned. -/
inductive Stop where
  /-- The program exits. -/
  | exit
  /-- The source has no defined behaviour: it reads beyond a table, follows a null pointer or
  divides by zero. -/
  | undefined
deriving DecidableEq

/-! ### The file -/

/-- `fread` of one item of some size at a position: it fails when the file is too short, and also
when the size is zero. -/
def fread (file : List Byte) (pos size : ℕ) : Except Stop (List Byte) :=
  if 0 < size ∧ pos + size ≤ file.length then .ok ((file.drop pos).take size) else .error .exit

/-- A byte of a buffer. -/
def byteAt (buf : List Byte) (i : ℕ) : ℕ := (buf.getD i 0).toNat

/-- `ELF_SHORT_H`. -/
def elfShort (buf : List Byte) (i : ℕ) : ℕ := byteAt buf i * 2 ^ 8 + byteAt buf (i + 1)

/-- `ELF_LONG_H`. -/
def elfLong (buf : List Byte) (i : ℕ) : ℕ :=
  elfShort buf i * 2 ^ 16 + elfShort buf (i + 2)

/-- The fields of `struct elf32_hdr` that are used. -/
structure Ehdr where
  phoff : ℕ
  shoff : ℕ
  phentsize : ℕ
  phnum : ℕ
  shentsize : ℕ
  shnum : ℕ
  shstrndx : ℕ
deriving DecidableEq

/-- `sizeof (struct elf32_hdr)`. -/
def ehdrSize : ℕ := 52

/-- The header at the start of a buffer. -/
def ehdrOf (buf : List Byte) : Ehdr where
  phoff := elfLong buf 28
  shoff := elfLong buf 32
  phentsize := elfShort buf 42
  phnum := elfShort buf 44
  shentsize := elfShort buf 46
  shnum := elfShort buf 48
  shstrndx := elfShort buf 50

/-- The fields of `struct elf32_shdr` that are used. -/
structure Shdr where
  type : ℕ
  flags : ℕ
  addr : ℕ
  offset : ℕ
  size : ℕ
  entsize : ℕ
deriving DecidableEq

/-- `sizeof (struct elf32_shdr)`. -/
def shdrSize : ℕ := 40

/-- Section header `i` of a table. -/
def shdrOf (buf : List Byte) (i : ℕ) : Shdr where
  type := elfLong buf (shdrSize * i + 4)
  flags := elfLong buf (shdrSize * i + 8)
  addr := elfLong buf (shdrSize * i + 12)
  offset := elfLong buf (shdrSize * i + 16)
  size := elfLong buf (shdrSize * i + 20)
  entsize := elfLong buf (shdrSize * i + 36)

/-- The fields of `struct elf32_phdr` that are used. -/
structure Phdr where
  offset : ℕ
  paddr : ℕ
  memsz : ℕ
deriving DecidableEq

/-- `sizeof (struct elf32_phdr)`. -/
def phdrSize : ℕ := 32

/-- Program header `j` of a table. -/
def phdrOf (buf : List Byte) (j : ℕ) : Phdr where
  offset := elfLong buf (phdrSize * j + 4)
  paddr := elfLong buf (phdrSize * j + 12)
  memsz := elfLong buf (phdrSize * j + 20)

/-- `SHT_PROGBITS`. -/
def shtProgbits : ℕ := 1

/-- `SHT_SYMTAB`. -/
def shtSymtab : ℕ := 2

/-- `SHT_STRTAB`. -/
def shtStrtab : ℕ := 3

/-- The number of `SHF_ALLOC`, a bit of the flags. -/
def shfAlloc : ℕ := 1

/-! ### The tables -/

/-- The first `n` headers of a table whose entries are at least as long as the structure. -/
def headers {α : Type} (of : List Byte → ℕ → α) (structSize entsize n : ℕ) (buf : List Byte) :
    Except Stop (List α) :=
  if structSize * n ≤ entsize * n then .ok ((List.range n).map (of buf)) else .error .undefined

/-- `elf_shdata`. -/
def readShdata (file : List Byte) (h : Ehdr) : Except Stop (List Shdr) := do
  let buf ← fread file h.shoff (h.shentsize * h.shnum)
  headers shdrOf shdrSize h.shentsize h.shnum buf

/-- The bytes of `elf_phdata`; without program headers the pointer is null. -/
def readPhdata (file : List Byte) (h : Ehdr) : Except Stop (Option (List Byte)) :=
  if h.phoff = 0 then .ok none
  else (fread file h.phoff (h.phnum * h.phentsize)).map some

/-- The program headers, when a section is loaded. -/
def phdrs (h : Ehdr) : Option (List Byte) → Except Stop (List Phdr)
  | some buf => headers phdrOf phdrSize h.phentsize h.phnum buf
  | none => if h.phnum = 0 then .ok [] else .error .undefined

/-- The string table or symbol table of a section is read, if it is one.  They only serve the
labels, which are left out here. -/
def readTable (file : List Byte) (s : Shdr) : Except Stop Unit :=
  if s.type = shtStrtab then (fread file s.offset s.size).map fun _ => ()
  else if s.type = shtSymtab then do
    let _ ← fread file s.offset s.size
    if s.entsize = 0 then .error .undefined else .ok ()
  else .ok ()

/-- The first loop over the sections. -/
def readTables (file : List Byte) (sections : List Shdr) : Except Stop Unit :=
  sections.forM (readTable file)

/-- `s_str`, the names of the sections, is read; they are only printed. -/
def readNames (file : List Byte) (shstrndx : ℕ) (sections : List Shdr) : Except Stop Unit :=
  if shstrndx = 0 then .ok ()
  else
    match sections[shstrndx]? with
    | some s => (fread file s.offset s.size).map fun _ => ()
    | none => .error .undefined

/-! ### Loading -/

/-- `addprogram`: the address is not translated. -/
def addprogram (M : Memory) (freemem : Addr) (insn : Word) : Memory :=
  (((M.setProgram8 freemem (insn.extractLsb' 24 8)).setProgram8
    (freemem + 1) (insn.extractLsb' 16 8)).setProgram8
    (freemem + 2) (insn.extractLsb' 8 8)).setProgram8
    (freemem + 3) (insn.extractLsb' 0 8)

/-- The loop that copies a section, from the rest of the file. -/
def copyLoop (M : Memory) (freemem : Addr) (sectsize : ℤ) : List Byte → Memory
  | b₀ :: b₁ :: b₂ :: b₃ :: rest =>
    if 0 < sectsize then
      copyLoop (addprogram M freemem (b₀ ++ b₁ ++ b₂ ++ b₃)) (freemem + 4) (sectsize - 4) rest
    else M
  | _ => M

/-- A section is loaded: the bits of `SHT_PROGBITS` are set in its type, and it is allocated. -/
def Shdr.isLoaded (s : Shdr) : Bool := s.type.testBit 0 && s.flags.testBit shfAlloc

/-- A program header covers a section by its place in the file. -/
def Phdr.covers (p : Phdr) (s : Shdr) : Bool :=
  decide (p.offset ≤ s.offset ∧ s.offset < p.offset + p.memsz)

/-- The address of a section in a segment (`uint32_t` arithmetic). -/
def Phdr.place (p : Phdr) (s : Shdr) : Addr :=
  BitVec.ofNat 32 p.paddr + BitVec.ofNat 32 s.offset - BitVec.ofNat 32 p.offset

/-- `padd`: where a section is loaded. -/
def padd (ps : List Phdr) (s : Shdr) : Addr :=
  ps.foldl (fun a p => if p.offset ≠ 0 ∧ p.covers s then p.place s else a) (BitVec.ofNat 32 s.addr)

/-- One round of the second loop over the sections.  `sectsize` is an `int`. -/
def loadSection (file : List Byte) (h : Ehdr) (buf : Option (List Byte)) (M : Memory) (s : Shdr) :
    Except Stop Memory :=
  if s.isLoaded then do
    let ps ← phdrs h buf
    return copyLoop M (padd ps s) (BitVec.ofNat 32 s.size).toInt (file.drop s.offset)
  else .ok M

/-- `readfile_elf`, of a file that can be opened. -/
def readfileElf (file : List Byte) (M : Memory) : Except Stop Memory := do
  let buf ← fread file 0 ehdrSize
  let h := ehdrOf buf
  let sections ← readShdata file h
  let phdata ← readPhdata file h
  readTables file sections
  readNames file h.shstrndx sections
  sections.foldlM (loadSection file h phdata) M

end Loader
end Or1ksim
