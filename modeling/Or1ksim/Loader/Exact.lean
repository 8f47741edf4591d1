import Or1ksim.Lib.Overlay
import Or1ksim.Lib.Runs
import Or1ksim.Loader.Elf

/-!
# What loading an ELF file does to the memory

* `copyLoop_spec` — a copied section is a patch over the memory, of whole words;
* `readfileElf_eq_ok_iff`, `loadSections_eq_ok` — so is a file, section after section, once its
  tables are read;
* `elf_exact` — **every byte of every allocated `PROGBITS` section is in memory at its physical
  address and no other byte has changed**, exactly when no stray byte does harm and every byte that
  is cut off was there before;
* `elf_stray` — a section of one byte, with which three more are written.
-/

namespace Or1ksim
namespace Loader

open Overlay

variable {M M' : Memory} {file : List Byte} {a b : Addr}

/-! ### Copying -/

/-- The addresses that can be written. -/
def mapped (M : Memory) (a : Addr) : Bool := (M.verifyMemoryarea a).isSome

theorem mapped_congr (h : M'.areas = M.areas) : mapped M' = mapped M :=
  funext fun a => congrArg Option.isSome (Memory.verifyMemoryarea_congr h a)

@[simp] theorem areas_setProgram8 (M : Memory) (a : Addr) (v : Byte) :
    (M.setProgram8 a v).areas = M.areas := by
  unfold Memory.setProgram8
  split <;> rfl

@[simp] theorem areas_addprogram (M : Memory) (a : Addr) (insn : Word) :
    (addprogram M a insn).areas = M.areas := by
  simp only [addprogram, areas_setProgram8]

theorem setProgram8_spec (M : Memory) (a : Addr) (v : Byte) :
    target (M.setProgram8 a v).bytes = overlay (mapped M) (target M.bytes) ⟨a, [v]⟩ := by
  funext b
  unfold overlay
  rw [at_singleton, Memory.setProgram8]
  change target (if mapped M a then _ else M).bytes b = _
  by_cases hb : b = a
  · rw [if_pos hb, hb, Option.getD_some]
    split
    · exact Function.update_self ..
    · rfl
  · rw [if_neg hb, Option.getD_none, ite_self]
    split
    · exact Function.update_of_ne (fun h => hb (hostByte_injective h)) ..
    · rfl

/-- The bytes of an instruction are written in the order of the file. -/
theorem addprogram_spec (M : Memory) (a : Addr) (b₀ b₁ b₂ b₃ : Byte) :
    target (addprogram M a (b₀ ++ b₁ ++ b₂ ++ b₃)).bytes =
      overlay (mapped M) (target M.bytes) ⟨a, [b₀, b₁, b₂, b₃]⟩ := by
  have h₀ : (b₀ ++ b₁ ++ b₂ ++ b₃ : Word).extractLsb' 24 8 = b₀ := by
    rw [BitVec.extractLsb'_append_eq_of_le (by decide),
      BitVec.extractLsb'_append_eq_of_le (by decide),
      BitVec.extractLsb'_append_eq_of_le (by decide)]
    exact BitVec.extractLsb'_eq_self
  have h₁ : (b₀ ++ b₁ ++ b₂ ++ b₃ : Word).extractLsb' 16 8 = b₁ := by
    rw [BitVec.extractLsb'_append_eq_of_le (by decide),
      BitVec.extractLsb'_append_eq_of_le (by decide),
      BitVec.extractLsb'_append_eq_of_add_le (by decide)]
    exact BitVec.extractLsb'_eq_self
  have h₂ : (b₀ ++ b₁ ++ b₂ ++ b₃ : Word).extractLsb' 8 8 = b₂ := by
    rw [BitVec.extractLsb'_append_eq_of_le (by decide),
      BitVec.extractLsb'_append_eq_of_add_le (by decide)]
    exact BitVec.extractLsb'_eq_self
  have h₃ : (b₀ ++ b₁ ++ b₂ ++ b₃ : Word).extractLsb' 0 8 = b₃ := by
    rw [BitVec.extractLsb'_append_eq_of_add_le (by decide)]
    exact BitVec.extractLsb'_eq_self
  have hsplit : ∀ (m : Bytes) (c : Addr) (x y : Byte) (zs : List Byte), zs.length ≤ 4 →
      overlay (mapped M) m ⟨c, x :: y :: zs⟩ =
        overlay (mapped M) (overlay (mapped M) m ⟨c, [x]⟩) ⟨c + 1, y :: zs⟩ :=
    fun m c x y zs hzs => overlay_append [x] (by simp; omega)
  simp only [addprogram, setProgram8_spec, mapped_congr (areas_setProgram8 ..), h₀, h₁, h₂, h₃]
  rw [hsplit _ _ _ _ _ (by simp), hsplit _ _ _ _ _ (by simp), hsplit _ _ _ _ _ (by simp),
    BitVec.add_assoc, BitVec.add_assoc]
  rfl

/-- The bytes that are copied of a section of that size, so many of the file being left. -/
def copiedLength (sectsize : ℤ) (left : ℕ) : ℕ := 4 * min ((sectsize + 3) / 4).toNat (left / 4)

theorem copiedLength_le (sectsize : ℤ) (left : ℕ) : copiedLength sectsize left ≤ left := by
  unfold copiedLength
  omega

@[simp] theorem areas_copyLoop (M : Memory) (a : Addr) (sectsize : ℤ) (rest : List Byte) :
    (copyLoop M a sectsize rest).areas = M.areas := by
  fun_induction copyLoop M a sectsize rest with
  | case1 M a sectsize b₀ b₁ b₂ b₃ rest hpos ih => rw [ih, areas_addprogram]
  | case2 => rfl
  | case3 => rfl

theorem copyLoop_spec (M : Memory) (a : Addr) {sectsize : ℤ} (rest : List Byte)
    (hsize : sectsize ≤ 2 ^ 31) :
    target (copyLoop M a sectsize rest).bytes =
      overlay (mapped M) (target M.bytes) ⟨a, rest.take (copiedLength sectsize rest.length)⟩ := by
  fun_induction copyLoop M a sectsize rest with
  | case1 M a sectsize b₀ b₁ b₂ b₃ rest hpos ih =>
    have hlen : copiedLength sectsize (b₀ :: b₁ :: b₂ :: b₃ :: rest).length =
        4 + copiedLength (sectsize - 4) rest.length := by
      simp only [copiedLength, List.length_cons]
      omega
    have hshort : copiedLength (sectsize - 4) rest.length + 4 ≤ 2 ^ 32 := by
      unfold copiedLength
      omega
    rw [ih (by omega), mapped_congr (areas_addprogram ..), addprogram_spec, hlen,
      List.take_add]
    exact (overlay_append [b₀, b₁, b₂, b₃] (by simp; omega)).symm
  | case2 M a sectsize b₀ b₁ b₂ b₃ rest hpos =>
    have hnone : copiedLength sectsize (b₀ :: b₁ :: b₂ :: b₃ :: rest).length = 0 := by
      unfold copiedLength
      omega
    rw [hnone, List.take_zero, overlay_nil]
  | case3 rest M a sectsize hshort =>
    have hnone : copiedLength sectsize rest.length = 0 := by
      match rest, hshort with
      | [], _ => simp [copiedLength]
      | [_], _ => simp [copiedLength]
      | [_, _], _ => simp [copiedLength]
      | [_, _, _], _ => simp [copiedLength]
      | b₀ :: b₁ :: b₂ :: b₃ :: rest, h => exact absurd rfl (h b₀ b₁ b₂ b₃ rest)
    rw [hnone, List.take_zero, overlay_nil]

/-! ### Files -/

/-- The header of a file. -/
def header (file : List Byte) : Ehdr := ehdrOf (file.take ehdrSize)

/-- The table of section headers. -/
def shdata (file : List Byte) : List Byte :=
  (file.drop (header file).shoff).take ((header file).shentsize * (header file).shnum)

/-- The table of program headers. -/
def phdata (file : List Byte) : List Byte :=
  (file.drop (header file).phoff).take ((header file).phnum * (header file).phentsize)

/-- The sections of a file. -/
def sections (file : List Byte) : List Shdr :=
  (List.range (header file).shnum).map (shdrOf (shdata file))

/-- The segments of a file. -/
def segments (file : List Byte) : List Phdr :=
  (List.range (header file).phnum).map (phdrOf (phdata file))

/-- The section has contents: it is an instance of `PROGBITS`, a symbol table or a string table. -/
def Shdr.HasContents (s : Shdr) : Prop :=
  s.type = shtProgbits ∨ s.type = shtSymtab ∨ s.type = shtStrtab

instance (s : Shdr) : Decidable s.HasContents := inferInstanceAs (Decidable (_ ∨ _))

/-- A well-formed file: its tables and the contents of its sections lie in the file. -/
structure IsElf (file : List Byte) : Prop where
  ehdr : ehdrSize ≤ file.length
  shentsize : (header file).shnum ≠ 0 → (header file).shentsize = shdrSize
  shtable : (header file).shoff + shdrSize * (header file).shnum ≤ file.length
  phentsize : (header file).phnum ≠ 0 → (header file).phoff ≠ 0 ∧ (header file).phentsize = phdrSize
  phtable : (header file).phnum ≠ 0 →
    (header file).phoff + (header file).phnum * phdrSize ≤ file.length
  contents : ∀ s ∈ sections file, s.HasContents → s.offset + s.size ≤ file.length
  symbols : ∀ s ∈ sections file, s.type = shtSymtab → s.entsize ≠ 0
  names : (header file).shstrndx = 0 ∨
    ∃ s, (sections file)[(header file).shstrndx]? = some s ∧ s.type = shtStrtab

/-- None of the tables that are read is empty. -/
structure Readable (file : List Byte) : Prop where
  shnum : (header file).shnum ≠ 0
  phnum : (header file).phoff ≠ 0 → (header file).phnum ≠ 0
  tables : ∀ s ∈ sections file, s.type = shtSymtab ∨ s.type = shtStrtab → s.size ≠ 0

theorem fread_eq_ok_iff {pos size : ℕ} {buf : List Byte} (hlen : pos + size ≤ file.length) :
    fread file pos size = .ok buf ↔ size ≠ 0 ∧ buf = (file.drop pos).take size := by
  unfold fread
  by_cases hsize : size = 0
  · rw [if_neg (fun h => by omega)]
    exact ⟨nofun, fun h => absurd hsize h.1⟩
  · rw [if_pos ⟨Nat.pos_of_ne_zero hsize, hlen⟩]
    exact ⟨fun h => ⟨hsize, (Except.ok.inj h).symm⟩, fun h => by rw [h.2]⟩

theorem fread_map_eq_ok_iff {pos size : ℕ} (hlen : pos + size ≤ file.length) :
    (fread file pos size).map (fun _ => ()) = .ok () ↔ size ≠ 0 := by
  simp only [Runs.map_eq_ok_iff, fread_eq_ok_iff hlen, and_true, exists_and_left, exists_eq]

theorem readTable_eq_ok_iff {s : Shdr} (hlen : s.HasContents → s.offset + s.size ≤ file.length)
    (hsymbols : s.type = shtSymtab → s.entsize ≠ 0) :
    readTable file s = .ok () ↔ (s.type = shtSymtab ∨ s.type = shtStrtab → s.size ≠ 0) := by
  unfold readTable
  by_cases hstr : s.type = shtStrtab
  · rw [if_pos hstr, fread_map_eq_ok_iff (hlen (.inr (.inr hstr)))]
    exact ⟨fun h _ => h, fun h => h (.inr hstr)⟩
  · rw [if_neg hstr]
    by_cases hsym : s.type = shtSymtab
    · rw [if_pos hsym, if_neg (hsymbols hsym), Runs.bind_eq_ok_iff]
      simp only [fread_eq_ok_iff (hlen (.inr (.inl hsym))), and_true, exists_and_left, exists_eq]
      exact ⟨fun h _ => h, fun h => h (.inl hsym)⟩
    · rw [if_neg hsym]
      exact ⟨fun _ h => absurd h (not_or.2 ⟨hsym, hstr⟩), fun _ => rfl⟩

theorem readTables_eq_ok_iff {ss : List Shdr}
    (hlen : ∀ s ∈ ss, s.HasContents → s.offset + s.size ≤ file.length)
    (hsymbols : ∀ s ∈ ss, s.type = shtSymtab → s.entsize ≠ 0) :
    readTables file ss = .ok () ↔
      ∀ s ∈ ss, s.type = shtSymtab ∨ s.type = shtStrtab → s.size ≠ 0 := by
  induction ss with
  | nil => exact ⟨fun _ s hs => absurd hs List.not_mem_nil, fun _ => rfl⟩
  | cons s ss ih =>
    change (readTable file s >>= fun _ => readTables file ss) = .ok () ↔ _
    rw [Runs.bind_eq_ok_iff, List.forall_mem_cons,
      ← readTable_eq_ok_iff (hlen s (.head ss)) (hsymbols s (.head ss)),
      ← ih (fun t ht => hlen t (.tail s ht)) (fun t ht => hsymbols t (.tail s ht))]
    exact ⟨fun ⟨_, h⟩ => h, fun h => ⟨(), h⟩⟩

theorem headers_eq_ok {α : Type} (of : List Byte → ℕ → α) {structSize entsize n : ℕ}
    (buf : List Byte) (hentsize : n ≠ 0 → entsize = structSize) :
    headers of structSize entsize n buf = .ok ((List.range n).map (of buf)) := by
  refine if_pos ?_
  rcases Nat.eq_zero_or_pos n with rfl | hpos
  · exact Nat.le_refl _
  · rw [hentsize (Nat.ne_of_gt hpos)]

/-- `elf_phdata` of a file. -/
def phbuf (file : List Byte) : Option (List Byte) :=
  if (header file).phoff = 0 then none else some (phdata file)

theorem readShdata_eq_ok_iff (hfile : IsElf file) {ss : List Shdr} :
    readShdata file (header file) = .ok ss ↔ (header file).shnum ≠ 0 ∧ ss = sections file := by
  by_cases hnum : (header file).shnum = 0
  · have hfail : readShdata file (header file) = .error .exit := by
      unfold readShdata fread
      rw [hnum, Nat.mul_zero, if_neg (fun h => absurd h.1 (Nat.lt_irrefl 0))]
      rfl
    rw [hfail]
    exact ⟨nofun, fun h => absurd hnum h.1⟩
  · have hlen := hfile.shtable
    rw [← hfile.shentsize hnum] at hlen
    have hsize : (header file).shentsize * (header file).shnum ≠ 0 := by
      rw [hfile.shentsize hnum]
      exact Nat.mul_ne_zero (by decide) hnum
    rw [readShdata, Runs.bind_eq_ok_iff]
    simp only [fread_eq_ok_iff hlen, headers_eq_ok shdrOf _ (hfile.shentsize)]
    constructor
    · rintro ⟨buf, ⟨-, rfl⟩, h⟩
      exact ⟨hnum, (Except.ok.inj h).symm⟩
    · rintro ⟨-, rfl⟩
      exact ⟨_, ⟨hsize, rfl⟩, rfl⟩

theorem readPhdata_eq_ok_iff (hfile : IsElf file) {buf : Option (List Byte)} :
    readPhdata file (header file) = .ok buf ↔
      ((header file).phoff ≠ 0 → (header file).phnum ≠ 0) ∧ buf = phbuf file := by
  unfold readPhdata phbuf
  by_cases hoff : (header file).phoff = 0
  · rw [if_pos hoff, if_pos hoff]
    exact ⟨fun h => ⟨fun h' => absurd hoff h', (Except.ok.inj h).symm⟩, fun h => by rw [h.2]⟩
  · rw [if_neg hoff, if_neg hoff]
    by_cases hnum : (header file).phnum = 0
    · have hfail : fread file (header file).phoff ((header file).phnum * (header file).phentsize) =
          .error .exit := by
        unfold fread
        rw [hnum, Nat.zero_mul, if_neg (fun h => absurd h.1 (Nat.lt_irrefl 0))]
      rw [hfail]
      exact ⟨nofun, fun h => absurd hnum (h.1 hoff)⟩
    · have hlen := hfile.phtable hnum
      rw [← (hfile.phentsize hnum).2] at hlen
      have hsize : (header file).phnum * (header file).phentsize ≠ 0 := by
        rw [(hfile.phentsize hnum).2]
        exact Nat.mul_ne_zero hnum (by decide)
      simp only [Runs.map_eq_ok_iff, fread_eq_ok_iff hlen]
      constructor
      · rintro ⟨bytes, ⟨-, rfl⟩, rfl⟩
        exact ⟨fun _ => hnum, rfl⟩
      · rintro ⟨-, rfl⟩
        exact ⟨_, ⟨hsize, rfl⟩, rfl⟩

theorem phdrs_eq_ok (hfile : IsElf file) :
    phdrs (header file) (phbuf file) = .ok (segments file) := by
  unfold phbuf
  by_cases hoff : (header file).phoff = 0
  · have hnum : (header file).phnum = 0 :=
      Decidable.byContradiction fun h => (hfile.phentsize h).1 hoff
    rw [if_pos hoff, phdrs, if_pos hnum, segments, hnum]
    rfl
  · rw [if_neg hoff]
    exact headers_eq_ok phdrOf _ fun hnum => (hfile.phentsize hnum).2

theorem readNames_eq_ok (hfile : IsElf file)
    (htables : ∀ s ∈ sections file, s.type = shtSymtab ∨ s.type = shtStrtab → s.size ≠ 0) :
    readNames file (header file).shstrndx (sections file) = .ok () := by
  unfold readNames
  rcases hfile.names with hzero | ⟨s, hs, hstr⟩
  · exact if_pos hzero
  · split
    · rfl
    · have hmem := List.mem_of_getElem? hs
      rw [hs]
      exact (fread_map_eq_ok_iff (hfile.contents s hmem (.inr (.inr hstr)))).2
        (htables s hmem (.inr hstr))

/-- A well-formed file is loaded exactly when its tables are not empty. -/
theorem readfileElf_eq_ok_iff (hfile : IsElf file) :
    readfileElf file M = .ok M' ↔ Readable file ∧
      (sections file).foldlM (loadSection file (header file) (phbuf file)) M = .ok M' := by
  have hehdr : fread file 0 ehdrSize = .ok (file.take ehdrSize) :=
    (fread_eq_ok_iff (by rw [Nat.zero_add]; exact hfile.ehdr)).2 ⟨by decide, by rw [List.drop_zero]⟩
  simp only [readfileElf, hehdr, Runs.bind_eq_ok_iff, Except.ok.injEq, exists_eq_left']
  change (∃ ss, readShdata file (header file) = .ok ss ∧ ∃ buf,
    readPhdata file (header file) = .ok buf ∧ _) ↔ _
  simp only [readShdata_eq_ok_iff hfile, readPhdata_eq_ok_iff hfile]
  constructor
  · rintro ⟨ss, ⟨hshnum, rfl⟩, buf, ⟨hphnum, rfl⟩, ⟨⟩, htables, ⟨⟩, -, hload⟩
    exact ⟨⟨hshnum, hphnum, (readTables_eq_ok_iff hfile.contents hfile.symbols).1 htables⟩, hload⟩
  · rintro ⟨hreadable, hload⟩
    exact ⟨_, ⟨hreadable.shnum, rfl⟩, _, ⟨hreadable.phnum, rfl⟩, (),
      (readTables_eq_ok_iff hfile.contents hfile.symbols).2 hreadable.tables, (),
      readNames_eq_ok hfile hreadable.tables, hload⟩

/-! ### Sections -/

/-- The bytes that are copied of a section of a file. -/
def copySize (file : List Byte) (s : Shdr) : ℕ :=
  if s.isLoaded then copiedLength (BitVec.ofNat 32 s.size).toInt (file.length - s.offset) else 0

/-- What is written of a section. -/
def patch (file : List Byte) (s : Shdr) : Patch 32 Byte :=
  ⟨padd (segments file) s, (file.drop s.offset).take (copySize file s)⟩

/-- Byte `j` behind the start of a section is written to the address. -/
def Copies (file : List Byte) (s : Shdr) (j : ℕ) (b : Addr) : Prop :=
  j < copySize file s ∧ b = padd (segments file) s + BitVec.ofNat 32 j

theorem toInt_le (x : Word) : x.toInt ≤ 2 ^ 31 := by
  have hlt := BitVec.two_mul_toInt_lt (x := x)
  omega

theorem copySize_le (file : List Byte) (s : Shdr) :
    copySize file s ≤ file.length - s.offset ∧ copySize file s ≤ 2 ^ 32 := by
  unfold copySize
  split
  · have hle := toInt_le (BitVec.ofNat 32 s.size)
    refine ⟨copiedLength_le .., ?_⟩
    unfold copiedLength
    omega
  · exact ⟨Nat.zero_le _, Nat.zero_le _⟩

theorem patch_at_eq_some_iff {s : Shdr} {v : Byte} :
    (patch file s).at b = some v ↔ ∃ j, Copies file s j b ∧ file[s.offset + j]? = some v := by
  have hlen : (patch file s).values.length ≤ 2 ^ 32 :=
    Nat.le_trans (List.length_take_le ..) (copySize_le file s).2
  rw [at_eq_some_iff hlen]
  refine exists_congr fun j => ?_
  unfold patch Copies
  dsimp only
  rw [List.getElem?_take]
  by_cases hj : j < copySize file s
  · rw [if_pos hj, List.getElem?_drop]
    exact ⟨fun h => ⟨⟨hj, h.2⟩, h.1⟩, fun h => ⟨h.2, h.1.2⟩⟩
  · rw [if_neg hj]
    exact ⟨fun h => (nomatch h.1), fun h => absurd h.1.1 hj⟩

theorem patch_at_eq_none_iff {s : Shdr} :
    (patch file s).at b = none ↔ ∀ j, ¬Copies file s j b := by
  constructor
  · intro hnone j hj
    have hlt : s.offset + j < file.length := by
      have hle := (copySize_le file s).1
      have hj := hj.1
      omega
    have hsome := patch_at_eq_some_iff.2 ⟨j, hj, List.getElem?_eq_getElem hlt⟩
    exact nomatch hnone.symm.trans hsome
  · intro h
    refine Option.eq_none_iff_forall_ne_some.2 fun v hv => ?_
    obtain ⟨j, hj, -⟩ := patch_at_eq_some_iff.1 hv
    exact h j hj

theorem loadSection_eq_ok (hfile : IsElf file) (M : Memory) (s : Shdr) :
    ∃ M', loadSection file (header file) (phbuf file) M s = .ok M' ∧ M'.areas = M.areas ∧
      target M'.bytes = overlay (mapped M) (target M.bytes) (patch file s) := by
  unfold loadSection patch copySize
  cases s.isLoaded with
  | false => exact ⟨M, rfl, rfl, by rw [if_neg Bool.false_ne_true, List.take_zero, overlay_nil]⟩
  | true =>
    rw [if_pos rfl, if_pos rfl, phdrs_eq_ok hfile, ← List.length_drop]
    exact ⟨_, rfl, areas_copyLoop .., copyLoop_spec _ _ _ (toInt_le _)⟩

theorem loadSections_eq_ok (hfile : IsElf file) (M : Memory) (ss : List Shdr) :
    ∃ M', ss.foldlM (loadSection file (header file) (phbuf file)) M = .ok M' ∧
      target M'.bytes = overlays (mapped M) (target M.bytes) (ss.map (patch file)) := by
  induction ss generalizing M with
  | nil => exact ⟨M, rfl, rfl⟩
  | cons s ss ih =>
    obtain ⟨N, hN, hareas, hbytes⟩ := loadSection_eq_ok hfile M s
    obtain ⟨M', hM', hrest⟩ := ih N
    refine ⟨M', Runs.foldlM_cons_eq_ok_iff.2 ⟨N, hN, hM'⟩, ?_⟩
    rw [hrest, mapped_congr hareas, hbytes]
    rfl

/-! ### Main result -/

/-- The format loads a section: it is an allocated instance of `PROGBITS`. -/
def Shdr.isImage (s : Shdr) : Bool := decide (s.type = shtProgbits) && s.flags.testBit shfAlloc

/-- The physical address of a section: its address, or its place in the segment that covers it. -/
def physAddr (ps : List Phdr) (s : Shdr) : Addr :=
  ps.foldl (fun a p => if p.covers s then p.place s else a) (BitVec.ofNat 32 s.addr)

/-- Byte `i` of a section that the format loads has its place at the address. -/
def Lies (file : List Byte) (s : Shdr) (i : ℕ) (b : Addr) : Prop :=
  s.isImage = true ∧ i < s.size ∧ b = physAddr (segments file) s + BitVec.ofNat 32 i

/-- The sections lie in memory, apart from each other. -/
structure Placed (file : List Byte) (M : Memory) : Prop where
  mapped : ∀ s ∈ sections file, ∀ i b, Lies file s i b → mapped M b = true
  apart : (sections file).Pairwise fun s t => ∀ i j b, Lies file s i b → ¬Lies file t j b

/-- The value belongs at the address: it is the byte of the section there, or, where no section is,
what the memory holds. -/
def Belongs (file : List Byte) (M : Memory) (b : Addr) (v : Byte) : Prop :=
  (∀ s ∈ sections file, ∀ i, Lies file s i b → file[s.offset + i]? = some v) ∧
    ((∀ s ∈ sections file, ∀ i, ¬Lies file s i b) → v = target M.bytes b)

/-- The file is loaded, and every byte is what belongs at its address then. -/
def Exact (file : List Byte) (M : Memory) : Prop :=
  ∃ M', readfileElf file M = .ok M' ∧ ∀ b, Belongs file M b (target M'.bytes b)

/-- Byte `j` of what is copied of a section has no place at the address in it: it stands behind the
end of the section, or the section does not lie there. -/
def Stray (file : List Byte) (s : Shdr) (j : ℕ) (b : Addr) : Prop :=
  Copies file s j b ∧ ¬Lies file s j b

/-- No table of the file is empty; a stray byte that is not copied over is the byte of the section
that it falls on, or the one that the memory holds where no section is; and a byte that is cut off
is there already. -/
structure Harmless (file : List Byte) (M : Memory) : Prop where
  readable : Readable file
  stray : ∀ pre s post, sections file = pre ++ s :: post → ∀ j b v, Stray file s j b →
    mapped M b = true → file[s.offset + j]? = some v → (∀ u ∈ post, ∀ k, ¬Copies file u k b) →
    (∀ t ∈ sections file, ∀ i, Lies file t i b → file[t.offset + i]? = some v) ∧
      ((∀ t ∈ sections file, ∀ i, ¬Lies file t i b) → v = target M.bytes b)
  cut : ∀ s ∈ sections file, ∀ i b, Lies file s i b →
    (∀ u ∈ sections file, ∀ k, ¬Copies file u k b) → file[s.offset + i]? = some (target M.bytes b)

theorem elfLong_lt (buf : List Byte) (i : ℕ) : elfLong buf i < 2 ^ 32 := by
  have hlt : ∀ k, byteAt buf k < 2 ^ 8 := fun k => BitVec.isLt _
  have h0 := hlt i
  have h1 := hlt (i + 1)
  have h2 := hlt (i + 2)
  have h3 := hlt (i + 2 + 1)
  unfold elfLong elfShort
  omega

theorem size_lt_of_mem {s : Shdr} (hs : s ∈ sections file) : s.size < 2 ^ 32 := by
  obtain ⟨i, -, rfl⟩ := List.mem_map.1 hs
  exact elfLong_lt _ _

/-- The byte of a section belongs at its place, since the sections lie apart. -/
theorem Placed.belongs {pre post : List Shdr} {s : Shdr} {j : ℕ} {v : Byte}
    (hplaced : Placed file M) (hsplit : sections file = pre ++ s :: post) (hlies : Lies file s j b)
    (hv : file[s.offset + j]? = some v) : Belongs file M b v := by
  have hs : s ∈ sections file := hsplit ▸ List.mem_append_right pre (.head post)
  have hapart := hplaced.apart
  rw [hsplit, List.pairwise_append, List.pairwise_cons] at hapart
  obtain ⟨-, ⟨hpost, -⟩, hpre⟩ := hapart
  refine ⟨fun t ht i hi => ?_, fun h => absurd hlies (h s hs j)⟩
  rw [hsplit] at ht
  rcases List.mem_append.1 ht with ht | ht
  · exact absurd hlies (hpre t ht s (.head post) i j b hi)
  rcases List.mem_cons.1 ht with rfl | ht
  · have heq := (BitVec.add_right_inj _).1 (hi.2.2.symm.trans hlies.2.2)
    have hlt := size_lt_of_mem hs
    have hij := congrArg BitVec.toNat heq
    rw [BitVec.toNat_ofNat, BitVec.toNat_ofNat, Nat.mod_eq_of_lt (hi.2.1.trans hlt),
      Nat.mod_eq_of_lt (hlies.2.1.trans hlt)] at hij
    rw [hij, hv]
  · exact absurd hi (hpost t ht j i b hlies)

/-- Whole words, loaded where and when the format loads them, do no harm. -/
theorem harmless_of_words (hfile : IsElf file) (hreadable : Readable file)
    (himage : ∀ s ∈ sections file, s.isLoaded = true → s.isImage = true)
    (hpadd : ∀ s ∈ sections file, padd (segments file) s = physAddr (segments file) s)
    (hsize : ∀ s ∈ sections file, s.size < 2 ^ 31 ∧ s.size % 4 = 0) : Harmless file M := by
  -- What is copied of a section is the section.
  have hcopies : ∀ s ∈ sections file, ∀ j b, Copies file s j b ↔ Lies file s j b := by
    intro s hs j b
    unfold Copies Lies
    rw [hpadd s hs, ← and_assoc]
    refine and_congr_left fun _ => ?_
    cases hl : s.isLoaded with
    | false =>
      have hno : s.isImage ≠ true := fun h => by
        obtain ⟨htype, halloc⟩ := Bool.and_eq_true_iff.1 h
        rw [Shdr.isLoaded, of_decide_eq_true htype, halloc] at hl
        exact absurd hl (by decide)
      rw [copySize, hl, if_neg Bool.false_ne_true]
      exact ⟨fun h => absurd h (Nat.not_lt_zero j), fun h => absurd h.1 hno⟩
    | true =>
      have him := himage s hs hl
      obtain ⟨hlt, hmod⟩ := hsize s hs
      have hend := hfile.contents s hs (.inl (of_decide_eq_true (Bool.and_eq_true_iff.1 him).1))
      have hint : (BitVec.ofNat 32 s.size).toInt = s.size := by
        rw [BitVec.toInt_eq_toNat_of_lt (by rw [BitVec.toNat_ofNat]; omega), BitVec.toNat_ofNat,
          Nat.mod_eq_of_lt (by omega)]
      have hcopy : copySize file s = s.size := by
        rw [copySize, hl, if_pos rfl, hint, copiedLength]
        omega
      rw [hcopy]
      exact ⟨fun h => ⟨him, h⟩, fun h => h.2⟩
  refine ⟨hreadable, fun pre s post hsplit j b v hj => ?_, fun s hs i b hi hnone => ?_⟩
  · have hs : s ∈ sections file := hsplit ▸ List.mem_append_right pre (.head post)
    exact absurd ((hcopies s hs j b).1 hj.1) hj.2
  · exact absurd ((hcopies s hs i b).2 hi) (hnone s hs i)

/-- **A well-formed file is loaded exactly when its copied bytes do no harm.** -/
theorem elf_exact (hfile : IsElf file) (hplaced : Placed file M) :
    Exact file M ↔ Harmless file M := by
  obtain ⟨N, hN, hbytes⟩ := loadSections_eq_ok hfile M (sections file)
  have hunmapped : ∀ b, mapped M b = false → Belongs file M b (target M.bytes b) := by
    refine fun b hb => ⟨fun s hs i hi => ?_, fun _ => rfl⟩
    exact absurd (hplaced.mapped s hs i b hi) (by rw [hb]; exact Bool.false_ne_true)
  have hat : ∀ b, mapped M b = true → (Belongs file M b (target N.bytes b) ↔
      (∀ pre s post, sections file = pre ++ s :: post → ∀ j v, Copies file s j b →
        file[s.offset + j]? = some v → (∀ u ∈ post, ∀ k, ¬Copies file u k b) →
        Belongs file M b v) ∧
      ((∀ u ∈ sections file, ∀ k, ¬Copies file u k b) → Belongs file M b (target M.bytes b))) := by
    intro b hb
    rw [hbytes, overlays_iff (P := Belongs file M b) hb]
    simp only [patch_at_eq_some_iff, patch_at_eq_none_iff]
    refine and_congr_left fun _ => ?_
    constructor
    · exact fun h pre s post hsplit j v hj hv => h pre s post v hsplit ⟨j, hj, hv⟩
    · exact fun h pre s post v hsplit ⟨j, hj, hv⟩ => h pre s post hsplit j v hj hv
  constructor
  · rintro ⟨M', hM', hbelongs⟩
    obtain ⟨hreadable, hload⟩ := (readfileElf_eq_ok_iff hfile).1 hM'
    obtain rfl : N = M' := Except.ok.inj (hN.symm.trans hload)
    refine ⟨hreadable, fun pre s post hsplit j b v hj hb hv hpost => ?_,
      fun s hs i b hi hnone => ?_⟩
    · exact ((hat b hb).1 (hbelongs b)).1 pre s post hsplit j v hj.1 hv hpost
    · have hb := hplaced.mapped s hs i b hi
      exact (((hat b hb).1 (hbelongs b)).2 hnone).1 s hs i hi
  · rintro ⟨hreadable, hstray, hcut⟩
    refine ⟨N, (readfileElf_eq_ok_iff hfile).2 ⟨hreadable, hN⟩, fun b => ?_⟩
    cases hb : mapped M b with
    | false =>
      rw [hbytes, overlays_of_unmapped hb]
      exact hunmapped b hb
    | true =>
      refine (hat b hb).2 ⟨fun pre s post hsplit j v hj hv hpost => ?_, fun hnone => ?_⟩
      · by_cases hlies : Lies file s j b
        · exact hplaced.belongs hsplit hlies hv
        · exact hstray pre s post hsplit j b v ⟨hj, hlies⟩ hb hv hpost
      · exact ⟨fun s hs i hi => hcut s hs i b hi hnone, fun _ => rfl⟩

/-! ### A file -/

/-- The header of a file, with the number of its sections. -/
def elfHeader (shnum : Byte) : List Byte :=
  [0x7F, 0x45, 0x4C, 0x46, 1, 2, 1] ++ List.replicate 9 0 ++  -- `e_ident`
    [0, 2, 0, 0x5C, 0, 0, 0, 1] ++ List.replicate 8 0 ++
    [0, 0, 0, 52] ++ List.replicate 4 0 ++  -- `e_shoff`
    [0, 52, 0, 0, 0, 0, 0, 40, 0, shnum, 0, 0]

/-- The header of a section that is loaded; its address ends with `0x00`. -/
def sectionHeader (page offset size : Byte) : List Byte :=
  [0, 0, 0, 0, 0, 0, 0, 1, 0, 0, 0, 2, 0, 0, page, 0, 0, 0, 0, offset, 0, 0, 0, size] ++
    List.replicate 16 0

/-- Two sections, of four bytes at address `0x100` and of eight at address `0x200`. -/
def twoSections : List Byte :=
  elfHeader 2 ++ sectionHeader 1 132 4 ++ sectionHeader 2 136 8 ++
    [0xA1, 0xA2, 0xA3, 0xA4, 0xB1, 0xB2, 0xB3, 0xB4, 0xB5, 0xB6, 0xB7, 0xB8]

/-- The sections. -/
def twoShdrs : List Shdr :=
  [⟨shtProgbits, 2, 0x100, 132, 4, 0⟩, ⟨shtProgbits, 2, 0x200, 136, 8, 0⟩]

/-- A memory of all ones. -/
def ones : Memory := Memory.flat fun _ => 0xFF

theorem mapped_ones (b : Addr) : mapped ones b = true := by
  obtain ⟨r, hr, -⟩ := Memory.flat_ram (fun _ => 0xFF) b
  exact Option.isSome_of_eq_some hr

theorem sections_twoSections : sections twoSections = twoShdrs := by decide

theorem twoSections_isElf : IsElf twoSections := by
  have hheader : header twoSections = ⟨0, 52, 0, 0, 40, 2, 0⟩ ∧ twoSections.length = 144 :=
    ⟨by decide, rfl⟩
  obtain ⟨hheader, hlength⟩ := hheader
  constructor <;> simp only [hheader, hlength, sections_twoSections] <;> decide

theorem twoSections_placed : Placed twoSections ones := by
  refine ⟨fun _ _ _ b _ => mapped_ones b, ?_⟩
  rw [sections_twoSections]
  refine List.pairwise_pair.2 ?_
  rintro i j b ⟨-, hi, rfl⟩ ⟨-, hj, heq⟩
  have hapart : ∀ i < 4, ∀ j < 8,
      0x100#32 + BitVec.ofNat 32 i ≠ 0x200#32 + BitVec.ofNat 32 j := by decide
  exact hapart i hi j hj heq

/-- Two sections of whole words. -/
theorem elf_exact_words : Exact twoSections ones := by
  refine (elf_exact twoSections_isElf twoSections_placed).2
    (harmless_of_words twoSections_isElf ⟨by decide, by decide, ?_⟩ ?_ ?_ ?_)
  all_goals
    rw [sections_twoSections]
    decide

/-- A section of one byte, with four bytes of contents. -/
def sample : List Byte := elfHeader 1 ++ sectionHeader 1 92 1 ++ [0xA1, 0xA2, 0xA3, 0xA4]

/-- The section of the sample. -/
def sampleSection : Shdr := ⟨shtProgbits, 2, 0x100, 92, 1, 0⟩

theorem sections_sample : sections sample = [sampleSection] := by decide

theorem sample_isElf : IsElf sample := by
  have hheader : header sample = ⟨0, 52, 0, 0, 40, 1, 0⟩ ∧ sample.length = 96 :=
    ⟨by decide, rfl⟩
  obtain ⟨hheader, hlength⟩ := hheader
  constructor <;> simp only [hheader, hlength, sections_sample] <;> decide

theorem sample_placed : Placed sample ones := by
  refine ⟨fun _ _ _ b _ => mapped_ones b, ?_⟩
  rw [sections_sample]
  exact List.pairwise_singleton _ _

/-- A section of one byte: the three bytes behind it in the file are written behind it in memory. -/
theorem elf_stray : ¬∀ (file : List Byte) (M : Memory), IsElf file → Placed file M →
    Exact file M := by
  intro hall
  obtain ⟨M', hM', hbelongs⟩ := hall _ _ sample_isElf sample_placed
  obtain ⟨N, hN, hbyte⟩ := Runs.exists_ok_of_any (x := readfileElf sample ones)
    (p := fun N => target N.bytes 0x101 == 0xA2) (by decide)
  obtain rfl := Except.ok.inj (hN.symm.trans hM')
  -- No section has the second byte.
  have hkept := (hbelongs 0x101).2 (by
    rw [sections_sample, List.forall_mem_singleton]
    rintro i ⟨-, hi, haddr⟩
    obtain rfl : i = 0 := Nat.lt_one_iff.1 hi
    exact absurd haddr (by decide))
  rw [beq_iff_eq.1 hbyte] at hkept
  exact absurd hkept (by decide)

end Loader
end Or1ksim
