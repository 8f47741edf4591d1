import Mathlib.Data.Finset.Basic
import Or1ksim.Rsp.Matchpoint

/-!
# Breakpoints are transparent

`Planted M B s` says that the server state `s` is the original memory `M` with breakpoints at the
addresses `B`: the words of `B` hold the trap, every other word is the original one, and the
matchpoint table holds the original instruction of each address of `B` and nothing else.

* `planted_insert`, `planted_remove` — one request maintains it, a repeated one included;
* `planted_run` — so does every sequence of requests;
* `rspRun_transparent` — **breakpoint transparency**: the memory and the table after any sequence
  of requests, and the original memory once every inserted breakpoint is removed.
-/

namespace Or1ksim
namespace Rsp

/-- A memory-breakpoint request, as the client means it. -/
inductive Request where
  | insert (a : Addr)
  | remove (a : Addr)
deriving DecidableEq, Repr

/-- The address of a request. -/
def Request.addr : Request → Addr
  | .insert a => a
  | .remove a => a

/-- The packet text encodes the request: type digit `0` and the address in 32 bits. -/
def IsRequest (data : Packet) : Request → Prop
  | .insert a => ∃ len, scanMatchpoint 'Z' data = some (0, a.setWidth 64, len)
  | .remove a => ∃ len, scanMatchpoint 'z' data = some (0, a.setWidth 64, len)

/-- Effect of a request on the set of inserted addresses. -/
def Request.apply (B : Finset Addr) : Request → Finset Addr
  | .insert a => Insert.insert a B
  | .remove a => B.erase a

/-- The addresses inserted and not since removed. -/
def inserted (rs : List Request) : Finset Addr := rs.foldl Request.apply ∅

/-- The request addresses an aligned word of RAM. -/
def Request.OnRam (M : Memory) (r : Request) : Prop := r.addr.toNat % 4 = 0 ∧ M.Ram r.addr

/-- Memory `M` with breakpoints at `B`, and the table that remembers what they replaced. -/
structure Planted (M : Memory) (B : Finset Addr) (s : State) : Prop where
  /-- The areas never change. -/
  areas : s.mem.areas = M.areas
  /-- Inserted addresses hold the trap, all other words are untouched. -/
  words : ∀ b, wordAt s.mem.bytes b =
    if wordBase b ∈ B then or1kTrapInstr else wordAt M.bytes b
  /-- The table is well formed. -/
  wf : HashTable.WF mpHashValue s.mpHash
  /-- The table maps exactly the inserted addresses to their original instruction. -/
  lookup : ∀ type addr instr, mpHashLookup s.mpHash type addr = some instr ↔
    type = .bpMemory ∧ ∃ a ∈ B, addr = a.setWidth 64 ∧ instr = (wordAt M.bytes a).setWidth 64

variable {M : Memory} {B : Finset Addr} {s : State} {a : Addr}

/-! ### Addresses as table keys -/

theorem setWidth_64_32 (a : Addr) : (a.setWidth 64).setWidth 32 = a := by
  apply BitVec.eq_of_toNat_eq
  have := a.isLt
  simp only [BitVec.toNat_setWidth]
  omega

theorem setWidth_64_inj {a b : Addr} (h : a.setWidth 64 = b.setWidth 64) : a = b := by
  rw [← setWidth_64_32 a, h, setWidth_64_32]

theorem lookup_none_of_notMem (h : Planted M B s) (ha : a ∉ B) :
    mpHashLookup s.mpHash .bpMemory (a.setWidth 64) = none := by
  cases hl : mpHashLookup s.mpHash .bpMemory (a.setWidth 64) with
  | none => rfl
  | some v =>
    obtain ⟨-, b, hb, hab, -⟩ := (h.lookup _ _ _).1 hl
    exact absurd (setWidth_64_inj hab ▸ hb) ha

theorem lookup_some_of_mem (h : Planted M B s) (ha : a ∈ B) :
    mpHashLookup s.mpHash .bpMemory (a.setWidth 64) = some ((wordAt M.bytes a).setWidth 64) :=
  (h.lookup _ _ _).2 ⟨rfl, a, ha, rfl, rfl⟩

/-! ### One request -/

theorem planted_init (M : Memory) : Planted M ∅ (rspInit M) where
  areas := rfl
  words := fun b => by simp [rspInit]
  wf := HashTable.wf_empty
  lookup := by simp [mpHashLookup, HashTable.lookup, rspInit, mpHashInit]

/-- Inserting saves the original instruction, also when the trap is already there. -/
theorem planted_insert (h : Planted M B s) (ha : a.toNat % 4 = 0) (hr : M.Ram a) :
    Planted M (insert a B)
      { mpHash := mpHashAdd s.mpHash .bpMemory (a.setWidth 64)
          ((s.mem.evalDirect32 a).setWidth 64)
        mem := s.mem.setProgram32 a or1kTrapInstr } where
  areas := by rw [Memory.areas_setProgram32, h.areas]
  words := fun b => by
    have hrs : s.mem.Ram a := (Memory.ram_congr h.areas).2 hr
    rw [Memory.bytes_setProgram32_of_ram hrs ha, wordAt_simmemWrite32 _ ha, wordBase_of_aligned ha,
      h.words b]
    by_cases hb : wordBase b = a
    · simp [hb]
    · simp [hb]
  wf := h.wf.add
  lookup := fun type addr instr => by
    have hrs : s.mem.Ram a := (Memory.ram_congr h.areas).2 hr
    rw [mpHashLookup, mpHashAdd, HashTable.lookup_add]
    by_cases hk : (type, addr) = (MpType.bpMemory, a.setWidth 64)
    · rw [if_pos hk]
      obtain ⟨rfl, rfl⟩ := Prod.mk.inj hk
      have hval : (mpHashLookup s.mpHash .bpMemory (a.setWidth 64)).getD
          ((s.mem.evalDirect32 a).setWidth 64) = (wordAt M.bytes a).setWidth 64 := by
        by_cases hmem : a ∈ B
        · rw [lookup_some_of_mem h hmem, Option.getD_some]
        · rw [lookup_none_of_notMem h hmem, Option.getD_none, Memory.evalDirect32_of_ram hrs ha,
            h.words, wordBase_of_aligned ha, if_neg hmem]
      rw [mpHashLookup] at hval
      rw [hval, Option.some.injEq]
      constructor
      · rintro rfl
        exact ⟨rfl, a, Finset.mem_insert_self a B, rfl, rfl⟩
      · rintro ⟨-, b, -, hab, rfl⟩
        rw [setWidth_64_inj hab]
    · rw [if_neg hk]
      refine (h.lookup type addr instr).trans ⟨?_, ?_⟩
      · rintro ⟨ht, b, hb, hab, hi⟩
        exact ⟨ht, b, Finset.mem_insert_of_mem hb, hab, hi⟩
      · rintro ⟨ht, b, hb, hab, hi⟩
        refine ⟨ht, b, (Finset.mem_insert.1 hb).resolve_left ?_, hab, hi⟩
        rintro rfl
        exact hk (by rw [ht, hab])

theorem lookup_delete_iff (h : Planted M B s) (type : MpType) (addr instr : BitVec 64) :
    mpHashLookup (mpHashDelete s.mpHash .bpMemory (a.setWidth 64)).2 type addr = some instr ↔
      type = .bpMemory ∧ ∃ b ∈ B.erase a, addr = b.setWidth 64 ∧
        instr = (wordAt M.bytes b).setWidth 64 := by
  rw [mpHashLookup, mpHashDelete, HashTable.lookup_delete h.wf]
  by_cases hk : (type, addr) = (MpType.bpMemory, a.setWidth 64)
  · rw [if_pos hk]
    obtain ⟨rfl, rfl⟩ := Prod.mk.inj hk
    constructor
    · intro hn
      cases hn
    · rintro ⟨-, b, hb, hab, -⟩
      exact absurd (setWidth_64_inj hab).symm (Finset.ne_of_mem_erase hb)
  · rw [if_neg hk]
    refine (h.lookup type addr instr).trans ⟨?_, ?_⟩
    · rintro ⟨ht, b, hb, hab, hi⟩
      refine ⟨ht, b, Finset.mem_erase.2 ⟨?_, hb⟩, hab, hi⟩
      rintro rfl
      exact hk (by rw [ht, hab])
    · rintro ⟨ht, b, hb, hab, hi⟩
      exact ⟨ht, b, Finset.mem_of_mem_erase hb, hab, hi⟩

/-- Removing an inserted breakpoint puts the original instruction back. -/
theorem planted_remove_of_mem (h : Planted M B s) (ha : a.toNat % 4 = 0) (hr : M.Ram a) :
    Planted M (B.erase a)
      { mpHash := (mpHashDelete s.mpHash .bpMemory (a.setWidth 64)).2
        mem := s.mem.setProgram32 a (wordAt M.bytes a) } where
  areas := by rw [Memory.areas_setProgram32, h.areas]
  words := fun b => by
    have hrs : s.mem.Ram a := (Memory.ram_congr h.areas).2 hr
    rw [Memory.bytes_setProgram32_of_ram hrs ha, wordAt_simmemWrite32 _ ha, wordBase_of_aligned ha,
      h.words b]
    by_cases hb : wordBase b = a
    · have hw : wordAt M.bytes b = wordAt M.bytes a := by
        rw [wordAt, hb, wordAt, wordBase_of_aligned ha]
      simp [hb, hw]
    · simp [hb]
  wf := h.wf.delete
  lookup := lookup_delete_iff h

/-- Removing a breakpoint that is not inserted changes nothing that matters. -/
theorem planted_remove_of_notMem (h : Planted M B s) (ha : a ∉ B) :
    Planted M (B.erase a)
      { s with mpHash := (mpHashDelete s.mpHash .bpMemory (a.setWidth 64)).2 } where
  areas := h.areas
  words := by rw [Finset.erase_eq_of_notMem ha]; exact h.words
  wf := h.wf.delete
  lookup := lookup_delete_iff h

/-! ### Packets -/

/-- A packet that encodes a request starts with the request's letter. -/
theorem exists_cons_of_scanMatchpoint {c : Char} {data : Packet} {r : ℕ × BitVec 64 × ℕ}
    (h : scanMatchpoint c data = some r) : ∃ cs, data = c :: cs := by
  cases data with
  | nil => cases h
  | cons d cs =>
    by_cases hd : d = c
    · exact ⟨cs, by rw [hd]⟩
    · simp [scanMatchpoint, Scan.scanLit, hd] at h

/-- **One packet** is served and moves the set of inserted addresses as its request says. -/
theorem planted_step (h : Planted M B s) {p : Packet} {r : Request} (hp : IsRequest p r)
    (hr : r.OnRam M) :
    ∃ s', rspClientRequest s p = some (s', "OK") ∧ Planted M (r.apply B) s' := by
  cases r with
  | insert a =>
    obtain ⟨ha, hram⟩ : a.toNat % 4 = 0 ∧ M.Ram a := hr
    obtain ⟨len, hscan⟩ := hp
    obtain ⟨cs, rfl⟩ := exists_cons_of_scanMatchpoint hscan
    refine ⟨_, ?_, planted_insert h ha hram⟩
    simp only [rspClientRequest, rspInsertMatchpoint, hscan, MpType.ofDigit, setWidth_64_32]
  | remove a =>
    obtain ⟨ha, hram⟩ : a.toNat % 4 = 0 ∧ M.Ram a := hr
    obtain ⟨len, hscan⟩ := hp
    obtain ⟨cs, rfl⟩ := exists_cons_of_scanMatchpoint hscan
    by_cases hmem : a ∈ B
    · refine ⟨_, ?_, planted_remove_of_mem h ha hram⟩
      have hfst : (mpHashDelete s.mpHash .bpMemory (a.setWidth 64)).1 =
          some ((wordAt M.bytes a).setWidth 64) := lookup_some_of_mem h hmem
      have hdel : mpHashDelete s.mpHash .bpMemory (a.setWidth 64) =
          (some ((wordAt M.bytes a).setWidth 64),
            (mpHashDelete s.mpHash .bpMemory (a.setWidth 64)).2) := Prod.ext hfst rfl
      simp only [rspClientRequest, rspRemoveMatchpoint, hscan, MpType.ofDigit]
      rw [hdel]
      simp only [setWidth_64_32]
    · refine ⟨_, ?_, planted_remove_of_notMem h hmem⟩
      have hfst : (mpHashDelete s.mpHash .bpMemory (a.setWidth 64)).1 = none :=
        lookup_none_of_notMem h hmem
      have hdel : mpHashDelete s.mpHash .bpMemory (a.setWidth 64) =
          (none, (mpHashDelete s.mpHash .bpMemory (a.setWidth 64)).2) := Prod.ext hfst rfl
      simp only [rspClientRequest, rspRemoveMatchpoint, hscan, MpType.ofDigit]
      rw [hdel]

/-- **Every sequence of packets** keeps memory planted at the inserted addresses. -/
theorem planted_run {ps : List Packet} {rs : List Request} (hps : List.Forall₂ IsRequest ps rs)
    (hrs : ∀ r ∈ rs, r.OnRam M) (h : Planted M B s) :
    ∃ s', rspRun s ps = some s' ∧ Planted M (rs.foldl Request.apply B) s' := by
  induction hps generalizing B s with
  | nil => exact ⟨s, rfl, h⟩
  | @cons p r ps rs hp _ ih =>
    obtain ⟨s₁, hs₁, h₁⟩ := planted_step h hp (hrs r (List.mem_cons_self ..))
    obtain ⟨s₂, hs₂, h₂⟩ := ih (fun r hr => hrs r (List.mem_cons_of_mem _ hr)) h₁
    exact ⟨s₂, by rw [rspRun, hs₁, Option.bind_some, hs₂], h₂⟩

/-! ### Main result -/

theorem mem_mpEntries_iff (h : Planted M B s) (e : MpKey × BitVec 64) :
    e ∈ mpEntries s.mpHash ↔ ∃ a ∈ B,
      e = ((.bpMemory, a.setWidth 64), (wordAt M.bytes a).setWidth 64) := by
  obtain ⟨⟨type, addr⟩, instr⟩ := e
  have hlt : ∀ k : MpKey, mpHashValue k < mpHashSize := fun k => Nat.mod_lt _ (by decide)
  rw [mpEntries, HashTable.mem_entries_iff h.wf hlt]
  refine (h.lookup type addr instr).trans ⟨?_, ?_⟩
  · rintro ⟨rfl, a, ha, rfl, rfl⟩
    exact ⟨a, ha, rfl⟩
  · rintro ⟨a, ha, he⟩
    obtain ⟨hk, rfl⟩ := Prod.mk.inj he
    obtain ⟨rfl, rfl⟩ := Prod.mk.inj hk
    exact ⟨rfl, a, ha, rfl, rfl⟩

theorem mem_eq_of_planted_empty (h : Planted M ∅ s) : s.mem = M := by
  have hbytes : s.mem.bytes = M.bytes := ext_wordAt fun b => by simp [h.words b]
  calc s.mem = ⟨s.mem.areas, s.mem.bytes⟩ := rfl
    _ = M := by rw [h.areas, hbytes]

theorem foldl_apply_eq_empty {rs : List Request} (hrs : ∀ r ∈ rs, ∃ a, r = .remove a)
    (hcov : ∀ a ∈ B, Request.remove a ∈ rs) : rs.foldl Request.apply B = ∅ := by
  induction rs generalizing B with
  | nil => exact Finset.eq_empty_of_forall_notMem fun a ha => by simpa using hcov a ha
  | cons r rs ih =>
    obtain ⟨a, rfl⟩ := hrs r (List.mem_cons_self ..)
    refine ih (fun r hr => hrs r (List.mem_cons_of_mem _ hr)) fun b hb => ?_
    rcases List.mem_cons.1 (hcov b (Finset.mem_of_mem_erase hb)) with hba | hbr
    · exact absurd (Request.remove.inj hba) (Finset.ne_of_mem_erase hb)
    · exact hbr

/-- **Breakpoint transparency.**  After any sequence of insert and remove packets on aligned RAM
addresses, memory is the original one with a trap at each address still inserted, and the
matchpoint table holds exactly one entry for each of these, with the original instruction.
Removing every inserted breakpoint then gives the original memory back. -/
theorem rspRun_transparent (M : Memory) {ps : List Packet} {rs : List Request}
    (hps : List.Forall₂ IsRequest ps rs) (hrs : ∀ r ∈ rs, r.OnRam M) :
    ∃ s, rspRun (rspInit M) ps = some s ∧ s.mem.areas = M.areas ∧
      (∀ b, wordAt s.mem.bytes b =
        if wordBase b ∈ inserted rs then or1kTrapInstr else wordAt M.bytes b) ∧
      (∀ e, e ∈ mpEntries s.mpHash ↔ ∃ a ∈ inserted rs,
        e = ((.bpMemory, a.setWidth 64), (wordAt M.bytes a).setWidth 64)) ∧
      ((mpEntries s.mpHash).map Prod.fst).Nodup ∧
      ∀ (qs : List Packet) (ts : List Request), List.Forall₂ IsRequest qs ts →
        (∀ t ∈ ts, (∃ a, t = .remove a) ∧ t.OnRam M) →
        (∀ a ∈ inserted rs, Request.remove a ∈ ts) →
        ∃ s', rspRun s qs = some s' ∧ s'.mem = M := by
  obtain ⟨s, hs, hplanted⟩ := planted_run hps hrs (planted_init M)
  refine ⟨s, hs, hplanted.areas, hplanted.words, mem_mpEntries_iff hplanted,
    HashTable.nodup_keys_entries _ hplanted.wf, fun qs ts hqs hts hcov => ?_⟩
  obtain ⟨s', hs', hplanted'⟩ := planted_run hqs (fun t ht => (hts t ht).2) hplanted
  have hempty := foldl_apply_eq_empty (fun t ht => (hts t ht).1) hcov
  exact ⟨s', hs', mem_eq_of_planted_empty (hempty ▸ hplanted')⟩

/-- Inserting a breakpoint twice and removing it once leaves zeroed memory zeroed. -/
theorem rspRun_transparent_double_insert :
    ∃ s, rspRun (rspInit (Memory.flat fun _ => 0))
      [['Z', '0', ',', '1', '0', '0', ',', '4'], ['Z', '0', ',', '1', '0', '0', ',', '4'],
        ['z', '0', ',', '1', '0', '0', ',', '4']] = some s ∧
      wordAt s.mem.bytes 0x100#32 = 0 := by
  have hps : List.Forall₂ IsRequest
      [['Z', '0', ',', '1', '0', '0', ',', '4'], ['Z', '0', ',', '1', '0', '0', ',', '4'],
        ['z', '0', ',', '1', '0', '0', ',', '4']]
      [.insert 0x100#32, .insert 0x100#32, .remove 0x100#32] :=
    .cons ⟨4, by decide⟩ (.cons ⟨4, by decide⟩ (.cons ⟨4, by decide⟩ .nil))
  have hrs : ∀ r ∈ [Request.insert 0x100#32, .insert 0x100#32, .remove 0x100#32],
      r.OnRam (Memory.flat fun _ => 0) := by
    intro r hr
    simp only [List.mem_cons, List.not_mem_nil, or_false] at hr
    rcases hr with rfl | rfl | rfl <;> exact ⟨by decide, Memory.flat_ram _ _⟩
  obtain ⟨s, hs, -, hwords, -⟩ := rspRun_transparent (Memory.flat fun _ => 0) hps hrs
  refine ⟨s, hs, ?_⟩
  rw [hwords, if_neg (by decide)]
  rfl

end Rsp
end Or1ksim
