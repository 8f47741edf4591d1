import Mathlib.Data.List.Induction
import Or1ksim.Memory.Area

/-!
# Looking up memory areas

`verify_memoryarea` and `set_mem_valid` of `cpu/common/abstract.c`.  The area found last is kept and
tried before the list of areas is searched, and it is not asked for its valid bit.

* `AreaMap.verifyMemoryarea`, `AreaMap.setMemValid` — the two functions, areas being numbered in
  registration order;
* `AreaMap.lookup` — what the list of areas says, whatever was looked up before;
* `AreaMap.verify_eq_lookup_iff` — a lookup agrees with the list exactly when the area kept is one
  that the list gives;
* `AreaMap.noted` — the area that the list gave for the last lookup, whatever was kept;
* `AreaMap.run_eq_lookup_iff` — **all lookups of a sequence agree exactly when the calls never
  change the valid bits against that area before the next lookup in it**;
* `AreaMap.invalid_area_found` — an area that was made invalid is still found.
-/

namespace Or1ksim

/-- The address falls into the area, valid or not. -/
def MemArea.selects (r : MemArea) (a : Addr) : Bool :=
  a &&& r.addrMask == r.addrCompare &&& r.addrMask

/-- The areas and the two pointers into them. -/
structure AreaMap where
  /-- `dev_list` -/
  areas : List MemArea
  /-- `mc_area`, the area of the memory controller. -/
  mcArea : Option ℕ
  /-- `cur_area`, the area found last. -/
  curArea : Option ℕ

namespace AreaMap

/-- The address falls into the area a pointer leads to. -/
def selectsAt (s : AreaMap) (p : Option ℕ) (a : Addr) : Bool :=
  (p.bind fun i => s.areas[i]?).any (·.selects a)

/-- The first valid area of the list that the address falls into. -/
def scan (s : AreaMap) (a : Addr) : Option ℕ := s.areas.findIdx? fun r => r.selects a && r.valid

/-- `verify_memoryarea` -/
def verifyMemoryarea (s : AreaMap) (a : Addr) : Option ℕ × AreaMap :=
  if s.selectsAt s.mcArea a then (s.mcArea, { s with curArea := s.mcArea })
  else if s.selectsAt s.curArea a then (s.curArea, s)
  else (s.scan a, { s with curArea := s.scan a })

/-- `set_mem_valid` -/
def setMemValid (s : AreaMap) (i : ℕ) (valid : Bool) : AreaMap :=
  { s with areas := s.areas.modify i fun r => { r with valid := valid } }

/-- What the registered areas and their valid bits say of an address. -/
def lookup (s : AreaMap) (a : Addr) : Option ℕ :=
  if s.selectsAt s.mcArea a then s.mcArea else s.scan a

/-- The area kept, if the address falls into it, is valid, and no valid area before it takes the
address. -/
def Fresh (s : AreaMap) (a : Addr) : Prop :=
  ∀ i, s.selectsAt s.mcArea a = false → s.curArea = some i → s.selectsAt (some i) a →
    s.areas[i]?.any (·.valid) ∧ ∀ j < i, s.selectsAt (some j) a → s.areas[j]?.any (·.valid) = false

theorem scan_eq_some_iff {s : AreaMap} {a : Addr} {i : ℕ} :
    s.scan a = some i ↔ (s.selectsAt (some i) a ∧ s.areas[i]?.any (·.valid)) ∧
      ∀ j < i, s.selectsAt (some j) a → s.areas[j]?.any (·.valid) = false := by
  have hat : ∀ j (hj : j < s.areas.length),
      s.selectsAt (some j) a = s.areas[j].selects a ∧
        s.areas[j]?.any (·.valid) = s.areas[j].valid := by
    intro j hj
    simp [selectsAt, List.getElem?_eq_getElem hj]
  rw [scan, List.findIdx?_eq_some_iff_getElem]
  constructor
  · rintro ⟨hi, hp, hbefore⟩
    rw [Bool.and_eq_true] at hp
    rw [(hat i hi).1, (hat i hi).2]
    refine ⟨hp, fun j hj hsel => ?_⟩
    rw [(hat j (hj.trans hi)).1] at hsel
    have hne := hbefore j hj
    rw [hsel, Bool.true_and, Bool.not_eq_true] at hne
    rw [(hat j (hj.trans hi)).2, hne]
  · rintro ⟨⟨hsel, hvalid⟩, hbefore⟩
    have hi : i < s.areas.length := by
      by_contra hi
      rw [List.getElem?_eq_none (Nat.not_lt.1 hi)] at hvalid
      exact nomatch hvalid
    refine ⟨hi, ?_, fun j hj => ?_⟩
    · rw [← (hat i hi).1, ← (hat i hi).2, hsel, hvalid]
      rfl
    · rw [Bool.not_eq_true, Bool.and_eq_false_iff]
      cases hj' : s.selectsAt (some j) a with
      | false => exact .inl ((hat j (hj.trans hi)).1.symm.trans hj')
      | true => exact .inr ((hat j (hj.trans hi)).2.symm.trans (hbefore j hj hj'))

/-- **One lookup agrees with the list exactly when the area kept is fresh.** -/
theorem verify_eq_lookup_iff (s : AreaMap) (a : Addr) :
    (s.verifyMemoryarea a).1 = s.lookup a ↔ s.Fresh a := by
  unfold verifyMemoryarea lookup Fresh
  cases hmc : s.selectsAt s.mcArea a with
  | true => simp
  | false =>
    cases hcur : s.curArea with
    | none => simp [selectsAt]
    | some i =>
      cases hsel : s.selectsAt (some i) a with
      | false => simp [hsel]
      | true =>
        simp only [Bool.false_eq_true, if_false, if_true, hsel, eq_comm (a := some i),
          scan_eq_some_iff, true_and, Option.some.injEq, forall_const, forall_eq]

/-! ### Sequences of calls -/

/-- A call of one of the two functions. -/
inductive Call where
  | verify (a : Addr)
  | setValid (i : ℕ) (valid : Bool)

/-- The state after a call. -/
def call (s : AreaMap) : Call → AreaMap
  | .verify a => (s.verifyMemoryarea a).2
  | .setValid i valid => s.setMemValid i valid

/-- The state after a sequence of calls. -/
def run (s : AreaMap) (calls : List Call) : AreaMap := calls.foldl call s

/-- What a call does to the list of areas: only `set_mem_valid` changes it. -/
def Call.onAreas (areas : List MemArea) : Call → List MemArea
  | .verify _ => areas
  | .setValid i valid => areas.modify i fun r => { r with valid := valid }

/-- The areas and the memory controller's area after a sequence of calls, without the area kept. -/
def reconfigured (s : AreaMap) (calls : List Call) : AreaMap :=
  { s with areas := calls.foldl Call.onAreas s.areas }

theorem call_areas (s : AreaMap) (c : Call) :
    (s.call c).areas = c.onAreas s.areas ∧ (s.call c).mcArea = s.mcArea := by
  cases c with
  | setValid i valid => exact ⟨rfl, rfl⟩
  | verify a =>
    rw [call, verifyMemoryarea]
    split_ifs <;> exact ⟨rfl, rfl⟩

theorem run_areas (s : AreaMap) (calls : List Call) :
    (s.run calls).areas = (s.reconfigured calls).areas ∧
      (s.run calls).mcArea = (s.reconfigured calls).mcArea := by
  induction calls generalizing s with
  | nil => exact ⟨rfl, rfl⟩
  | cons c calls ih =>
    obtain ⟨hareas, hmc⟩ := ih (s.call c)
    obtain ⟨hareas₁, hmc₁⟩ := call_areas s c
    rw [reconfigured, hareas₁] at hareas
    exact ⟨hareas, hmc.trans hmc₁⟩

/-- What the list of areas says does not depend on the area kept. -/
theorem lookup_congr {s t : AreaMap} (hareas : s.areas = t.areas) (hmc : s.mcArea = t.mcArea)
    (a : Addr) : s.lookup a = t.lookup a := by
  cases s
  cases t
  subst hareas hmc
  rfl

theorem verifyMemoryarea_snd (s : AreaMap) (a : Addr) :
    (s.verifyMemoryarea a).2 = { s with curArea := (s.verifyMemoryarea a).1 } := by
  unfold verifyMemoryarea
  split_ifs <;> rfl

/-- A call, where a lookup keeps the area that the list gives. -/
def note (s : AreaMap) : Call → AreaMap
  | .verify a => { s with curArea := s.lookup a }
  | .setValid i valid => s.setMemValid i valid

/-- The areas after a sequence of calls, with the area that the list gave for the last lookup (the
one kept at the start, before the first lookup). -/
def noted (s : AreaMap) (calls : List Call) : AreaMap := calls.foldl note s

theorem call_eq_note {s : AreaMap} {c : Call} (h : ∀ a, c = .verify a → s.Fresh a) :
    s.call c = s.note c := by
  cases c with
  | setValid i valid => rfl
  | verify a =>
    rw [call, note, verifyMemoryarea_snd, (verify_eq_lookup_iff s a).2 (h a rfl)]

/-- Two ways to take a step lead to the same state as long as the steps of the first one agree. -/
theorem foldl_congr_of_prefixes {σ α : Type} {f g : σ → α → σ} {s : σ} {l : List α}
    (h : ∀ pre a, pre ++ [a] <+: l → f (pre.foldl f s) a = g (pre.foldl f s) a) :
    l.foldl f s = l.foldl g s := by
  induction l using List.reverseRecOn with
  | nil => rfl
  | append_singleton l a ih =>
    have hlast := h l a (List.prefix_refl _)
    rw [List.foldl_append, List.foldl_append, ← ih fun pre b hpre =>
      h pre b (hpre.trans (List.prefix_append _ _))]
    exact hlast

/-- As long as the area kept is fresh, it is the one that the list gave. -/
theorem run_eq_noted {s : AreaMap} {calls : List Call}
    (h : (∀ pre a, pre ++ [.verify a] <+: calls → (s.run pre).Fresh a) ∨
      ∀ pre a, pre ++ [.verify a] <+: calls → (s.noted pre).Fresh a) :
    s.run calls = s.noted calls := by
  rcases h with h | h
  · exact foldl_congr_of_prefixes fun pre c hpre => call_eq_note fun a hc => h pre a (hc ▸ hpre)
  · exact (foldl_congr_of_prefixes fun pre c hpre =>
      (call_eq_note fun a hc => h pre a (hc ▸ hpre)).symm).symm

/-- **Every lookup of a sequence of calls agrees with the areas and their valid bits at that time,
whatever was looked up before, exactly when the area that the list gave for the lookup before it, if
it takes the address, is still the one that the list gives.**  A single lookup agrees exactly when
the area kept is. -/
theorem run_eq_lookup_iff (s : AreaMap) (calls : List Call) :
    ((∀ pre a, pre ++ [.verify a] <+: calls →
        ((s.run pre).verifyMemoryarea a).1 = (s.reconfigured pre).lookup a) ↔
      ∀ pre a, pre ++ [.verify a] <+: calls → (s.noted pre).Fresh a) ∧
    ∀ pre a, ((s.run pre).verifyMemoryarea a).1 = (s.reconfigured pre).lookup a ↔
      (s.run pre).Fresh a := by
  have hone : ∀ pre a, ((s.run pre).verifyMemoryarea a).1 = (s.reconfigured pre).lookup a ↔
      (s.run pre).Fresh a := by
    intro pre a
    obtain ⟨hareas, hmc⟩ := s.run_areas pre
    rw [← lookup_congr hareas hmc, verify_eq_lookup_iff]
  refine ⟨?_, hone⟩
  simp only [hone]
  constructor
  · intro h pre a hpre
    have hsame : s.run pre = s.noted pre := run_eq_noted (.inl fun pre' b hpre' =>
      h pre' b (hpre'.trans ((List.prefix_append pre _).trans hpre)))
    exact hsame ▸ h pre a hpre
  · intro h pre a hpre
    have hsame : s.run pre = s.noted pre := run_eq_noted (.inr fun pre' b hpre' =>
      h pre' b (hpre'.trans ((List.prefix_append pre _).trans hpre)))
    exact hsame ▸ h pre a hpre

/-- **An area that was made invalid is still found**, since it was looked up before. -/
theorem invalid_area_found : ¬∀ (s : AreaMap) (calls : List Call) (pre : List Call) (a : Addr),
    pre ++ [.verify a] <+: calls →
      ((s.run pre).verifyMemoryarea a).1 = (s.reconfigured pre).lookup a := by
  intro h
  have hfound := h ⟨[⟨0xFFFF0000, 0x40000000, true, 1, 1⟩], none, some 0⟩
    [.setValid 0 false, .verify 0x40000000] [.setValid 0 false] 0x40000000 (List.prefix_refl _)
  exact absurd hfound (by decide)

end AreaMap
end Or1ksim
