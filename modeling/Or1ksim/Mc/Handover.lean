import Mathlib.Data.List.Nodup
import Mathlib.Data.List.Perm.Subperm
import Or1ksim.Mc.Grab

/-!
# Hand-over of the areas

Which areas are in which list after resets of the memory controllers.

* `mcReset_eq_some`, `exists_mcReset` — a reset is its loop over the areas, as far as the lists go;
* `Owned`, `Exact` — every area is in the list it belongs to;
* `Exact.register`, `Exact.reset_iff` — a registration, and a reset;
* `handover_iff` — **resets hand the areas over exactly** if and only if none of them finds two
  areas of its controller next to each other.
-/

namespace Or1ksim
namespace Mc

open Linked

variable {C : Type}

/-! ### The other loops -/

theorem invalidate_eq {fuel : ℕ} {p : Option ℕ} {s s' : State C}
    (h : invalidate fuel p s = some s') : ∃ m, s' = { s with mem := m } := by
  induction fuel generalizing p s with
  | zero =>
    cases p with
    | none => exact ⟨s.mem, (Option.some.inj h).symm⟩
    | some a => cases h
  | succ fuel ih =>
    cases p with
    | none => exact ⟨s.mem, (Option.some.inj h).symm⟩
    | some a =>
      obtain ⟨m, hm⟩ := ih h
      exact ⟨m, hm⟩

theorem exists_invalidate {fuel : ℕ} {p : Option ℕ} {s : State C} {as : List ℕ}
    (h : Seg s.next p as none) (hlen : as.length ≤ fuel) : ∃ s', invalidate fuel p s = some s' := by
  induction as generalizing p s fuel with
  | nil =>
    obtain rfl : p = none := h
    exact ⟨s, by rw [invalidate]⟩
  | cons a as ih =>
    obtain ⟨fuel, rfl⟩ : ∃ n, fuel = n + 1 := ⟨fuel - 1, by rw [List.length_cons] at hlen; omega⟩
    obtain ⟨rfl, h⟩ := h
    have hlen : as.length ≤ fuel := by simpa using hlen
    rw [invalidate]
    exact ih h hlen

variable {c : C}

theorem setCscTms_eq {cs csc : Word} {fuel : ℕ} {p : Option ℕ} {s s' : State C}
    (h : setCscTms cs csc c fuel p s = some s') : ∃ m, s' = { s with mem := m } := by
  induction fuel generalizing p with
  | zero =>
    cases p with
    | none => exact ⟨s.mem, (Option.some.inj h).symm⟩
    | some a => cases h
  | succ fuel ih =>
    cases p with
    | none => exact ⟨s.mem, (Option.some.inj h).symm⟩
    | some a =>
      rw [setCscTms] at h
      split_ifs at h with hcs
      · exact ⟨_, (Option.some.inj h).symm⟩
      · exact ih h

theorem exists_setCscTms {cs csc : Word} {fuel : ℕ} {p : Option ℕ} {s : State C} {as : List ℕ}
    (h : Seg s.next p as none) (hlen : as.length ≤ fuel) :
    ∃ s', setCscTms cs csc c fuel p s = some s' := by
  induction as generalizing p fuel with
  | nil =>
    obtain rfl : p = none := h
    exact ⟨s, by rw [setCscTms]⟩
  | cons a as ih =>
    obtain ⟨fuel, rfl⟩ : ∃ n, fuel = n + 1 := ⟨fuel - 1, by rw [List.length_cons] at hlen; omega⟩
    obtain ⟨rfl, h⟩ := h
    rw [setCscTms]
    split_ifs with hcs
    · exact ⟨_, rfl⟩
    · exact ih h (by simpa using hlen)

/-! ### Owners -/

/-- The list of the areas after the registrations: the latest is the first. -/
def cells (regs : List Reg) : List ℕ := (List.range regs.length).reverse

/-- The areas of each controller after resets of `done`: they are of its index, and an area whose
controller has been reset has one owner. -/
structure Owned (index : C → ℤ) (regs : List Reg) (done : List C) (s : State C)
    (owned : C → List ℕ) : Prop where
  list : ∀ c, Seg s.next (s.mc c).mcAreas (owned c) none
  nodup : ∀ c, (owned c).Nodup
  own : ∀ c, ∀ a ∈ owned c,
    a < regs.length ∧ (s.area a).mc = index c ∧ index c ∈ done.map index
  unique : ∀ a < regs.length, (s.area a).mc ∈ done.map index → ∃! c, a ∈ owned c

/-- The areas are what has been registered; those whose controller has not been reset are left in
the list, in their order, and each of the others is owned by its controller. -/
structure Exact (index : C → ℤ) (regs : List Reg) (done : List C) (s : State C) : Prop where
  size : s.size = regs.length
  reg : ∀ a (h : a < regs.length), (s.area a).toReg = regs[a]
  indices : ∀ c, (s.mc c).index = index c
  left : Seg s.next s.mcAreas ((cells regs).filter fun a => (s.area a).mc ∉ done.map index) none
  owned : ∃ owned, Owned index regs done s owned

/-- The indices of the areas that are left after resets of `done`, in the order of the list. -/
def remaining (index : C → ℤ) (regs : List Reg) (done : List C) : List ℤ :=
  (regs.reverse.map Reg.mc).filter fun i => i ∉ done.map index

variable {index : C → ℤ} {regs : List Reg} {done : List C} {s : State C}

theorem lt_of_mem_cells {a : ℕ} (h : a ∈ cells regs) : a < regs.length := by
  simpa [cells] using h

theorem Exact.mc_eq (h : Exact index regs done s) :
    (cells regs).map (fun a => (s.area a).mc) = regs.reverse.map Reg.mc := by
  rw [cells, List.map_reverse, List.map_reverse]
  congr 1
  refine List.ext_getElem (by simp) fun a h₁ h₂ => ?_
  have ha : a < regs.length := by simpa using h₁
  rw [List.getElem_map, List.getElem_map, List.getElem_range]
  exact congrArg Reg.mc (h.reg a ha)

theorem Exact.remaining_eq (h : Exact index regs done s) :
    ((cells regs).filter fun a => (s.area a).mc ∉ done.map index).map (fun a => (s.area a).mc) =
      remaining index regs done := by
  rw [remaining, ← h.mc_eq, List.filter_map]
  rfl

theorem Owned.notMem_left {owned : C → List ℕ} (h : Owned index regs done s owned) {a : ℕ}
    (ha : a ∈ owned c) : a ∉ (cells regs).filter fun a => (s.area a).mc ∉ done.map index := by
  intro hleft
  obtain ⟨-, hmc, hdone⟩ := h.own c a ha
  rw [List.mem_filter, decide_eq_true_iff, hmc] at hleft
  exact hleft.2 hdone

theorem length_le_of_lt {as : List ℕ} {n : ℕ} (hnodup : as.Nodup) (hlt : ∀ a ∈ as, a < n) :
    as.length ≤ n := by
  have hsub := hnodup.subperm fun a ha => List.mem_range.2 (hlt a ha)
  simpa using hsub.length_le

theorem Exact.with_mem (h : Exact index regs done s) (m : ℕ → MemArea) :
    Exact index regs done { s with mem := m } := by
  obtain ⟨owned, howned⟩ := h.owned
  exact ⟨h.size, h.reg, h.indices, h.left, owned, howned.list, howned.nodup, howned.own,
    howned.unique⟩

/-! ### Registrations -/

/-- The state after registrations. -/
def registered (index : C → ℤ) (poc : C → Word) (mem : ℕ → MemArea) (regs : List Reg) : State C :=
  regs.foldl mcRegMemArea (start index poc mem)

theorem Exact.register {s : State C} (h : Exact index regs [] s) (r : Reg) :
    Exact index (regs ++ [r]) [] (mcRegMemArea s r) := by
  obtain ⟨owned, howned⟩ := h.owned
  have hnone : ∀ c a, a ∉ owned c := fun c a ha => by simpa using (howned.own c a ha).2.2
  have hold : ∀ a < regs.length, (mcRegMemArea s r).area a = s.area a := fun a ha =>
    Function.update_of_ne (h.size ▸ ha.ne) _ _
  have hnew : (mcRegMemArea s r).area regs.length = ⟨r, s.mcAreas⟩ := by
    rw [← h.size]
    exact Function.update_self _ _ _
  have hleft := h.left
  rw [List.filter_eq_self.2 (by simp)] at hleft
  refine ⟨by simp [mcRegMemArea, h.size], fun a ha => ?_, h.indices, ?_, owned, fun c => ?_,
    howned.nodup, fun c a ha => absurd ha (hnone c a), by simp⟩
  · rcases Nat.lt_or_ge a regs.length with hlt | hge
    · rw [hold a hlt, h.reg a hlt, List.getElem_append_left hlt]
    · obtain rfl : a = regs.length := by
        rw [List.length_append, List.length_singleton] at ha
        omega
      rw [hnew, List.getElem_append_right hge]
      simp
  · have hcells : cells (regs ++ [r]) = regs.length :: cells regs := by
      rw [cells, List.length_append, List.length_singleton, List.range_succ, List.reverse_append]
      rfl
    rw [List.filter_eq_self.2 (by simp), hcells]
    refine ⟨congrArg some h.size, ?_⟩
    rw [State.next, hnew]
    exact hleft.congr fun a ha => congrArg McArea.next (hold a (lt_of_mem_cells ha))
  · exact (howned.list c).congr fun a ha => absurd ha (hnone c a)

theorem exact_registered (index : C → ℤ) (poc : C → Word) (mem : ℕ → MemArea) (regs : List Reg) :
    Exact index regs [] (registered index poc mem regs) := by
  induction regs using List.reverseRecOn with
  | nil =>
    refine ⟨rfl, by simp, fun _ => rfl, rfl, fun _ => [], fun _ => rfl, fun _ => List.nodup_nil, ?_,
      ?_⟩ <;> simp
  | append_singleton regs r ih =>
    rw [registered, List.foldl_append]
    exact ih.register r

/-! ### A reset -/

variable [DecidableEq C]

/-- The state in which the loop over the areas starts. -/
def clearRegs (c : C) (s : State C) : State C :=
  { s with mc := Function.update s.mc c (s.mc c).reset }

theorem mcAreas_clearRegs (c d : C) (s : State C) :
    ((clearRegs c s).mc d).mcAreas = (s.mc d).mcAreas := by
  by_cases hd : d = c
  · subst hd
    simp [clearRegs, Controller.reset]
  · simp [clearRegs, hd]

theorem index_clearRegs (c d : C) (s : State C) :
    ((clearRegs c s).mc d).index = (s.mc d).index := by
  by_cases hd : d = c
  · subst hd
    simp [clearRegs, Controller.reset]
  · simp [clearRegs, hd]

/-- Only the loop over the areas changes the lists. -/
theorem mcReset_eq_some {s s' : State C} (h : mcReset c s = some s') :
    ∃ t m, grab c s.size s.mcAreas none (clearRegs c s) = some t ∧ s' = { t with mem := m } := by
  rw [mcReset, Option.bind_eq_bind, Option.bind_eq_some_iff] at h
  obtain ⟨t, hgrab, h⟩ := h
  rw [Option.bind_eq_some_iff] at h
  obtain ⟨u, hinvalid, h⟩ := h
  obtain ⟨m, rfl⟩ := invalidate_eq hinvalid
  obtain ⟨m', rfl⟩ := setCscTms_eq h
  exact ⟨t, m', hgrab, rfl⟩

/-- The other loops come to an end if the list of the controller does. -/
theorem exists_mcReset {s t : State C} {as : List ℕ}
    (hgrab : grab c s.size s.mcAreas none (clearRegs c s) = some t)
    (hlist : Seg t.next (t.mc c).mcAreas as none) (hlen : as.length ≤ s.size) :
    ∃ m, mcReset c s = some { t with mem := m } := by
  obtain ⟨u, hu⟩ := exists_invalidate hlist hlen
  obtain ⟨m, rfl⟩ := invalidate_eq hu
  obtain ⟨v, hv⟩ : ∃ v, setCscTms 0 ((t.mc c).csc 0) c s.size (t.mc c).mcAreas
      { t with mem := m } = some v := exists_setCscTms hlist hlen
  obtain ⟨m', rfl⟩ := setCscTms_eq hv
  refine ⟨m', ?_⟩
  rw [mcReset]
  change (grab c s.size s.mcAreas none (clearRegs c s)).bind _ = _
  rw [hgrab]
  change (invalidate s.size (t.mc c).mcAreas t).bind _ = _
  rw [hu]
  exact hv

theorem Exact.grabbing (h : Exact index regs done s) {owned : C → List ℕ}
    (howned : Owned index regs done s owned) (c : C) :
    Grabbing (index c) (owned c) []
      ((cells regs).filter fun a => (s.area a).mc ∉ done.map index) c s.mcAreas none
      (clearRegs c s) where
  index := (index_clearRegs c c s).trans (h.indices c)
  head := rfl
  left := h.left
  list := by
    rw [mcAreas_clearRegs]
    exact howned.list c
  last := rfl
  nodup := ((List.nodup_reverse.2 List.nodup_range).filter _)
  apart _ ha := howned.notMem_left ha

/-- The areas that a controller takes are its own from then on. -/
theorem Owned.take {owned : C → List ℕ} {left : List ℕ} {t : State C}
    (h : Owned index regs done s owned)
    (hleft : left = (cells regs).filter fun a => (s.area a).mc ∉ done.map index)
    (hsame : Same c left (clearRegs c s) t)
    (hlist : Seg t.next (t.mc c).mcAreas
      ((left.filter fun a => (s.area a).mc = index c).reverse ++ owned c) none) :
    Owned index regs (done ++ [c]) t (Function.update owned c
      ((left.filter fun a => (s.area a).mc = index c).reverse ++ owned c)) := by
  have hmc : ∀ a, (t.area a).mc = (s.area a).mc := hsame.mc_eq
  have hnodup : left.Nodup := hleft ▸ (List.nodup_reverse.2 List.nodup_range).filter _
  have hnotMem : ∀ d, ∀ a ∈ owned d, a ∉ left := fun d a ha => hleft ▸ h.notMem_left ha
  have hleft' : ∀ a, a ∈ left ↔ a < regs.length ∧ (s.area a).mc ∉ done.map index := by
    simp [hleft, cells]
  set mine := (left.filter fun a => (s.area a).mc = index c).reverse ++ owned c with hmine
  have hmem : ∀ d a, a ∈ Function.update owned c mine d ↔
      a ∈ owned d ∨ (d = c ∧ a ∈ left ∧ (s.area a).mc = index c) := by
    intro d a
    by_cases hd : d = c
    · subst hd
      rw [Function.update_self, hmine, List.mem_append, List.mem_reverse, List.mem_filter]
      simp [or_comm]
    · simp [hd]
  refine ⟨fun d => ?_, fun d => ?_, fun d a ha => ?_, fun a ha hdone => ?_⟩
  · by_cases hd : d = c
    · subst hd
      rw [Function.update_self]
      exact hlist
    · -- None of the areas of another controller was left, so the loop has not linked them anew.
      rw [Function.update_of_ne hd, hsame.lists d hd, mcAreas_clearRegs]
      exact (h.list d).congr fun a ha => hsame.next a (hnotMem d a ha)
  · by_cases hd : d = c
    · subst hd
      rw [Function.update_self, hmine, List.nodup_append]
      refine ⟨List.nodup_reverse.2 (hnodup.filter _), h.nodup d, ?_⟩
      rintro a ha b hb rfl
      exact hnotMem d a hb (List.mem_of_mem_filter (List.mem_reverse.1 ha))
    · rw [Function.update_of_ne hd]
      exact h.nodup d
  · rw [hmc, List.map_append, List.mem_append]
    rcases (hmem d a).1 ha with hold | ⟨rfl, hnew, hindex⟩
    · obtain ⟨hlt, hindex, hmap⟩ := h.own d a hold
      exact ⟨hlt, hindex, .inl hmap⟩
    · exact ⟨((hleft' a).1 hnew).1, hindex, .inr (by simp)⟩
  · rw [hmc, List.map_append, List.mem_append] at hdone
    by_cases hold : (s.area a).mc ∈ done.map index
    · obtain ⟨d, hd, huniq⟩ := h.unique a ha hold
      refine ⟨d, (hmem d a).2 (.inl hd), fun e he => ?_⟩
      rcases (hmem e a).1 he with he | ⟨-, he, -⟩
      · exact huniq e he
      · exact absurd hold ((hleft' a).1 he).2
    · have hindex : (s.area a).mc = index c := by simpa using hdone.resolve_left hold
      refine ⟨c, (hmem c a).2 (.inr ⟨rfl, (hleft' a).2 ⟨ha, hold⟩, hindex⟩), fun e he => ?_⟩
      rcases (hmem e a).1 he with he | ⟨he, -⟩
      · obtain ⟨-, hmce, hmap⟩ := h.own e a he
        exact absurd (hmce ▸ hmap) hold
      · exact he

/-- **A reset that finds its areas apart from each other** hands them over exactly. -/
theorem Exact.reset (h : Exact index regs done s)
    (hsep : Separated (index c) (remaining index regs done)) :
    ∃ s', mcReset c s = some s' ∧ Exact index regs (done ++ [c]) s' := by
  obtain ⟨owned, howned⟩ := h.owned
  have hgrabbing := h.grabbing howned c
  rw [← h.remaining_eq] at hsep
  set left := (cells regs).filter fun a => (s.area a).mc ∉ done.map index with hleft
  have hlen : left.length ≤ s.size := by
    rw [h.size]
    exact length_le_of_lt hgrabbing.nodup fun a ha => lt_of_mem_cells (List.mem_of_mem_filter ha)
  obtain ⟨t, hgrab, hsame, hend⟩ := grab_separated hgrabbing hlen hsep
  have hmc : ∀ a, (t.area a).mc = (s.area a).mc := hsame.mc_eq
  have hhead := hend.head
  have hlist := hend.list
  simp only [hmc, List.nil_append] at hhead hlist
  have howned' := howned.take hleft hsame hlist
  -- The list of the controller is short enough for the loops that follow.
  have hmine : ((left.filter fun a => (s.area a).mc = index c).reverse ++ owned c).length ≤
      s.size := by
    have hnodup := howned'.nodup c
    have hown := howned'.own c
    rw [Function.update_self] at hnodup hown
    rw [h.size]
    exact length_le_of_lt hnodup fun a ha => (hown a ha).1
  have hrest : (left.filter fun a => (s.area a).mc ≠ index c) =
      (cells regs).filter fun a => (s.area a).mc ∉ (done ++ [c]).map index := by
    rw [hleft, List.filter_filter]
    exact List.filter_congr fun a _ => by simp [and_comm, eq_comm]
  have hexact : Exact index regs (done ++ [c]) t := by
    refine ⟨hsame.size.trans h.size, fun a ha => (hsame.reg a).trans (h.reg a ha), fun d => ?_, ?_,
      _, howned'⟩
    · exact (hsame.index d).trans ((index_clearRegs c d s).trans (h.indices d))
    · simp only [hmc]
      rw [← hrest]
      exact hhead
  obtain ⟨m, hm⟩ := exists_mcReset hgrab hlist hmine
  exact ⟨_, hm, hexact.with_mem m⟩

/-- A reset that finds two of its areas next to each other does not. -/
theorem Exact.separated {s' : State C} (h : Exact index regs done s)
    (hreset : mcReset c s = some s') (h' : Exact index regs (done ++ [c]) s') :
    Separated (index c) (remaining index regs done) := by
  by_contra hsep
  obtain ⟨owned, howned⟩ := h.owned
  rw [← h.remaining_eq] at hsep
  obtain ⟨t, m, hgrab, rfl⟩ := mcReset_eq_some hreset
  -- The area that stays behind has the index of a controller that has been reset.
  obtain ⟨before, x, hseg, hx⟩ := grab_adjacent (h.grabbing howned c) hsep hgrab
  have hmem := hseg.mem_of_seg h'.left
  rw [List.mem_filter, decide_eq_true_iff] at hmem
  have hlt := lt_of_mem_cells hmem.1
  have hsame : (t.area x).mc = (s.area x).mc :=
    congrArg Reg.mc ((h'.reg x hlt).trans (h.reg x hlt).symm)
  refine hmem.2 ?_
  rw [hsame]
  exact List.mem_map.2 ⟨c, by simp, hx.symm⟩

/-- **One reset.** -/
theorem Exact.reset_iff (h : Exact index regs done s) :
    (∃ s', mcReset c s = some s' ∧ Exact index regs (done ++ [c]) s') ↔
      Separated (index c) (remaining index regs done) :=
  ⟨fun ⟨_, hreset, h'⟩ => h.separated hreset h', h.reset⟩

/-! ### Runs -/

/-- Resets of the controllers `cs`, one after the other. -/
def resets (cs : List C) (s : State C) : Option (State C) := cs.foldlM (fun s c => mcReset c s) s

/-- **The areas are handed over exactly** in every run of resets, if and only if none of its resets
finds two areas of its controller next to each other among those that are left. -/
theorem handover_iff (index : C → ℤ) (poc : C → Word) (mem : ℕ → MemArea) (regs : List Reg)
    (cs : List C) :
    (∀ done, done <+: cs →
        ∃ s, resets done (registered index poc mem regs) = some s ∧ Exact index regs done s) ↔
      ∀ done c, done ++ [c] <+: cs → Separated (index c) (remaining index regs done) := by
  have hstep : ∀ done c, resets (done ++ [c]) (registered index poc mem regs) =
      (resets done (registered index poc mem regs)).bind (mcReset c) := by
    intro done c
    rw [resets, List.foldlM_append, ← resets]
    simp
  constructor
  · intro hexact done c hprefix
    obtain ⟨s, hs, h⟩ := hexact done ((List.prefix_append _ _).trans hprefix)
    obtain ⟨s', hs', h'⟩ := hexact (done ++ [c]) hprefix
    rw [hstep, hs] at hs'
    exact h.separated hs' h'
  · intro hsep done hprefix
    induction done using List.reverseRecOn with
    | nil => exact ⟨_, rfl, exact_registered index poc mem regs⟩
    | append_singleton done c ih =>
      obtain ⟨s, hs, h⟩ := ih ((List.prefix_append _ _).trans hprefix)
      obtain ⟨s', hreset, h'⟩ := h.reset (hsep done c hprefix)
      refine ⟨s', ?_, h'⟩
      rw [hstep, hs]
      exact hreset

/-- Two areas of one controller: after its reset the second one is in the list still. -/
theorem second_area_stays :
    ¬∃ s, resets [()] (registered (fun _ => 0) (fun _ => 0) (fun _ => ⟨0, 0, true, 1, 1⟩)
          [⟨0, 0, 0⟩, ⟨1, 1, 0⟩]) = some s ∧
        Exact (fun _ : Unit => 0) [⟨0, 0, 0⟩, ⟨1, 1, 0⟩] [()] s := by
  rintro ⟨s, hs, h⟩
  have hhead : (resets [()] (registered (fun _ => 0) (fun _ => 0) (fun _ => ⟨0, 0, true, 1, 1⟩)
      [⟨0, 0, 0⟩, ⟨1, 1, 0⟩])).map State.mcAreas = some (some 0) := by decide
  rw [hs] at hhead
  have hseg : Seg s.next s.mcAreas [] (some 0) := Option.some.inj hhead
  have hmem := hseg.mem_of_seg h.left
  have hindex : (s.area 0).mc = 0 := congrArg Reg.mc (h.reg 0 (by decide))
  rw [List.mem_filter, decide_eq_true_iff, hindex] at hmem
  exact hmem.2 (by simp)

end Mc
end Or1ksim
