import Or1ksim.Sched.Correct

/-!
# Which jobs are queued

One function's jobs on the queue, while other jobs come and go.

* `State.funcs` — the queued functions, head first; `State.Due` — a function is queued and due;
* `State.jobsOf` — the queued functions among some;
* `KeepsJob` — nothing happens to the jobs of a function, apart from time passing;
* `State.dueWork` — the jobs that are due, weighed: what bounds a pass;
* `not_due_of_headDue` — at the end of a pass nothing is due.
-/

namespace Or1ksim
namespace Sched

variable {F P : Type}

/-- The queued functions. -/
def State.funcs (s : State F P) : List F := s.jobQueue.map Entry.func

theorem adjustNext_funcs {k : ℤ} {q q' : List (Entry F P)} (h : adjustNext k q = some q') :
    q'.map Entry.func = q.map Entry.func := by
  cases q with
  | nil =>
    cases h
    rfl
  | cons cur rest =>
    obtain ⟨t, -, rfl⟩ := Option.map_eq_some_iff.1 h
    rfl

theorem addWalk_append {jobTime alltime alltime' : ℤ} {q pre post : List (Entry F P)}
    (h : addWalk jobTime q alltime = some (pre, post, alltime')) : q = pre ++ post := by
  have hhead : ∀ c ∈ q.head?, alltime = alltime - timeOf q + c.time := by
    intro c hc
    cases q with
    | nil => cases hc
    | cons cur rest =>
      cases hc
      simp only [timeOf]
      omega
  exact (addWalk_spec h hhead).1

theorem funcs_schedAdd {s s' : State F P} {f : F} {p : P} {t : ℤ} (h : schedAdd s f p t = some s') :
    ∃ pre post, s.funcs = pre ++ post ∧ s'.funcs = pre ++ f :: post := by
  obtain ⟨head, rest, new, free, pre, post, alltime, x, post', hqueue, -, hwalk, -, hpost', rfl⟩ :=
    schedAdd_eq_some h
  refine ⟨pre.map Entry.func, post.map Entry.func, ?_, ?_⟩
  · rw [State.funcs, hqueue, addWalk_append hwalk, List.map_append]
  · simp only [State.funcs, List.map_append, List.map_cons, adjustNext_funcs hpost']

/-! ### Jobs in the order of the queue -/

theorem funcs_eq_dues (s : State F P) : s.funcs = s.dues.map fun x => x.1.2.1 := by
  have hdues : ∀ (base : ℤ) (q : List (Entry F P)),
      (DeltaQueue.dues base (q.map Entry.item)).map (fun x => x.1.2.1) = q.map Entry.func := by
    intro base q
    induction q generalizing base with
    | nil => rfl
    | cons cur rest ih =>
      rw [List.map_cons, List.map_cons, DeltaQueue.dues, List.map_cons, ih]
      rfl
  exact (hdues 0 s.jobQueue).symm

theorem mem_funcs_schedAdd {s s' : State F P} {f g : F} {p : P} {t : ℤ}
    (h : schedAdd s f p t = some s') : g ∈ s'.funcs ↔ g = f ∨ g ∈ s.funcs := by
  obtain ⟨pre, post, hs, hs'⟩ := funcs_schedAdd h
  rw [hs, hs']
  simp only [List.mem_append, List.mem_cons]
  tauto

theorem mem_funcs_schedGuard {s s' : State F P} {guard g : F} {p : P} (hne : g ≠ guard)
    (h : schedGuard guard s p = some s') (hg : g ∈ s'.funcs) : g ∈ s.funcs := by
  unfold schedGuard at h
  split at h
  case h_1 => exact ((mem_funcs_schedAdd h).1 hg).resolve_left hne
  case h_2 =>
    cases h
    exact absurd (List.mem_singleton.1 hg) hne
  case h_3 => cases h

theorem mem_funcs_schedFindRemove [DecidableEq F] [DecidableEq P] {s s' : State F P} {f g : F}
    {p : P} (h : schedFindRemove s f p = some s') (hg : g ∈ s'.funcs) : g ∈ s.funcs := by
  unfold schedFindRemove at h
  cases hfind : findJob f p s.jobQueue with
  | none =>
    rw [hfind] at h
    cases h
    exact hg
  | some r =>
    obtain ⟨pre, cur, post⟩ := r
    rw [hfind] at h
    obtain ⟨post', hpost', rfl⟩ := Option.map_eq_some_iff.1 h
    rw [State.funcs, (findJob_spec hfind).1, List.map_append, List.map_cons]
    simp only [State.funcs, List.map_append, adjustNext_funcs hpost', List.mem_append] at hg
    simp only [List.mem_append, List.mem_cons]
    tauto

theorem funcs_popJob {s s' : State F P} {e : Entry F P} (h : popJob s = some (e, s')) :
    s.funcs = e.func :: s'.funcs := by
  obtain ⟨next, rest, t, hqueue, -, rfl⟩ := popJob_eq_some h
  rw [State.funcs, hqueue]
  rfl

theorem funcs_charge {s s' : State F P} {n : ℤ} (h : charge s n = some s') :
    s'.funcs = s.funcs := by
  obtain ⟨free, queue⟩ := s
  cases queue with
  | nil => cases h
  | cons head rest =>
    obtain ⟨t, -, rfl⟩ := Option.map_eq_some_iff.1 h
    rfl

/-! ### Jobs of one function -/

/-- The function is queued and due. -/
def State.Due (s : State F P) (f : F) : Prop := ∃ x ∈ s.dues, x.1.2.1 = f ∧ x.2 ≤ 0

/-- No job of the function is queued or withdrawn, and none that is due becomes less so. -/
structure KeepsJob (f : F) (s s' : State F P) : Prop where
  mem : f ∈ s'.funcs → f ∈ s.funcs
  due : s.Due f → s'.Due f
  inv : Inv s → Inv s'

section KeepsJob

variable {f g : F} {p : P} {s s' s'' : State F P}

theorem KeepsJob.refl (f : F) (s : State F P) : KeepsJob f s s := ⟨id, id, id⟩

theorem KeepsJob.trans (h : KeepsJob f s s') (h' : KeepsJob f s' s'') : KeepsJob f s s'' :=
  ⟨h.mem ∘ h'.mem, h'.due ∘ h.due, h'.inv ∘ h.inv⟩

theorem keepsJob_schedAdd {t : ℤ} (hne : f ≠ g) (ht : 0 ≤ t) (h : schedAdd s g p t = some s') :
    KeepsJob f s s' := by
  refine ⟨fun hmem => ((mem_funcs_schedAdd h).1 hmem).resolve_left hne, ?_,
    fun hs => hs.schedAdd ht h⟩
  rintro ⟨x, hx, hdue⟩
  obtain ⟨c, l₁, l₂, hs, hs'⟩ := dues_schedAdd ht h
  refine ⟨x, ?_, hdue⟩
  rw [hs, List.mem_append] at hx
  rw [hs', List.mem_append, List.mem_cons]
  tauto

theorem due_schedAdd (h : schedAdd s f p 0 = some s') : s'.Due f := by
  obtain ⟨c, l₁, l₂, -, hs'⟩ := dues_schedAdd le_rfl h
  refine ⟨((c, f, p), 0), ?_, rfl, le_rfl⟩
  rw [hs']
  exact List.mem_append_right _ (.head _)

theorem mem_dues_schedAdd {t : ℤ} (ht : 0 ≤ t) (h : schedAdd s f p t = some s')
    {x : (ℕ × F × P) × ℤ} (hx : x ∈ s'.dues) : x ∈ s.dues ∨ x.1.2 = (f, p) ∧ x.2 = t := by
  obtain ⟨c, l₁, l₂, hs, hs'⟩ := dues_schedAdd ht h
  rw [hs', List.mem_append, List.mem_cons] at hx
  rw [hs, List.mem_append]
  rcases hx with hx | rfl | hx
  · exact .inl (.inl hx)
  · exact .inr ⟨rfl, rfl⟩
  · exact .inl (.inr hx)

theorem keepsJob_schedGuard (hne : f ≠ g) (h : schedGuard g s p = some s') : KeepsJob f s s' := by
  unfold schedGuard at h
  split at h
  case h_1 => exact keepsJob_schedAdd hne (by decide) h
  case h_2 new free hq hfree =>
    cases h
    refine ⟨fun hmem => absurd (List.mem_singleton.1 hmem) hne, ?_, fun hs => ?_⟩
    · rintro ⟨x, hx, -⟩
      rw [State.dues, State.items, hq] at hx
      cases hx
    · refine ⟨fun x hx => (List.not_mem_nil hx).elim, ?_⟩
      have hcells := hs.cells
      rwa [State.cells, hq, hfree] at hcells
  case h_3 => cases h

theorem le_nextInsnCycles {q : List (Entry F P)} {cycles cycles' : ℤ}
    (h : nextInsnCycles q cycles = some cycles') : cycles ≤ cycles' := by
  induction q generalizing cycles with
  | nil =>
    cases h
    exact le_rfl
  | cons cur rest ih =>
    rw [nextInsnCycles] at h
    split at h
    case isTrue hneg =>
      obtain ⟨c, hc, h⟩ := Option.bind_eq_some_iff.1 h
      have := ih h
      have := int32_eq_some hc
      omega
    case isFalse =>
      cases h
      exact le_rfl

theorem keepsJob_schedNextInsn (hne : f ≠ g) (h : schedNextInsn s g p = some s') :
    KeepsJob f s s' := by
  obtain ⟨cycles, hcycles, h⟩ := Option.bind_eq_some_iff.1 h
  have := le_nextInsnCycles hcycles
  exact keepsJob_schedAdd hne (by omega) h

theorem keepsJob_schedFindRemove [DecidableEq F] [DecidableEq P] (hne : f ≠ g)
    (h : schedFindRemove s g p = some s') : KeepsJob f s s' := by
  refine ⟨mem_funcs_schedFindRemove h, ?_, fun hs => hs.schedFindRemove h⟩
  rintro ⟨x, hx, hf, hdue⟩
  refine ⟨x, ?_, hf, hdue⟩
  rcases dues_schedFindRemove h with ⟨hs', -⟩ | ⟨c, d, l₁, l₂, hs, -, hs'⟩
  · rwa [hs']
  · rw [hs, List.mem_append, List.mem_cons] at hx
    rw [hs', List.mem_append]
    rcases hx with hx | rfl | hx
    · exact .inl hx
    · exact absurd hf.symm hne
    · exact .inr hx

theorem keepsJob_charge {n : ℤ} (hn : 0 ≤ n) (h : charge s n = some s') : KeepsJob f s s' := by
  refine ⟨fun hmem => funcs_charge h ▸ hmem, ?_, fun hs => hs.charge h⟩
  rintro ⟨x, hx, hf, hdue⟩
  refine ⟨(x.1, x.2 - n), ?_, hf, ?_⟩
  · rw [dues_charge h]
    exact List.mem_map_of_mem hx
  · show x.2 - n ≤ 0
    omega

theorem keepsJob_popJob {e : Entry F P} (hne : e.func ≠ f) (h : popJob s = some (e, s')) :
    KeepsJob f s s' := by
  refine ⟨fun hmem => ?_, ?_, fun hs => hs.popJob h⟩
  · rw [funcs_popJob h]
    exact .tail _ hmem
  · rintro ⟨x, hx, hf, hdue⟩
    rw [dues_popJob h, List.mem_cons] at hx
    refine ⟨x, hx.resolve_left ?_, hf, hdue⟩
    rintro rfl
    exact hne hf

theorem popJob_jobQueue_ne_nil {e : Entry F P} (h : popJob s = some (e, s')) :
    s'.jobQueue ≠ [] := by
  obtain ⟨next, rest, t, -, -, rfl⟩ := popJob_eq_some h
  exact List.cons_ne_nil _ _

/-- A pass ends with a head that is not due, and then nothing is. -/
theorem not_due_of_headDue (hs : Inv s) (hhead : headDue s = false) : ¬s.Due f := by
  rintro ⟨x, hx, -, hdue⟩
  obtain ⟨free, queue⟩ := s
  cases queue with
  | nil => cases hx
  | cons head rest =>
    have hle : 0 + head.time ≤ x.2 := DeltaQueue.head_le_of_mem_dues hs.ordered hx
    simp only [headDue, decide_eq_false_iff_not] at hhead
    omega

end KeepsJob

/-! ### The work that is due -/

section DueWork

variable {w : F → ℕ} {f : F} {p : P} {s s' : State F P}

end DueWork

/-! ### The jobs of some functions -/

/-- The queued functions among some, head first. -/
def State.jobsOf (s : State F P) (k : F → Bool) : List F := s.funcs.filter k

section JobsOf

variable {k : F → Bool} {f g : F} {p : P} {s s' : State F P}

theorem mem_jobsOf : f ∈ s.jobsOf k ↔ f ∈ s.funcs ∧ k f = true := List.mem_filter

theorem jobsOf_charge {n : ℤ} (h : charge s n = some s') : s'.jobsOf k = s.jobsOf k := by
  rw [State.jobsOf, State.jobsOf, funcs_charge h]

theorem jobsOf_schedAdd {t : ℤ} (hf : k f = true) (h : schedAdd s f p t = some s') :
    ∃ pre post, s.jobsOf k = pre ++ post ∧ s'.jobsOf k = pre ++ f :: post := by
  obtain ⟨pre, post, hs, hs'⟩ := funcs_schedAdd h
  refine ⟨pre.filter k, post.filter k, ?_, ?_⟩
  · rw [State.jobsOf, hs, List.filter_append]
  · rw [State.jobsOf, hs', List.filter_append, List.filter_cons_of_pos hf]

theorem jobsOf_schedAdd_of_not {t : ℤ} (hf : k f = false) (h : schedAdd s f p t = some s') :
    s'.jobsOf k = s.jobsOf k := by
  obtain ⟨pre, post, hs, hs'⟩ := funcs_schedAdd h
  rw [State.jobsOf, State.jobsOf, hs, hs', List.filter_append, List.filter_append,
    List.filter_cons_of_neg (by simp [hf])]

theorem jobsOf_schedNextInsn (hf : k f = true) (h : schedNextInsn s f p = some s') :
    ∃ pre post, s.jobsOf k = pre ++ post ∧ s'.jobsOf k = pre ++ f :: post := by
  obtain ⟨cycles, -, h⟩ := Option.bind_eq_some_iff.1 h
  exact jobsOf_schedAdd hf h

theorem jobsOf_schedGuard (hg : k g = false) (h : schedGuard g s p = some s') :
    s'.jobsOf k = s.jobsOf k := by
  unfold schedGuard at h
  split at h
  case h_1 => exact jobsOf_schedAdd_of_not hg h
  case h_2 hq hfree =>
    cases h
    simp [State.jobsOf, State.funcs, hq, hg]
  case h_3 => cases h

theorem jobsOf_popJob {e : Entry F P} (h : popJob s = some (e, s')) :
    s.jobsOf k = if k e.func then e.func :: s'.jobsOf k else s'.jobsOf k := by
  rw [State.jobsOf, funcs_popJob h, List.filter_cons]
  rfl

/-- A job without a parameter: its first occurrence is withdrawn. -/
theorem funcs_schedFindRemove [DecidableEq F] [DecidableEq P] [Subsingleton P]
    (h : schedFindRemove s f p = some s') : s'.funcs = s.funcs.erase f := by
  rcases schedFindRemove_spec h with ⟨rfl, hno⟩ | ⟨pre, cur, post, hq, rfl, -, hpre, -, hitems, -⟩
  · refine (List.erase_of_not_mem fun hmem => ?_).symm
    obtain ⟨c, hc, rfl⟩ := List.mem_map.1 hmem
    exact hno c hc ⟨rfl, Subsingleton.elim _ _⟩
  · have hfuncs : ∀ q : List (Entry F P), q.map Entry.func = (q.map Entry.item).map (·.1.2.1) :=
      fun q => by rw [List.map_map]; rfl
    have hbump : ∀ (d : ℤ) (q : List ((ℕ × F × P) × ℤ)),
        (DeltaQueue.bump d q).map (·.1.2.1) = q.map (·.1.2.1) := by
      rintro d (_ | ⟨x, q⟩) <;> rfl
    have hnot : cur.func ∉ pre.map Entry.func := by
      intro hmem
      obtain ⟨c, hc, hcur⟩ := List.mem_map.1 hmem
      exact hpre c hc ⟨hcur, Subsingleton.elim _ _⟩
    have hs' : s'.funcs = pre.map Entry.func ++ post.map Entry.func := by
      rw [State.funcs, hfuncs, hfuncs pre, hfuncs post, ← List.map_append]
      change s'.items.map _ = _
      rw [hitems, List.map_append, hbump, List.map_append]
    rw [hs', State.funcs, hq, List.map_append, List.map_cons, List.erase_append_right _ hnot,
      List.erase_cons_head]

theorem jobsOf_schedFindRemove [DecidableEq F] [DecidableEq P] [Subsingleton P]
    (h : schedFindRemove s f p = some s') : s'.jobsOf k = (s.jobsOf k).erase f := by
  rw [State.jobsOf, State.jobsOf, funcs_schedFindRemove h]
  exact List.erase_filter.symm

/-- Of two jobs queued for the same time the later one stands first. -/
theorem schedAdd_schedAdd {s'' : State F P} {p' : P} {t : ℤ} (ht : 0 ≤ t)
    (h : schedAdd s f p t = some s') (h' : schedAdd s' g p' t = some s'') :
    ∃ pre post, s'.funcs = pre ++ post ∧ s''.funcs = pre ++ g :: post ∧ f ∈ post := by
  obtain ⟨c, l₁, l₂, -, hs'⟩ := dues_schedAdd ht h
  obtain ⟨c', m₁, m₂, hsplit, hs'', hlt⟩ := dues_schedAdd_lt ht h'
  refine ⟨m₁.map (·.1.2.1), m₂.map (·.1.2.1), ?_, ?_, ?_⟩
  · rw [funcs_eq_dues, hsplit, List.map_append]
  · rw [funcs_eq_dues, hs'', List.map_append, List.map_cons]
  · have hmem : ((c, f, p), t) ∈ m₁ ++ m₂ := by
      rw [← hsplit, hs']
      exact List.mem_append_right _ (.head _)
    rcases List.mem_append.1 hmem with hmem | hmem
    · exact absurd (hlt _ hmem) (lt_irrefl t)
    · exact List.mem_map.2 ⟨_, hmem, rfl⟩

end JobsOf

end Sched
end Or1ksim
