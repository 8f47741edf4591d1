import Mathlib.Algebra.BigOperators.Group.List.Basic
import Mathlib.Algebra.GroupWithZero.Nat
import Mathlib.Data.List.Induction
import Or1ksim.Lib.Recency

/-!
# Histograms in a table

A table of limited length collects sums by key, in the order in which the keys are first seen.

* `total`, `histogram` — the sums of a list of events, for the first keys;
* `record`, `histogram_append` — one more event;
* `Table`, `Table.add` — a table of entries that is searched from its start, with free entries
  behind the used ones;
* `Table.run_represents` — **a table holds the histogram of its events**, and no search leaves it.
-/

namespace Or1ksim
namespace Histogram

open Recency

variable {κ V E : Type} [DecidableEq κ] [AddCommMonoid V]

/-- The sum of the events with key `k`. -/
def total (k : κ) (evs : List (κ × V)) : V := ((evs.filter fun e => e.1 = k).map Prod.snd).sum

/-- The first `n` keys, each with its sum. -/
def histogram (n : ℕ) (evs : List (κ × V)) : List (κ × V) :=
  ((distinct (evs.map Prod.fst)).take n).map fun k => (k, total k evs)

/-- One more event: it is added to the sum of its key, or begins one while there are less than `n`
of them. -/
def record (n : ℕ) (e : κ × V) (h : List (κ × V)) : List (κ × V) :=
  match h.findIdx? fun x => x.1 = e.1 with
  | some i => h.modify i fun x => (x.1, x.2 + e.2)
  | none => if h.length < n then h ++ [e] else h

variable {evs : List (κ × V)} {e : κ × V} {k : κ} {n : ℕ}

theorem total_append (k : κ) (evs : List (κ × V)) (e : κ × V) :
    total k (evs ++ [e]) = total k evs + if e.1 = k then e.2 else 0 := by
  rw [total, List.filter_append, List.map_append, List.sum_append, ← total, List.filter_singleton]
  by_cases h : e.1 = k <;> simp [h]

theorem total_of_not_mem (h : k ∉ evs.map Prod.fst) : total k evs = 0 := by
  have hnone : evs.filter (fun e => e.1 = k) = [] := by
    refine List.filter_eq_nil_iff.2 fun e he hk => h ?_
    rw [← of_decide_eq_true hk]
    exact List.mem_map_of_mem he
  rw [total, hnone]
  rfl

theorem findIdx?_histogram (n : ℕ) (evs : List (κ × V)) (k : κ) :
    (histogram n evs).findIdx? (fun x => x.1 = k) =
      ((distinct (evs.map Prod.fst)).take n).findIdx? (fun x => x = k) := by
  rw [histogram, List.findIdx?_map]
  rfl

theorem map_total_append {l : List κ} (hl : l.Nodup) {i : ℕ}
    (hi : l.findIdx? (fun x => x = e.1) = some i) :
    l.map (fun k => (k, total k (evs ++ [e]))) =
      (l.map fun k => (k, total k evs)).modify i fun x => (x.1, x.2 + e.2) := by
  obtain ⟨hlt, hkey, -⟩ := List.findIdx?_eq_some_iff_getElem.1 hi
  rw [decide_eq_true_eq] at hkey
  refine List.ext_getElem (by simp) fun j hj hj' => ?_
  rw [List.getElem_modify, List.getElem_map, List.getElem_map, total_append]
  rw [List.length_map] at hj
  by_cases hij : i = j
  · subst hij
    rw [if_pos rfl, if_pos hkey.symm]
  · have hne : e.1 ≠ l[j] := fun he => hij ((hl.getElem_inj_iff).1 (hkey.trans he))
    rw [if_neg hij, if_neg hne, add_zero]

theorem map_total_of_not_mem {l : List κ} (h : e.1 ∉ l) :
    l.map (fun k => (k, total k (evs ++ [e]))) = l.map fun k => (k, total k evs) := by
  refine List.map_congr_left fun k hk => ?_
  have hne : e.1 ≠ k := fun he => h (he.symm ▸ hk)
  rw [total_append, if_neg hne, add_zero]

/-- **One more event is recorded** in the histogram. -/
theorem histogram_append (n : ℕ) (evs : List (κ × V)) (e : κ × V) :
    histogram n (evs ++ [e]) = record n e (histogram n evs) := by
  have hnodup : ((distinct (evs.map Prod.fst)).take n).Nodup :=
    (nodup_distinct _).sublist (List.take_sublist _ _)
  have hlen : (histogram n evs).length = min n (distinct (evs.map Prod.fst)).length := by
    rw [histogram, List.length_map, List.length_take]
  rw [record, findIdx?_histogram]
  cases hfind : ((distinct (evs.map Prod.fst)).take n).findIdx? fun x => x = e.1 with
  | some i =>
    have hmem : e.1 ∈ (distinct (evs.map Prod.fst)).take n := by
      obtain ⟨hlt, hkey, -⟩ := List.findIdx?_eq_some_iff_getElem.1 hfind
      rw [decide_eq_true_eq] at hkey
      exact hkey ▸ List.getElem_mem hlt
    have hkeys : distinct ((evs ++ [e]).map Prod.fst) = distinct (evs.map Prod.fst) := by
      rw [List.map_append, List.map_singleton]
      rw [distinct_append, if_pos (mem_distinct.1 (List.mem_of_mem_take hmem)), List.append_nil]
    rw [histogram, hkeys, map_total_append hnodup hfind]
    rfl
  | none =>
    have hnot : e.1 ∉ (distinct (evs.map Prod.fst)).take n := fun hmem => by
      simpa using List.findIdx?_eq_none_iff.1 hfind _ hmem
    dsimp only
    by_cases hmem : e.1 ∈ evs.map Prod.fst
    · -- the key was seen, but there was no room for it
      have hkeys : distinct ((evs ++ [e]).map Prod.fst) = distinct (evs.map Prod.fst) := by
        rw [List.map_append, List.map_singleton]
        rw [distinct_append, if_pos hmem, List.append_nil]
      have hfull : ¬(histogram n evs).length < n := fun hlt => by
        refine hnot ?_
        rw [List.take_of_length_le (by omega)]
        exact mem_distinct.2 hmem
      rw [if_neg hfull, histogram, hkeys, map_total_of_not_mem hnot]
      rfl
    · have hkeys : distinct ((evs ++ [e]).map Prod.fst) = distinct (evs.map Prod.fst) ++ [e.1] := by
        rw [List.map_append, List.map_singleton]
        rw [distinct_append, if_neg hmem]
      rw [histogram, hkeys]
      by_cases hroom : (distinct (evs.map Prod.fst)).length < n
      · rw [if_pos (by omega),
          List.take_of_length_le (by simpa using Nat.succ_le_of_lt hroom), List.map_append,
          List.map_singleton, total_append, if_pos rfl, total_of_not_mem hmem, zero_add]
        rw [List.take_of_length_le (Nat.le_of_lt hroom)] at hnot
        rw [map_total_of_not_mem hnot, histogram, List.take_of_length_le (Nat.le_of_lt hroom)]
      · rw [if_neg (by omega), List.take_append_of_le_length (by omega),
          map_total_of_not_mem hnot]
        rfl

/-! ### Groups -/

/-- **Every element is in one group**: the sizes of the groups make up the number of elements. -/
theorem sum_countP {α β : Type} [DecidableEq β] {keys : List β} (hkeys : keys.Nodup)
    (p : α → Bool) (key : α → β) (l : List α) :
    (keys.map fun k => l.countP fun x => p x && key x = k).sum =
      l.countP fun x => p x && keys.contains (key x) := by
  induction keys with
  | nil => simp
  | cons k keys ih =>
    obtain ⟨hk, hkeys⟩ := List.nodup_cons.1 hkeys
    rw [List.map_cons, List.sum_cons, ih hkeys]
    clear ih hkeys
    induction l with
    | nil => rfl
    | cons x l ihl =>
      rw [List.countP_cons, List.countP_cons, List.countP_cons, ← ihl]
      by_cases hx : key x = k
      · have hnot : key x ∉ keys := hx ▸ hk
        cases p x <;> simp [hx, hk]
        omega
      · cases p x <;> simp [hx]
        omega

/-! ### Tables -/

/-- How a table is searched for an event with a key, and how the entry that is found changes. -/
structure Table (κ V E : Type) where
  stop : κ → E → Bool
  update : κ × V → E → E

/-- One event: the search begins at the first entry, and is none where it leaves the table.  The
last entry is never used. -/
def Table.add (T : Table κ V E) (t : List E) (e : κ × V) : Option (List E) :=
  (t.findIdx? (T.stop e.1)).map fun i =>
    if t.length ≤ i + 1 then t else t.modify i (T.update e)

/-- Entries are used, and stand for a key and its sum, or are free; the events with other keys
change free entries only. -/
structure Table.Lawful (T : Table κ V E) (isKey : κ → Bool) (used : κ × V → E) (Free : E → Prop) :
    Prop where
  stop_used : ∀ k x, isKey x.1 → T.stop k (used x) = decide (x.1 = k)
  stop_free : ∀ k e, Free e → T.stop k e = true
  update_used : ∀ k v w, isKey k → T.update (k, v) (used (k, w)) = used (k, w + v)
  update_free : ∀ k v e, isKey k → Free e → T.update (k, v) e = used (k, v)
  update_other : ∀ k v e, isKey k = false → Free e → Free (T.update (k, v) e)

/-- The table holds a histogram, with free entries behind it. -/
def Represents (used : κ × V → E) (Free : E → Prop) (t : List E) (h : List (κ × V)) : Prop :=
  ∃ rest, rest ≠ [] ∧ (∀ e ∈ rest, Free e) ∧ t = h.map used ++ rest

namespace Table

variable {T : Table κ V E} {isKey : κ → Bool} {used : κ × V → E} {Free : E → Prop} {t : List E}
  {h : List (κ × V)}

/-- The search stops at the entry of the key, or at the first free one. -/
theorem findIdx?_stop (hT : T.Lawful isKey used Free) (hkeys : ∀ x ∈ h, isKey x.1)
    {rest : List E} (hrest : rest ≠ []) (hfree : ∀ e ∈ rest, Free e) (k : κ) :
    (h.map used ++ rest).findIdx? (T.stop k) =
      some ((h.findIdx? fun x => x.1 = k).getD h.length) := by
  induction h with
  | nil =>
    obtain ⟨e, rest, rfl⟩ := List.exists_cons_of_ne_nil hrest
    rw [List.map_nil, List.nil_append, List.findIdx?_cons, hT.stop_free k e (hfree e (.head _))]
    rfl
  | cons x h ih =>
    rw [List.map_cons, List.cons_append, List.findIdx?_cons, List.findIdx?_cons,
      hT.stop_used k x (hkeys x (.head _))]
    split
    · rfl
    · rw [ih fun y hy => hkeys y (.tail _ hy)]
      cases h.findIdx? fun x => x.1 = k <;> rfl

omit [DecidableEq κ] [AddCommMonoid V] in
theorem modify_used {rest : List E} {i : ℕ} (hi : i < h.length) {f : E → E} {g : κ × V → κ × V}
    (hf : f (used h[i]) = used (g h[i])) :
    (h.map used ++ rest).modify i f = (h.modify i g).map used ++ rest := by
  induction h generalizing i with
  | nil => exact absurd hi (Nat.not_lt_zero i)
  | cons x h ih =>
    cases i with
    | zero => exact congrArg (· :: (h.map used ++ rest)) hf
    | succ i => exact congrArg (used x :: ·) (ih (Nat.lt_of_succ_lt_succ hi) hf)

theorem modify_free (l rest : List E) (e : E) (f : E → E) :
    (l ++ e :: rest).modify l.length f = l ++ f e :: rest := by
  induction l with
  | nil => rfl
  | cons x l ih => exact congrArg (x :: ·) ih

/-- **An event is recorded** in the table. -/
theorem add_represents (hT : T.Lawful isKey used Free) (hkeys : ∀ x ∈ h, isKey x.1)
    (ht : Represents used Free t h) {e : κ × V} (he : isKey e.1) :
    ∃ t', T.add t e = some t' ∧ t'.length = t.length ∧
      Represents used Free t' (record (t.length - 1) e h) := by
  obtain ⟨rest, hrest, hfree, rfl⟩ := ht
  have hpos : 0 < rest.length := List.length_pos_iff.2 hrest
  have hlen : (h.map used ++ rest).length = h.length + rest.length := by simp
  rw [add, findIdx?_stop hT hkeys hrest hfree, record, Option.map_some]
  cases hfind : h.findIdx? fun x => x.1 = e.1 with
  | some i =>
    obtain ⟨hi, hkey, -⟩ := List.findIdx?_eq_some_iff_getElem.1 hfind
    rw [decide_eq_true_eq] at hkey
    rw [Option.getD_some, if_neg (by omega)]
    refine ⟨_, rfl, List.length_modify _ _ _, rest, hrest, hfree, modify_used hi ?_⟩
    have hentry : h[i] = (e.1, h[i].2) := Prod.ext hkey rfl
    rw [hentry]
    exact hT.update_used e.1 e.2 _ he
  | none =>
    obtain ⟨f, rest, rfl⟩ := List.exists_cons_of_ne_nil hrest
    rw [List.length_cons] at hlen
    rw [Option.getD_none]
    by_cases hroom : h.length < (h.map used ++ f :: rest).length - 1
    · rw [if_neg (by omega), if_pos hroom]
      refine ⟨_, rfl, List.length_modify _ _ _, rest, ?_, fun g hg => hfree g (.tail _ hg), ?_⟩
      · rintro rfl
        simp at hroom
      · have hmodify := modify_free (h.map used) rest f (T.update e)
        rw [List.length_map, hT.update_free e.1 e.2 f he (hfree f (.head _))] at hmodify
        rw [hmodify, List.map_append, List.append_assoc]
        rfl
    · rw [if_pos (by omega), if_neg hroom]
      exact ⟨_, rfl, rfl, _, hrest, hfree, rfl⟩

theorem add_other (hT : T.Lawful isKey used Free) (hkeys : ∀ x ∈ h, isKey x.1)
    (ht : Represents used Free t h) {e : κ × V} (he : isKey e.1 = false) :
    ∃ t', T.add t e = some t' ∧ t'.length = t.length ∧ Represents used Free t' h := by
  obtain ⟨rest, hrest, hfree, rfl⟩ := ht
  have hnone : h.findIdx? (fun x => x.1 = e.1) = none := by
    refine List.findIdx?_eq_none_iff.2 fun x hx => decide_eq_false fun hkey => ?_
    rw [← hkey, hkeys x hx] at he
    cases he
  rw [add, findIdx?_stop hT hkeys hrest hfree, hnone, Option.map_some, Option.getD_none]
  split
  · exact ⟨_, rfl, rfl, rest, hrest, hfree, rfl⟩
  · obtain ⟨f, rest, rfl⟩ := List.exists_cons_of_ne_nil hrest
    have hmodify := modify_free (h.map used) rest f (T.update e)
    rw [List.length_map] at hmodify
    refine ⟨_, rfl, List.length_modify _ _ _, T.update e f :: rest, List.cons_ne_nil _ _, ?_,
      hmodify⟩
    intro g hg
    rcases List.mem_cons.1 hg with rfl | hg
    · exact hT.update_other e.1 e.2 f he (hfree f (.head _))
    · exact hfree g (.tail _ hg)

theorem isKey_histogram (n : ℕ) (evs : List (κ × V)) :
    ∀ x ∈ histogram n (evs.filter fun e => isKey e.1), isKey x.1 := by
  intro x hx
  obtain ⟨k, hk, rfl⟩ := List.mem_map.1 hx
  obtain ⟨e, he, rfl⟩ := List.mem_map.1 (mem_distinct.1 (List.mem_of_mem_take hk))
  exact (List.mem_filter.1 he).2

/-- **A table holds the histogram of the events with keys**, as far as it has room, and no search
leaves the table. -/
theorem run_represents (hT : T.Lawful isKey used Free) (ht : Represents used Free t [])
    (evs : List (κ × V)) :
    ∃ t', evs.foldlM T.add t = some t' ∧ t'.length = t.length ∧
      Represents used Free t' (histogram (t.length - 1) (evs.filter fun e => isKey e.1)) := by
  induction evs using List.reverseRecOn with
  | nil =>
    have hnil : histogram (t.length - 1) ([] : List (κ × V)) = [] := by simp [histogram, distinct]
    exact ⟨t, rfl, rfl, by rwa [List.filter_nil, hnil]⟩
  | append_singleton evs e ih =>
    obtain ⟨t', hrun, hlen, hrep⟩ := ih
    have hkeys : ∀ x ∈ histogram (t.length - 1) (evs.filter fun e => isKey e.1), isKey x.1 :=
      isKey_histogram (t.length - 1) evs
    rw [List.foldlM_append, hrun, List.filter_append]
    cases he : isKey e.1 with
    | true =>
      obtain ⟨u, hu, hulen, hurep⟩ := add_represents hT hkeys hrep he
      refine ⟨u, by simpa using hu, hulen.trans hlen, ?_⟩
      rw [hlen] at hurep
      rw [List.filter_singleton, he, cond_true, histogram_append]
      exact hurep
    | false =>
      obtain ⟨u, hu, hulen, hurep⟩ := add_other hT hkeys hrep he
      refine ⟨u, by simpa using hu, hulen.trans hlen, ?_⟩
      rw [List.filter_singleton, he, cond_false, List.append_nil]
      exact hurep

end Table

end Histogram
end Or1ksim
