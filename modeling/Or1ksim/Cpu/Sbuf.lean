import Mathlib.Algebra.Ring.Int.Defs
import Mathlib.Algebra.Order.BigOperators.Group.List
import Mathlib.Data.Int.Order.Basic
import Or1ksim.Lib.Ring

/-!
# The store buffer

`cpu/or32/execute.c`: stores are taken from a buffer one after another while the processor goes on,
and are waited for if the buffer is full, or at a load.

* `sbufStore`, `sbufLoad` — the analysis of stores and loads;
* `refStore`, `refLoad` — a server that works through a queue, by the times at which it is done;
* `caught`, `completions_caught` — what is left to do after some time;
* `Matches` — the buffer holds the work that the queue has to do;
* `Fits` — the time that has gone by fits into an `int`, or does not matter;
* `sbuf_refines` — **the buffer waits as the queue does**, in every run that fits.
-/

namespace Or1ksim
namespace Sbuf

/-- `MAX_SBUF_LEN` -/
def maxSbufLen : ℕ := 256

/-- The globals of the analysis; each is an `int`. -/
structure State where
  buf : ℕ → BitVec 32
  head : ℕ
  tail : ℕ
  count : ℕ
  prevCycles : BitVec 32
  waitCyc : BitVec 32
  totalCyc : BitVec 32
  /-- `runtime.sim.mem_cycles` -/
  memCycles : BitVec 32

/-- The globals of a program that starts. -/
def State.init : State := ⟨fun _ => 0, 0, 0, 0, 0, 0, 0, 0⟩

/-! ### The code -/

/-- The oldest store leaves the buffer. -/
def State.pop (s : State) : State :=
  { s with tail := (s.tail + 1) % maxSbufLen, count := s.count - 1 }

/-- The loop that takes stores from the buffer that have happened meanwhile, `n` at most: what is
left of `delta`, and the buffer. -/
def drain : ℕ → BitVec 32 → State → BitVec 32 × State
  | 0, delta, s => (delta, s)
  | n + 1, delta, s =>
    if s.count ≠ 0 ∧ (s.buf s.tail).toInt ≤ delta.toInt then
      drain n (delta - s.buf s.tail) s.pop
    else (delta, s)

/-- What both functions begin with. -/
def catchUp (cycles : ℤ) (s : State) : State :=
  let delta := BitVec.ofInt 32 (cycles - s.prevCycles.toInt)
  let r := drain s.count delta { s with prevCycles := BitVec.ofInt 32 cycles }
  if r.2.count ≠ 0 then
    { r.2 with buf := Function.update r.2.buf r.2.tail (r.2.buf r.2.tail - r.1) }
  else r.2

/-- The oldest store is waited for. -/
def waitOldest (s : State) : State :=
  { s with
    waitCyc := s.waitCyc + s.buf s.tail
    memCycles := s.memCycles + s.buf s.tail
    prevCycles := s.prevCycles + s.buf s.tail }.pop

/-- `sbuf_store`, with a buffer of `len` places when the cycle counter is `cycles`. -/
def sbufStore (len : ℕ) (cycles : ℤ) (cyc : BitVec 32) (s : State) : State :=
  let s := catchUp cycles { s with totalCyc := s.totalCyc + cyc }
  let s := if len ≤ s.count then waitOldest s else s
  { s with
    buf := Function.update s.buf s.head cyc
    head := (s.head + 1) % maxSbufLen
    count := s.count + 1 }

/-- The loop that waits for the stores. -/
def waitAll : ℕ → State → State
  | 0, s => s
  | n + 1, s => waitAll n (waitOldest s)

/-- `sbuf_load` -/
def sbufLoad (cycles : ℤ) (s : State) : State := waitAll (catchUp cycles s).count (catchUp cycles s)

/-! ### The queue -/

/-- A store that takes `c` cycles comes at `t`: how long it waits for a place, if `len` stores are
not done yet, and the times at which the server is done with the stores in the queue. -/
def refStore (len : ℕ) (t c : ℤ) (queue : List ℤ) : ℤ × List ℤ :=
  let queue := queue.filter (t < ·)
  let start := if len ≤ queue.length then queue.headD t else t
  let rest := if len ≤ queue.length then queue.tail else queue
  (start - t, rest ++ [rest.foldl max start + c])

/-- A load comes at `t`: it waits until the server is done. -/
def refLoad (t : ℤ) (queue : List ℤ) : ℤ × List ℤ := (queue.foldl max t - t, [])

/-! ### Runs -/

/-- What is called. -/
inductive Op where
  | store (cyc : BitVec 32)
  | load
deriving DecidableEq

/-- A call, and the cycle counter when it comes. -/
structure Call where
  cycles : ℤ
  op : Op
deriving DecidableEq

variable {len : ℕ}

def exec (len : ℕ) (s : State) (c : Call) : State :=
  match c.op with
  | .store cyc => sbufStore len c.cycles cyc s
  | .load => sbufLoad c.cycles s

def refExec (len : ℕ) (queue : List ℤ) (c : Call) : ℤ × List ℤ :=
  match c.op with
  | .store cyc => refStore len c.cycles cyc.toInt queue
  | .load => refLoad c.cycles queue

/-- The wait cycles that a call adds. -/
def waited (len : ℕ) (s : State) (c : Call) : ℤ := ((exec len s c).memCycles - s.memCycles).toInt

/-- The wait cycles of the calls of a run. -/
def waits (len : ℕ) : State → List Call → List ℤ
  | _, [] => []
  | s, c :: cs => waited len s c :: waits len (exec len s c) cs

/-- The waits of the queue. -/
def refWaits (len : ℕ) : List ℤ → List Call → List ℤ
  | _, [] => []
  | queue, c :: cs => (refExec len queue c).1 :: refWaits len (refExec len queue c).2 cs

/-- The costs of the stores in the buffer, the oldest first. -/
def pending (s : State) : List ℤ :=
  (Ring.contents s.buf s.tail s.count maxSbufLen).map BitVec.toInt

/-- What is left of the pending stores after `d` cycles. -/
def caught (d : ℤ) : List ℤ → List ℤ
  | [] => []
  | x :: xs => if x ≤ d then caught (d - x) xs else (x - d) :: xs

/-- A condition on the calls of a run, each with the end of the wait before it and the state it is
met in. -/
def Along (len : ℕ) (P : ℤ → State → Call → Prop) : ℤ → State → List Call → Prop
  | _, _, [] => True
  | t, s, c :: cs => P t s c ∧ Along len P (c.cycles + waited len s c) (exec len s c) cs

instance decidableAlong {P : ℤ → State → Call → Prop} [∀ t s c, Decidable (P t s c)] :
    (t : ℤ) → (s : State) → (calls : List Call) → Decidable (Along len P t s calls)
  | _, _, [] => isTrue trivial
  | _, _, _ :: cs =>
    have := fun t s => decidableAlong (P := P) t s cs
    inferInstanceAs (Decidable (_ ∧ _))

/-- A call does not come before the end of the last wait, and no store takes a negative time. -/
def Arrives (t : ℤ) (_ : State) (c : Call) : Prop :=
  t ≤ c.cycles ∧
    match c.op with
    | .store cyc => 0 ≤ cyc.toInt
    | .load => True

instance : ∀ t s c, Decidable (Arrives t s c)
  | _, _, ⟨_, .store _⟩ => inferInstanceAs (Decidable (_ ∧ _))
  | _, _, ⟨_, .load⟩ => inferInstanceAs (Decidable (_ ∧ True))

/-- The cycles since the end of the last wait fit into an `int`, or there is nothing pending, or so
little that it is done by what an `int` holds of them; and a load waits for less than `2 ^ 31`
cycles. -/
def Fits (t : ℤ) (s : State) (c : Call) : Prop :=
  (c.cycles - t < 2 ^ 31 ∨ s.count = 0 ∨
      (pending s).sum ≤ (BitVec.ofInt 32 (c.cycles - t)).toInt) ∧
    (c.op = .load → (caught (c.cycles - t) (pending s)).sum < 2 ^ 31)
deriving Decidable

/-- The buffer is in order. -/
structure WellFormed (len : ℕ) (s : State) : Prop where
  count : s.count ≤ len
  tail : s.tail < maxSbufLen
  head : s.head = (s.tail + s.count) % maxSbufLen
  nonneg : ∀ x ∈ pending s, 0 ≤ x

/-! ### What is left to do -/

/-- The times at which a server is done that starts at `t`. -/
def completions (t : ℤ) : List ℤ → List ℤ
  | [] => []
  | x :: xs => (t + x) :: completions (t + x) xs

theorem length_completions (t : ℤ) (xs : List ℤ) : (completions t xs).length = xs.length := by
  induction xs generalizing t with
  | nil => rfl
  | cons x xs ih => rw [completions, List.length_cons, ih, List.length_cons]

theorem completions_append (t : ℤ) (xs : List ℤ) (c : ℤ) :
    completions t (xs ++ [c]) = completions t xs ++ [t + xs.sum + c] := by
  induction xs generalizing t with
  | nil => simp [completions]
  | cons x xs ih => simp [completions, ih, add_assoc]

/-- The server is done with everything when it is done with the last. -/
theorem foldl_max_completions (t : ℤ) {xs : List ℤ} (hxs : ∀ x ∈ xs, 0 ≤ x) :
    (completions t xs).foldl max t = t + xs.sum := by
  induction xs generalizing t with
  | nil => simp [completions]
  | cons x xs ih =>
    have hx := hxs x List.mem_cons_self
    rw [completions, List.foldl_cons, max_eq_right (by omega), ih _ fun y hy => hxs y (.tail _ hy),
      List.sum_cons, add_assoc]

theorem le_of_mem_completions {t d : ℤ} {xs : List ℤ} (hxs : ∀ x ∈ xs, 0 ≤ x)
    (hd : d ∈ completions t xs) : t ≤ d := by
  induction xs generalizing t with
  | nil => exact absurd hd List.not_mem_nil
  | cons x xs ih =>
    have hx := hxs x List.mem_cons_self
    rcases List.mem_cons.1 hd with rfl | hd
    · omega
    · have := ih (fun y hy => hxs y (.tail _ hy)) hd
      omega

theorem foldl_max_filter {t acc : ℤ} (hacc : t ≤ acc) (queue : List ℤ) :
    (queue.filter (t < ·)).foldl max acc = queue.foldl max acc := by
  induction queue generalizing acc with
  | nil => rfl
  | cons d queue ih =>
    by_cases hd : t < d
    · rw [List.filter_cons_of_pos (by simpa using hd), List.foldl_cons, List.foldl_cons,
        ih (hacc.trans (le_max_left acc d))]
    · rw [List.filter_cons_of_neg (by simpa using hd), ih hacc, List.foldl_cons,
        max_eq_left (by omega)]

theorem caught_nonneg {d : ℤ} {xs : List ℤ} (hxs : ∀ x ∈ xs, 0 ≤ x) : ∀ x ∈ caught d xs, 0 ≤ x := by
  induction xs generalizing d with
  | nil => exact fun x hx => absurd hx List.not_mem_nil
  | cons y ys ih =>
    rw [caught]
    split_ifs with hy
    · exact ih fun x hx => hxs x (.tail _ hx)
    · intro x hx
      rcases List.mem_cons.1 hx with rfl | hx
      · omega
      · exact hxs x (.tail _ hx)

theorem caught_eq_nil {d : ℤ} {xs : List ℤ} (hxs : ∀ x ∈ xs, 0 ≤ x) (h : xs.sum ≤ d) :
    caught d xs = [] := by
  induction xs generalizing d with
  | nil => rfl
  | cons x xs ih =>
    have hrest := fun y hy => hxs y (.tail _ hy)
    have hsum := List.sum_nonneg hrest
    rw [List.sum_cons] at h
    rw [caught, if_pos (by omega), ih hrest (by omega)]

/-- **What is left after some time** is what the server is not done with then. -/
theorem completions_caught (t d : ℤ) {xs : List ℤ} (hxs : ∀ x ∈ xs, 0 ≤ x) :
    completions (t + d) (caught d xs) = (completions t xs).filter (t + d < ·) := by
  induction xs generalizing t d with
  | nil => rfl
  | cons x xs ih =>
    have hrest := fun y hy => hxs y (.tail _ hy)
    rw [caught, completions]
    split_ifs with hx
    · have hrec := ih (t + x) (d - x) hrest
      rw [show t + x + (d - x) = t + d by omega] at hrec
      rw [List.filter_cons_of_neg (by simpa using hx), hrec]
    · have hlast : t + d + (x - d) = t + x := by omega
      have hall : (completions (t + x) xs).filter (t + d < ·) = completions (t + x) xs := by
        refine List.filter_eq_self.2 fun y hy => decide_eq_true ?_
        have := le_of_mem_completions hrest hy
        omega
      rw [List.filter_cons_of_pos (by simpa using hx), hall, completions, hlast]

/-! ### The buffer -/

theorem toInt_sub_of_le {x y : BitVec 32} (hx : 0 ≤ x.toInt) (hxy : x.toInt ≤ y.toInt) :
    (y - x).toInt = y.toInt - x.toInt := by
  have hy := y.toInt_lt
  rw [BitVec.toInt_sub, Int.bmod_eq_of_le] <;> omega

theorem pending_pop {s : State} (htail : s.tail < maxSbufLen) (hcount : s.count ≠ 0) :
    pending s = (s.buf s.tail).toInt :: pending s.pop := by
  obtain ⟨n, hn⟩ := Nat.exists_eq_succ_of_ne_zero hcount
  rw [pending, hn, Ring.contents_pop htail, List.map_cons, pending, State.pop, hn]
  rfl

/-- Only some of the oldest stores have been taken from the buffer. -/
structure Popped (s t : State) : Prop where
  eq : t = { s with tail := t.tail, count := t.count }
  tail : t.tail < maxSbufLen
  head : (t.tail + t.count) % maxSbufLen = (s.tail + s.count) % maxSbufLen
  count : t.count ≤ s.count

theorem popped_pop {s : State} (hcount : s.count ≠ 0) : Popped s s.pop := by
  refine ⟨rfl, Nat.mod_lt _ (by decide), ?_, Nat.sub_le _ _⟩
  rw [State.pop, Nat.mod_add_mod]
  dsimp only
  congr 1
  omega

theorem Popped.trans {s t u : State} (hst : Popped s t) (htu : Popped t u) : Popped s u :=
  ⟨by rw [htu.eq, hst.eq], htu.tail, htu.head.trans hst.head, htu.count.trans hst.count⟩

/-- **The loop over the stores that have happened meanwhile** leaves nothing, or a store that takes
longer than what is left of the time. -/
theorem drain_spec {n : ℕ} {delta : BitVec 32} {s : State} (hn : s.count = n)
    (htail : s.tail < maxSbufLen) (hnonneg : ∀ x ∈ pending s, 0 ≤ x) (hdelta : 0 ≤ delta.toInt) :
    Popped s (drain n delta s).2 ∧
      ((drain n delta s).2.count = 0 ∧ caught delta.toInt (pending s) = [] ∨
        ∃ x xs, pending (drain n delta s).2 = x :: xs ∧ 0 ≤ (drain n delta s).1.toInt ∧
          (drain n delta s).1.toInt < x ∧
          caught delta.toInt (pending s) = (x - (drain n delta s).1.toInt) :: xs) := by
  -- One round for each entry that the time is enough for; `delta` is what is left of it.
  induction n generalizing delta s with
  | zero =>
    refine ⟨⟨rfl, htail, rfl, le_rfl⟩, .inl ⟨hn, ?_⟩⟩
    rw [pending, hn]
    rfl
  | succ n ih =>
    have hcount : s.count ≠ 0 := by omega
    have hpending := pending_pop htail hcount
    rw [drain]
    split_ifs with hfits
    · rw [hpending] at hnonneg ⊢
      have hfirst := hnonneg _ List.mem_cons_self
      have hsub := toInt_sub_of_le hfirst hfits.2
      have hpop : s.pop.count = n := by
        rw [State.pop, hn]
        rfl
      obtain ⟨hpopped, hrest⟩ := ih hpop (Nat.mod_lt _ (by decide))
        (fun x hx => hnonneg x (.tail _ hx)) (show 0 ≤ (delta - s.buf s.tail).toInt by omega)
      rw [hsub] at hrest
      refine ⟨(popped_pop hcount).trans hpopped, ?_⟩
      rwa [caught, if_pos hfits.2]
    · have hlong : delta.toInt < (s.buf s.tail).toInt := by
        by_contra hle
        exact hfits ⟨hcount, not_lt.1 hle⟩
      refine ⟨⟨rfl, htail, rfl, le_rfl⟩, .inr ⟨_, _, hpending, hdelta, hlong, ?_⟩⟩
      rw [hpending, caught, if_neg (not_le.2 hlong)]

theorem catchUp_of_nonneg {cycles : ℤ} {s : State} (hs : WellFormed len s) (hlen : len ≤ maxSbufLen)
    (hdelta : 0 ≤ (BitVec.ofInt 32 (cycles - s.prevCycles.toInt)).toInt) :
    WellFormed len (catchUp cycles s) ∧ (catchUp cycles s).prevCycles = BitVec.ofInt 32 cycles ∧
      (catchUp cycles s).memCycles = s.memCycles ∧
      pending (catchUp cycles s) =
        caught (BitVec.ofInt 32 (cycles - s.prevCycles.toInt)).toInt (pending s) := by
  set delta := BitVec.ofInt 32 (cycles - s.prevCycles.toInt) with hdef
  obtain ⟨hpopped, hleft⟩ := drain_spec (s := { s with prevCycles := BitVec.ofInt 32 cycles }) rfl
    hs.tail hs.nonneg hdelta
  have hcaught := caught_nonneg (d := delta.toInt) hs.nonneg
  set r := drain s.count delta { s with prevCycles := BitVec.ofInt 32 cycles } with hr
  have hcatch : catchUp cycles s = if r.2.count ≠ 0 then
      { r.2 with buf := Function.update r.2.buf r.2.tail (r.2.buf r.2.tail - r.1) } else r.2 := rfl
  have hcount : r.2.count ≤ len := hpopped.count.trans hs.count
  have hhead : r.2.head = (r.2.tail + r.2.count) % maxSbufLen := by
    rw [hpopped.head]
    refine Eq.trans ?_ hs.head
    rw [hpopped.eq]
  have hprev : r.2.prevCycles = BitVec.ofInt 32 cycles := by rw [hpopped.eq]
  have hmem : r.2.memCycles = s.memCycles := by rw [hpopped.eq]
  change _ ∨ ∃ x xs, _ ∧ _ ∧ _ ∧ caught delta.toInt (pending s) = _ at hleft
  rcases hleft with ⟨hempty, hnil⟩ | ⟨x, xs, hpending, hdelta', hlt, hcons⟩
  · have hnone : pending r.2 = [] := by
      rw [pending, hempty]
      rfl
    rw [hcatch, if_neg (not_not.2 hempty)]
    refine ⟨⟨hcount, hpopped.tail, hhead, ?_⟩, hprev, hmem, by rw [hnone]; exact hnil.symm⟩
    rw [hnone]
    exact fun y hy => absurd hy List.not_mem_nil
  · have hne : r.2.count ≠ 0 := by
      intro hzero
      rw [pending, hzero] at hpending
      exact absurd hpending (List.cons_ne_nil x xs).symm
    have hfirst : (r.2.buf r.2.tail).toInt = x ∧ pending r.2.pop = xs := by
      rw [pending_pop hpopped.tail hne] at hpending
      exact List.cons_eq_cons.1 hpending
    have hsub : (r.2.buf r.2.tail - r.1).toInt = x - r.1.toInt := by
      rw [toInt_sub_of_le hdelta' (by omega), hfirst.1]
    obtain ⟨n, hn⟩ := Nat.exists_eq_succ_of_ne_zero hne
    have hpend : pending { r.2 with
        buf := Function.update r.2.buf r.2.tail (r.2.buf r.2.tail - r.1) } =
        caught delta.toInt (pending s) := by
      rw [hcons, ← hsub, ← hfirst.2, pending, hn, Ring.contents_update_tail hpopped.tail (by omega),
        List.map_cons, pending, State.pop, hn]
      rfl
    rw [hcatch, if_pos hne]
    exact ⟨⟨hcount, hpopped.tail, hhead, by rw [hpend]; exact hcaught⟩, hprev, hmem, hpend⟩

/-- **What is left when a call begins** is what is left of the pending stores after the time that
has gone by. -/
theorem catchUp_spec {t cycles : ℤ} {s : State} (hs : WellFormed len s) (hlen : len ≤ maxSbufLen)
    (hprev : s.prevCycles = BitVec.ofInt 32 t) (hle : t ≤ cycles)
    (hfits : cycles - t < 2 ^ 31 ∨ s.count = 0 ∨
      (pending s).sum ≤ (BitVec.ofInt 32 (cycles - t)).toInt) :
    WellFormed len (catchUp cycles s) ∧ (catchUp cycles s).prevCycles = BitVec.ofInt 32 cycles ∧
      (catchUp cycles s).memCycles = s.memCycles ∧
      pending (catchUp cycles s) = caught (cycles - t) (pending s) := by
  have hdelta : (BitVec.ofInt 32 (cycles - s.prevCycles.toInt)).toInt =
      (cycles - t).bmod (2 ^ 32) := by
    rw [hprev, BitVec.toInt_ofInt, BitVec.toInt_ofInt, Int.sub_bmod_bmod]
  rw [BitVec.toInt_ofInt] at hfits
  rcases hfits with hshort | hempty | hdone
  · have hsame : (cycles - t).bmod (2 ^ 32) = cycles - t := by
      rw [Int.bmod_eq_of_le] <;> omega
    have hnonneg : 0 ≤ (BitVec.ofInt 32 (cycles - s.prevCycles.toInt)).toInt := by
      rw [hdelta, hsame]
      omega
    obtain ⟨hwf, hprev', hmem, hpending⟩ := catchUp_of_nonneg hs hlen hnonneg
    rw [hdelta, hsame] at hpending
    exact ⟨hwf, hprev', hmem, hpending⟩
  · have hcatch : catchUp cycles s = { s with prevCycles := BitVec.ofInt 32 cycles } := by
      simp [catchUp, drain, hempty]
    have hnone : pending s = [] := by
      rw [pending, hempty]
      rfl
    rw [hcatch]
    exact ⟨⟨hs.count, hs.tail, hs.head, hs.nonneg⟩, rfl, rfl, hnone.trans (by rw [hnone]; rfl)⟩
  · have hsum := List.sum_nonneg hs.nonneg
    have hbmod : (cycles - t).bmod (2 ^ 32) ≤ cycles - t := by
      rw [Int.bmod_def]
      split_ifs <;> omega
    have hnonneg : 0 ≤ (BitVec.ofInt 32 (cycles - s.prevCycles.toInt)).toInt := by
      rw [hdelta]
      omega
    obtain ⟨hwf, hprev', hmem, hpending⟩ := catchUp_of_nonneg hs hlen hnonneg
    rw [hdelta, caught_eq_nil hs.nonneg hdone] at hpending
    rw [caught_eq_nil hs.nonneg (hdone.trans hbmod)]
    exact ⟨hwf, hprev', hmem, hpending⟩

/-! ### Waiting -/

/-- **The oldest store is waited for**, for the time that it takes. -/
theorem waitOldest_spec {t : ℤ} {s : State} (hs : WellFormed len s)
    (hprev : s.prevCycles = BitVec.ofInt 32 t) (hcount : s.count ≠ 0) :
    ∃ x xs, pending s = x :: xs ∧ pending (waitOldest s) = xs ∧ WellFormed len (waitOldest s) ∧
      (waitOldest s).count = s.count - 1 ∧ (waitOldest s).prevCycles = BitVec.ofInt 32 (t + x) ∧
      (waitOldest s).memCycles = s.memCycles + BitVec.ofInt 32 x := by
  have hpending := pending_pop hs.tail hcount
  have hnonneg := hs.nonneg
  rw [hpending] at hnonneg
  obtain ⟨-, htail, hhead, hle⟩ := popped_pop hcount
  refine ⟨_, _, hpending, rfl, ⟨hle.trans hs.count, htail, ?_, ?_⟩, rfl, ?_, ?_⟩
  · exact hs.head.trans hhead.symm
  · exact fun x hx => hnonneg x (.tail _ hx)
  · rw [BitVec.ofInt_add, BitVec.ofInt_toInt, ← hprev]
    rfl
  · rw [BitVec.ofInt_toInt]
    rfl

theorem waitAll_spec {n : ℕ} {t : ℤ} {s : State} (hs : WellFormed len s)
    (hprev : s.prevCycles = BitVec.ofInt 32 t) (hn : s.count = n) :
    WellFormed len (waitAll n s) ∧ pending (waitAll n s) = [] ∧
      (waitAll n s).prevCycles = BitVec.ofInt 32 (t + (pending s).sum) ∧
      (waitAll n s).memCycles = s.memCycles + BitVec.ofInt 32 (pending s).sum := by
  -- The waits add up: each of them moves the clock to the end of its store.
  induction n generalizing t s with
  | zero =>
    have hnone : pending s = [] := by
      rw [pending, hn]
      rfl
    rw [waitAll, hnone, List.sum_nil, add_zero]
    exact ⟨hs, rfl, hprev, (BitVec.add_zero _).symm⟩
  | succ n ih =>
    obtain ⟨x, xs, hpending, hrest, hwf, hcount, hprev', hmem⟩ :=
      waitOldest_spec hs hprev (by omega)
    obtain ⟨hall, hnone, hend, hwait⟩ := ih hwf hprev' (by omega)
    rw [hrest] at hend hwait
    rw [waitAll, hpending, List.sum_cons]
    refine ⟨hall, hnone, by rw [hend, add_assoc], ?_⟩
    rw [hwait, hmem, BitVec.ofInt_add, BitVec.add_assoc]

/-! ### One call -/

/-- The buffer holds the work of the queue, when the last wait has ended at `t`. -/
structure Matches (len : ℕ) (t : ℤ) (s : State) (queue : List ℤ) : Prop where
  wellFormed : WellFormed len s
  prev : s.prevCycles = BitVec.ofInt 32 t
  queue : queue = completions t (pending s)

theorem length_pending (s : State) : (pending s).length = s.count := by
  rw [pending, List.length_map, Ring.length_contents]

theorem pending_push {s : State} (hs : WellFormed len s) (hlt : s.count < len)
    (hlen : len ≤ maxSbufLen) (cyc : BitVec 32) :
    pending { s with
        buf := Function.update s.buf s.head cyc
        head := (s.head + 1) % maxSbufLen
        count := s.count + 1 } = pending s ++ [cyc.toInt] := by
  rw [pending, pending, hs.head, Ring.contents_push (by omega), List.map_append, List.map_singleton]

theorem wellFormed_push {s : State} (hs : WellFormed len s) (hlt : s.count < len)
    (hlen : len ≤ maxSbufLen) {cyc : BitVec 32} (hcyc : 0 ≤ cyc.toInt) :
    WellFormed len { s with
        buf := Function.update s.buf s.head cyc
        head := (s.head + 1) % maxSbufLen
        count := s.count + 1 } := by
  refine ⟨hlt, hs.tail, ?_, ?_⟩
  · dsimp only
    rw [hs.head, Nat.mod_add_mod, Nat.add_assoc]
  · rw [pending_push hs hlt hlen]
    intro x hx
    rcases List.mem_append.1 hx with hx | hx
    · exact hs.nonneg x hx
    · rw [List.mem_singleton.1 hx]
      exact hcyc

/-- **A store** waits as in the queue. -/
theorem Matches.store {t cycles : ℤ} {s : State} {queue : List ℤ} (hs : Matches len t s queue)
    (hpos : 1 ≤ len) (hlen : len ≤ maxSbufLen) {cyc : BitVec 32}
    (harrives : Arrives t s ⟨cycles, .store cyc⟩) (hfits : Fits t s ⟨cycles, .store cyc⟩) :
    waited len s ⟨cycles, .store cyc⟩ = (refStore len cycles cyc.toInt queue).1 ∧
      Matches len (cycles + waited len s ⟨cycles, .store cyc⟩) (sbufStore len cycles cyc s)
        (refStore len cycles cyc.toInt queue).2 := by
  have hcyc : 0 ≤ cyc.toInt := harrives.2
  have hcaught : ∀ s' : State, s' = { s with totalCyc := s.totalCyc + cyc } →
      WellFormed len (catchUp cycles s') ∧
        (catchUp cycles s').prevCycles = BitVec.ofInt 32 cycles ∧
        (catchUp cycles s').memCycles = s.memCycles ∧
        queue.filter (cycles < ·) = completions cycles (pending (catchUp cycles s')) := by
    rintro _ rfl
    have hwf : WellFormed len { s with totalCyc := s.totalCyc + cyc } :=
      ⟨hs.wellFormed.count, hs.wellFormed.tail, hs.wellFormed.head, hs.wellFormed.nonneg⟩
    obtain ⟨hwf', hprev, hmem, hpending⟩ := catchUp_spec hwf hlen hs.prev harrives.1 hfits.1
    have hfilter := completions_caught t (cycles - t) hs.wellFormed.nonneg
    rw [add_sub_cancel] at hfilter
    refine ⟨hwf', hprev, hmem, ?_⟩
    rw [hpending, hs.queue]
    exact hfilter.symm
  obtain ⟨hwf, hprev, hmem, hqueue⟩ := hcaught _ rfl
  set u := catchUp cycles { s with totalCyc := s.totalCyc + cyc } with hu
  have hstore : sbufStore len cycles cyc s =
      { (if len ≤ u.count then waitOldest u else u) with
        buf := Function.update (if len ≤ u.count then waitOldest u else u).buf
          (if len ≤ u.count then waitOldest u else u).head cyc
        head := ((if len ≤ u.count then waitOldest u else u).head + 1) % maxSbufLen
        count := (if len ≤ u.count then waitOldest u else u).count + 1 } := rfl
  have hwaited : waited len s ⟨cycles, .store cyc⟩ =
      ((if len ≤ u.count then waitOldest u else u).memCycles - s.memCycles).toInt := rfl
  have hlength : (completions cycles (pending u)).length = u.count := by
    rw [length_completions, length_pending]
  rw [hwaited, hstore, refStore, hqueue]
  dsimp only
  rw [hlength]
  -- A full buffer is waited for, until its oldest store is done.
  by_cases hfull : len ≤ u.count
  · obtain ⟨x, xs, hpending, hrest, hwf', hcount, hprev', hmem'⟩ :=
      waitOldest_spec hwf hprev (by omega)
    have hx : 0 ≤ x := hwf.nonneg x (by rw [hpending]; exact List.mem_cons_self)
    have hxint : (BitVec.ofInt 32 x).toInt = x := by
      have hpend := pending_pop hwf.tail (show u.count ≠ 0 by omega)
      rw [hpending] at hpend
      rw [(List.cons_eq_cons.1 hpend).1, BitVec.ofInt_toInt]
    have hwait : ((waitOldest u).memCycles - s.memCycles).toInt = x := by
      rw [hmem', hmem, BitVec.add_comm, BitVec.add_sub_cancel, hxint]
    have hxs : ∀ y ∈ xs, 0 ≤ y := fun y hy => hwf.nonneg y (by rw [hpending]; exact .tail _ hy)
    have hmax := foldl_max_completions (cycles + x) hxs
    simp only [if_pos hfull]
    rw [hpending, completions, List.headD_cons, List.tail_cons, hmax, hwait]
    refine ⟨by omega, wellFormed_push hwf' ?_ hlen hcyc, hprev', ?_⟩
    · have := hwf.count
      omega
    · rw [pending_push hwf' (by have := hwf.count; omega) hlen, hrest, completions_append]
  · have hmax := foldl_max_completions cycles hwf.nonneg
    have hwait : (u.memCycles - s.memCycles).toInt = 0 := by
      rw [hmem, BitVec.sub_self]
      rfl
    simp only [if_neg hfull]
    rw [hmax, hwait, add_zero]
    refine ⟨(sub_self _).symm, wellFormed_push hwf (by omega) hlen hcyc, hprev, ?_⟩
    rw [pending_push hwf (by omega) hlen, completions_append]

/-- **A load** waits as in the queue. -/
theorem Matches.load {t cycles : ℤ} {s : State} {queue : List ℤ} (hs : Matches len t s queue)
    (hlen : len ≤ maxSbufLen) (harrives : Arrives t s ⟨cycles, .load⟩)
    (hfits : Fits t s ⟨cycles, .load⟩) :
    waited len s ⟨cycles, .load⟩ = (refLoad cycles queue).1 ∧
      Matches len (cycles + waited len s ⟨cycles, .load⟩) (sbufLoad cycles s)
        (refLoad cycles queue).2 := by
  obtain ⟨hwf, hprev, hmem, hpending⟩ :=
    catchUp_spec hs.wellFormed hlen hs.prev harrives.1 hfits.1
  obtain ⟨hall, hnone, hend, hwait⟩ := waitAll_spec hwf hprev rfl
  have hfilter := completions_caught t (cycles - t) hs.wellFormed.nonneg
  rw [add_sub_cancel, ← hpending, ← hs.queue] at hfilter
  have hshort : (pending (catchUp cycles s)).sum < 2 ^ 31 := by
    rw [hpending]
    exact hfits.2 rfl
  have hsum : 0 ≤ (pending (catchUp cycles s)).sum := List.sum_nonneg hwf.nonneg
  have hwaited : waited len s ⟨cycles, .load⟩ = (pending (catchUp cycles s)).sum := by
    have hadded : (sbufLoad cycles s).memCycles - s.memCycles =
        BitVec.ofInt 32 (pending (catchUp cycles s)).sum := by
      rw [sbufLoad, hwait, hmem, BitVec.add_comm, BitVec.add_sub_cancel]
    have hint := BitVec.toInt_ofInt_eq_self (w := 32) (by decide)
      (n := (pending (catchUp cycles s)).sum) (by omega) (by omega)
    exact (congrArg BitVec.toInt hadded).trans hint
  have hmax : queue.foldl max cycles = cycles + (pending (catchUp cycles s)).sum := by
    rw [← foldl_max_filter le_rfl, ← hfilter, foldl_max_completions cycles hwf.nonneg]
  rw [hwaited, refLoad, hmax]
  refine ⟨(add_sub_cancel_left cycles _).symm, hall, hend, ?_⟩
  rw [sbufLoad, hnone]
  rfl

/-! ### Runs -/

/-- **One call** of a run that fits. -/
theorem Matches.exec {t : ℤ} {s : State} {queue : List ℤ} (hs : Matches len t s queue)
    (hpos : 1 ≤ len) (hlen : len ≤ maxSbufLen) {c : Call} (harrives : Arrives t s c)
    (hfits : Fits t s c) :
    waited len s c = (refExec len queue c).1 ∧
      Matches len (c.cycles + waited len s c) (exec len s c) (refExec len queue c).2 := by
  obtain ⟨cycles, op⟩ := c
  cases op with
  | store cyc => exact hs.store hpos hlen harrives hfits
  | load => exact hs.load hlen harrives hfits

/-- The states of a run. -/
def states (len : ℕ) (s : State) (calls : List Call) : List State := calls.scanl (exec len) s

theorem Matches.run {t : ℤ} {s : State} {queue : List ℤ} (hs : Matches len t s queue)
    (hpos : 1 ≤ len) (hlen : len ≤ maxSbufLen) {calls : List Call}
    (harrives : Along len Arrives t s calls) (hfits : Along len Fits t s calls) :
    waits len s calls = refWaits len queue calls ∧ ∀ u ∈ states len s calls, WellFormed len u := by
  induction calls generalizing t s queue with
  | nil =>
    refine ⟨rfl, fun u hu => ?_⟩
    rw [List.mem_singleton.1 hu]
    exact hs.wellFormed
  | cons c calls ih =>
    obtain ⟨hwait, hnext⟩ := hs.exec hpos hlen harrives.1 hfits.1
    obtain ⟨hwaits, hstates⟩ := ih hnext harrives.2 hfits.2
    refine ⟨by rw [waits, refWaits, hwait, hwaits], fun u hu => ?_⟩
    rw [states, List.scanl_cons] at hu
    rcases List.mem_cons.1 hu with rfl | hu
    · exact hs.wellFormed
    · exact hstates u hu

theorem matches_init : Matches len 0 .init [] :=
  ⟨⟨Nat.zero_le _, by decide, rfl, nofun⟩, rfl, rfl⟩

/-- **The store buffer is a queue**: if every call of a run fits, the waits are those of the queue,
and the buffer is in order throughout. -/
theorem sbuf_refines (hpos : 1 ≤ len) (hlen : len ≤ maxSbufLen) {calls : List Call}
    (harrives : Along len Arrives 0 .init calls) (hfits : Along len Fits 0 .init calls) :
    waits len .init calls = refWaits len [] calls ∧
      ∀ s ∈ states len .init calls, WellFormed len s :=
  matches_init.run hpos hlen harrives hfits

/-- Three stores into two places, and a load. -/
def storesAndLoad : List Call := [⟨0, .store 5⟩, ⟨2, .store 5⟩, ⟨3, .store 5⟩, ⟨6, .load⟩]

theorem sbuf_refines_full :
    waits 2 .init storesAndLoad = refWaits 2 [] storesAndLoad ∧
      ∀ s ∈ states 2 .init storesAndLoad, WellFormed 2 s :=
  sbuf_refines (by decide) (by decide) (by decide) (by decide)

/-- **A long pause is lost**: `2 ^ 32` cycles after a store that takes one, a load still waits. -/
theorem pause_lost :
    Along 1 Arrives 0 .init [⟨0, .store 1⟩, ⟨2 ^ 32, .load⟩] ∧
      waits 1 .init [⟨0, .store 1⟩, ⟨2 ^ 32, .load⟩] = [0, 1] ∧
      refWaits 1 [] [⟨0, .store 1⟩, ⟨2 ^ 32, .load⟩] = [0, 0] := by
  decide

/-- The third store waits for a place, and the load for what is left. -/
example : waits 2 .init storesAndLoad = [0, 0, 2, 9] := by decide

end Sbuf
end Or1ksim
