import Mathlib.Data.Int.Order.Basic
import Mathlib.Data.List.Nodup
import Mathlib.Data.List.TakeWhile
import Or1ksim.Lib.Runs
import Or1ksim.Profiler.Basic

/-!
# Where the time goes

Unless the times are cumulative, the time of a call is taken off the times of all calls that it lies
in, by moving their starts.

* `openCalls`, `busyCycles` — the calls that are open in a trace, and the cycles with one open;
* `Conserved` — the starts are ordered, no charge is negative, and what has been charged and what is
  still to be charged add up to the busy cycles;
* `Conserved.closeFrame`, `Conserved.elapse` — a frame is closed, and time goes by;
* `time_conserved` — **no cycle is lost or charged twice**, however the returns are misaligned.
-/

namespace Or1ksim
namespace Profiler

/-! ### Traces -/

/-- The return addresses of the calls that are open after a record: a return closes the last call
with its address, together with those inside, or nothing. -/
def Record.openCalls (calls : List Word) : Record → List Word
  | .call _ raddr _ _ => raddr :: calls
  | .ret _ raddr => if raddr ∈ calls then (calls.dropWhile (· ≠ raddr)).tail else calls

/-- The number of cycles from `last` to the end of the trace with a call open. -/
def busyCycles (last : ℕ) (calls : List Word) : List Record → ℕ
  | [] => 0
  | r :: rs =>
    (if calls = [] then 0 else r.cycles.toNat - last) +
      busyCycles r.cycles.toNat (r.openCalls calls) rs

/-! ### What has been charged -/

/-- The time that the entries of a function hold. -/
def heldBy (addr : Word) (funcs : List Func) : ℤ :=
  ((funcs.filter (·.addr = addr)).map Func.cumCycles).sum

/-- The time charged to a function. -/
def chargedTo (addr : Word) (charges : List (Word × ℤ)) : ℤ :=
  ((charges.filter (·.1 = addr)).map Prod.snd).sum

/-- The time that is still to be charged to the frames on the stack, up to the last stamp. -/
def openTime (cycles : Word) (stack : List Frame) : ℤ :=
  match stack.getLast? with
  | none => 0
  | some bottom => cycles.toNat - bottom.cycles.toNat

/-- What holds after `busy` cycles with a call open. -/
structure Conserved (s : State) (busy : ℕ) : Prop where
  /-- The starts do not decrease from the bottom of the stack to its top. -/
  ordered : s.stack.Pairwise fun upper lower => lower.cycles ≤ upper.cycles
  /-- No start lies behind the last stamp. -/
  started : ∀ f ∈ s.stack, f.cycles ≤ s.cycles
  nonneg : ∀ c ∈ s.charges, 0 ≤ c.2
  distinct : (s.funcs.map Func.addr).Nodup
  held : ∀ addr, heldBy addr s.funcs = chargedTo addr s.charges
  total : (s.funcs.map Func.cumCycles).sum + openTime s.cycles s.stack = busy

theorem heldBy_cons (addr : Word) (g : Func) (gs : List Func) :
    heldBy addr (g :: gs) = (if g.addr = addr then g.cumCycles else 0) + heldBy addr gs := by
  by_cases hg : g.addr = addr
  · simp [heldBy, hg]
  · simp [heldBy, hg]

theorem chargedTo_cons (addr : Word) (c : Word × ℤ) (cs : List (Word × ℤ)) :
    chargedTo addr (c :: cs) = (if c.1 = addr then c.2 else 0) + chargedTo addr cs := by
  by_cases hc : c.1 = addr
  · simp [chargedTo, hc]
  · simp [chargedTo, hc]

theorem heldBy_chargeFunc (addr : Word) (f : Frame) (time : ℤ) (gs : List Func) :
    heldBy addr (chargeFunc f time gs) = (if f.addr = addr then time else 0) + heldBy addr gs := by
  induction gs with
  | nil => rw [chargeFunc, heldBy_cons]
  | cons g gs ih =>
    rw [chargeFunc]
    split_ifs with hg haddr haddr
    · simp only [heldBy_cons, ← hg, haddr, if_true]
      ring
    · simp only [heldBy_cons, ← hg, haddr, if_false, zero_add]
    · rw [heldBy_cons, heldBy_cons, ih, if_pos haddr]
      ring
    · rw [heldBy_cons, heldBy_cons, ih, if_neg haddr]
      ring

theorem sum_chargeFunc (f : Frame) (time : ℤ) (gs : List Func) :
    ((chargeFunc f time gs).map Func.cumCycles).sum =
      (gs.map Func.cumCycles).sum + time := by
  induction gs with
  | nil => simp [chargeFunc]
  | cons g gs ih =>
    rw [chargeFunc]
    split_ifs with hg
    · simp only [List.map_cons, List.sum_cons]
      ring
    · simp only [List.map_cons, List.sum_cons, ih]
      ring

/-- A new entry is made for a function only if it has none. -/
theorem addr_chargeFunc (f : Frame) (time : ℤ) (gs : List Func) :
    (chargeFunc f time gs).map Func.addr =
      if f.addr ∈ gs.map Func.addr then gs.map Func.addr else gs.map Func.addr ++ [f.addr] := by
  induction gs with
  | nil => rfl
  | cons g gs ih =>
    rw [chargeFunc]
    by_cases hg : f.addr = g.addr
    · simp [hg]
    · rw [if_neg hg, List.map_cons, ih]
      by_cases hmem : f.addr ∈ gs.map Func.addr
      · simp [hmem]
      · rw [if_neg hmem, if_neg]
        · rfl
        · exact fun h => (List.mem_cons.1 h).elim hg hmem

theorem nodup_chargeFunc (f : Frame) (time : ℤ) {gs : List Func}
    (hgs : (gs.map Func.addr).Nodup) : ((chargeFunc f time gs).map Func.addr).Nodup := by
  rw [addr_chargeFunc]
  split_ifs with hmem
  · exact hgs
  · refine List.nodup_append.2 ⟨hgs, List.nodup_singleton _, fun a ha b hb => ?_⟩
    rw [List.mem_singleton.1 hb]
    rintro rfl
    exact hmem ha

/-! ### Closing a frame -/

theorem selfTime_of_le {now start : Word} (h : start ≤ now) :
    selfTime now start = now.toNat - start.toNat := by
  rw [BitVec.le_def] at h
  have hsub : (now - start).toNat = now.toNat - start.toNat := BitVec.toNat_sub_of_le h
  have hnow := now.isLt
  rw [selfTime, BitVec.toInt_setWidth, hsub, Int.bmod_eq_of_le] <;> omega

/-- The start of an enclosing call moves with the time of the call, not beyond the stamp. -/
theorem toNat_shift {now : Word} {f g : Frame} (hgf : g.cycles ≤ f.cycles) (hf : f.cycles ≤ now) :
    (g.shift (now.toNat - f.cycles.toNat)).cycles.toNat =
      g.cycles.toNat + (now.toNat - f.cycles.toNat) := by
  rw [BitVec.le_def] at hgf hf
  have hnow := now.isLt
  have htime : ((now.toNat : ℤ) - f.cycles.toNat) = ((now.toNat - f.cycles.toNat : ℕ) : ℤ) := by
    omega
  rw [Frame.shift, htime, BitVec.ofInt_natCast, BitVec.toNat_add, BitVec.toNat_ofNat]
  omega

theorem warn_eq (m : Mode) (w : Warning) (s : State) :
    ∃ warnings, s.warn m w = { s with warnings } := by
  unfold State.warn
  split
  · exact ⟨s.warnings, rfl⟩
  · exact ⟨_, rfl⟩

theorem closeWarnings_eq (m : Mode) (now : Word) (found f : Frame) (above : ℕ) (s : State) :
    ∃ warnings, closeWarnings m now found f above s = { s with warnings } := by
  obtain ⟨ws, hws⟩ : ∃ warnings, (if selfTime now f.cycles < 0 then
      s.warn m (.negativeTime found.name found.raddr) else s) = { s with warnings } := by
    split
    · exact warn_eq m _ s
    · exact ⟨s.warnings, rfl⟩
  rw [closeWarnings, hws]
  split
  · obtain ⟨ws', hws'⟩ := warn_eq m (.misaligned f.name f.raddr found.name found.raddr)
      { s with warnings := ws }
    exact ⟨ws', hws'⟩
  · exact ⟨ws, rfl⟩

/-- **A frame that is closed** is charged with the cycles since its start, by which the starts of
the frames below it are moved. -/
theorem closeFrame_eq {quiet : Bool} {now : Word} {found f : Frame} {above : ℕ} {s t : State}
    {below : List Frame} (hstack : s.stack = f :: below) (hf : f.cycles ≤ now)
    (h : closeFrame ⟨quiet, false⟩ now found above s = .ok t) :
    t.stack = below.map (Frame.shift (now.toNat - f.cycles.toNat)) ∧
      t.funcs = chargeFunc f (now.toNat - f.cycles.toNat) s.funcs ∧
      t.charges = (f.addr, (now.toNat - f.cycles.toNat : ℤ)) :: s.charges ∧
      t.cycles = s.cycles := by
  have hpos : ¬selfTime now f.cycles < 0 := by
    rw [selfTime_of_le hf]
    rw [BitVec.le_def] at hf
    omega
  have htime : chargedTime ⟨quiet, false⟩ (selfTime now f.cycles) = now.toNat - f.cycles.toNat := by
    rw [chargedTime, if_neg (fun h => hpos h.2), selfTime_of_le hf]
  obtain ⟨ws, hws⟩ := closeWarnings_eq ⟨quiet, false⟩ now found f above s
  unfold closeFrame at h
  rw [hstack] at h
  simp only [hws, htime, Bool.false_eq_true, if_false] at h
  split_ifs at h
  cases h
  exact ⟨rfl, rfl, rfl, rfl⟩

theorem openTime_cons (cycles : Word) (f : Frame) (below : List Frame) :
    openTime cycles (f :: below) = cycles.toNat - (below.getLastD f).cycles.toNat := by
  rw [openTime, List.getLast?_cons, List.getLastD_eq_getLast?]

theorem Conserved.closeFrame {quiet : Bool} {found f : Frame} {above busy : ℕ} {s t : State}
    {below : List Frame} (hs : Conserved s busy) (hstack : s.stack = f :: below)
    (h : closeFrame ⟨quiet, false⟩ s.cycles found above s = .ok t) :
    Conserved t busy ∧ t.cycles = s.cycles ∧
      t.stack.map Frame.raddr = (s.stack.map Frame.raddr).tail := by
  have hstarted := hs.started
  have hordered := hs.ordered
  rw [hstack] at hstarted hordered
  have hf : f.cycles ≤ s.cycles := hstarted f List.mem_cons_self
  obtain ⟨htop, hbelow⟩ := List.pairwise_cons.1 hordered
  obtain ⟨hshift, hfuncs, hcharges, hcycles⟩ := closeFrame_eq hstack hf h
  have hmoved : ∀ g ∈ below, (g.shift (s.cycles.toNat - f.cycles.toNat)).cycles.toNat =
      g.cycles.toNat + (s.cycles.toNat - f.cycles.toNat) := fun g hg => toNat_shift (htop g hg) hf
  refine ⟨⟨?_, ?_, ?_, ?_, ?_, ?_⟩, hcycles, ?_⟩
  · rw [hshift, List.pairwise_map]
    refine hbelow.imp_of_mem fun ha hb hle => ?_
    rw [BitVec.le_def] at hle ⊢
    rw [hmoved _ ha, hmoved _ hb]
    omega
  · intro g' hg'
    rw [hshift] at hg'
    obtain ⟨g, hg, rfl⟩ := List.mem_map.1 hg'
    have hgf := htop g hg
    rw [BitVec.le_def] at hgf hf
    rw [hcycles, BitVec.le_def, hmoved g hg]
    omega
  · rw [hcharges]
    intro c hc
    rcases List.mem_cons.1 hc with rfl | hc
    · rw [BitVec.le_def] at hf
      dsimp only
      omega
    · exact hs.nonneg c hc
  · rw [hfuncs]
    exact nodup_chargeFunc f _ hs.distinct
  · intro addr
    rw [hfuncs, hcharges, heldBy_chargeFunc, chargedTo_cons, hs.held]
  · -- What the frame is charged with is no longer open: it is the bottom, or the bottom moves.
    have htotal := hs.total
    rw [hstack, openTime_cons] at htotal
    rw [hfuncs, sum_chargeFunc, hshift, hcycles, openTime]
    rcases List.eq_nil_or_concat below with rfl | ⟨init, bottom, rfl⟩
    · simp only [List.getLastD_nil] at htotal
      simp only [List.map_nil, List.getLast?_nil]
      omega
    · have hbottom := hmoved bottom (by simp)
      rw [List.concat_eq_append, List.getLastD_concat] at htotal
      rw [List.concat_eq_append, List.map_append, List.map_singleton, List.getLast?_concat]
      rw [BitVec.le_def] at hf
      dsimp only
      rw [hbottom]
      omega
  · rw [hshift, hstack, List.map_map]
    rfl

theorem Conserved.closeFrames {quiet : Bool} {found : Frame} {busy n : ℕ} {s t : State}
    (hs : Conserved s busy) (hn : n ≤ s.stack.length)
    (h : closeFrames ⟨quiet, false⟩ s.cycles found n s = .ok t) :
    Conserved t busy ∧ t.cycles = s.cycles ∧
      t.stack.map Frame.raddr = (s.stack.map Frame.raddr).drop n := by
  induction n generalizing s with
  | zero =>
    cases h
    exact ⟨hs, rfl, rfl⟩
  | succ n ih =>
    obtain ⟨u, hu, h⟩ := Runs.bind_eq_ok_iff.1 h
    obtain ⟨f, below, hstack⟩ := List.exists_cons_of_length_pos (Nat.zero_lt_of_lt hn)
    obtain ⟨hcons, hcycles, hopen⟩ := hs.closeFrame hstack hu
    have hlength := congrArg List.length hopen
    simp only [List.length_map, List.length_tail] at hlength
    rw [← hcycles] at h
    -- The stamp stays, so that the frames below are charged for nothing.
    obtain ⟨ht, hsame, hrest⟩ := ih hcons (by omega) h
    refine ⟨ht, hsame.trans hcycles, ?_⟩
    rw [hrest, hopen, List.drop_tail]

/-! ### One record -/

theorem Conserved.elapse {busy : ℕ} {s : State} (hs : Conserved s busy) {cycles : Word}
    (hle : s.cycles ≤ cycles) :
    Conserved { s with cycles }
      (busy + if s.stack.map Frame.raddr = [] then 0 else cycles.toNat - s.cycles.toNat) := by
  refine ⟨hs.ordered, fun f hf => ?_, hs.nonneg, hs.distinct, hs.held, ?_⟩
  · exact BitVec.le_trans (hs.started f hf) hle
  · have htotal := hs.total
    rw [BitVec.le_def] at hle
    cases hstack : s.stack with
    | nil =>
      rw [hstack] at htotal
      exact htotal
    | cons f below =>
      rw [hstack, openTime_cons] at htotal
      rw [openTime_cons, List.map_cons, if_neg (List.cons_ne_nil _ _)]
      dsimp only
      omega

theorem Conserved.push {busy : ℕ} {s : State} (hs : Conserved s busy) {f : Frame}
    (hf : f.cycles = s.cycles) (maxDepth ntotcalls : ℕ) :
    Conserved { s with stack := f :: s.stack, maxDepth, ntotcalls } busy := by
  refine ⟨?_, ?_, hs.nonneg, hs.distinct, hs.held, ?_⟩
  · refine List.pairwise_cons.2 ⟨fun g hg => ?_, hs.ordered⟩
    rw [hf]
    exact hs.started g hg
  · intro g hg
    rcases List.mem_cons.1 hg with rfl | hg
    · exact BitVec.le_of_eq hf
    · exact hs.started g hg
  · rw [← hs.total]
    cases hstack : s.stack with
    | nil => simp [openTime, hf]
    | cons g below => rw [openTime, List.getLast?_cons_cons, openTime]

theorem Conserved.warn {busy : ℕ} {s : State} (hs : Conserved s busy) (warnings : List Warning) :
    Conserved { s with warnings } busy :=
  ⟨hs.ordered, hs.started, hs.nonneg, hs.distinct, hs.held, hs.total⟩

/-- **One record** adds the cycles up to it if there is a call open, and opens and closes the calls
that it says. -/
theorem Conserved.exec {quiet : Bool} {busy : ℕ} {s t : State} (hs : Conserved s busy) {r : Record}
    (hle : s.cycles ≤ r.cycles) (h : exec ⟨quiet, false⟩ s r = .ok t) :
    Conserved t (busy + if s.stack.map Frame.raddr = [] then 0 else
        r.cycles.toNat - s.cycles.toNat) ∧
      t.cycles = r.cycles ∧ t.stack.map Frame.raddr = r.openCalls (s.stack.map Frame.raddr) := by
  have helapsed := hs.elapse hle
  cases r with
  | call cycles raddr addr name =>
    rw [Profiler.exec] at h
    split_ifs at h
    cases h
    exact ⟨helapsed.push rfl _ _, rfl, rfl⟩
  | ret cycles raddr =>
    rw [Profiler.exec] at h
    dsimp only at h
    have hdrop : (s.stack.map Frame.raddr).dropWhile (fun a => decide (a ≠ raddr)) =
        (s.stack.dropWhile fun f => decide (f.raddr ≠ raddr)).map Frame.raddr := by
      rw [List.dropWhile_map]
      rfl
    split at h
    case h_1 found below hfound =>
      obtain ⟨above, happend⟩ : ∃ above, s.stack = above ++ found :: below := by
        rw [← hfound]
        exact ⟨_, List.takeWhile_append_dropWhile.symm⟩
      have hcount : s.stack.length - below.length = above.length + 1 := by
        rw [happend, List.length_append, List.length_cons]
        omega
      obtain ⟨ht, hcycles, hopen⟩ := helapsed.closeFrames (Nat.sub_le _ _) h
      have hmem : raddr ∈ s.stack.map Frame.raddr := by
        by_contra hnot
        have hnil := (List.dropWhile_eq_nil_iff (p := fun a => decide (a ≠ raddr))).2 fun a ha =>
          decide_eq_true fun heq => hnot (heq ▸ ha)
        rw [hdrop, hfound] at hnil
        exact absurd hnil (List.cons_ne_nil _ _)
      refine ⟨ht, hcycles, ?_⟩
      rw [hopen, Record.openCalls, if_pos hmem, hdrop, hfound, hcount]
      simp [happend, List.drop_append]
    case h_2 hfound =>
      cases h
      have hnot : raddr ∉ s.stack.map Frame.raddr := by
        intro hmem
        rw [hfound, List.map_nil] at hdrop
        have hall := List.dropWhile_eq_nil_iff.1 hdrop raddr hmem
        exact absurd rfl (of_decide_eq_true hall)
      obtain ⟨ws, hws⟩ := warn_eq ⟨quiet, false⟩ (.notFound raddr) { s with cycles }
      rw [hws, Record.openCalls, if_neg hnot]
      exact ⟨helapsed.warn ws, rfl, rfl⟩

/-! ### The trace -/

theorem conserved_init : Conserved .init 0 :=
  ⟨.nil, nofun, nofun, List.nodup_nil, fun _ => rfl, rfl⟩

theorem Conserved.profAcquire {quiet : Bool} {busy : ℕ} {s t : State} {records : List Record}
    (hs : Conserved s busy) (hfirst : ∀ r ∈ records, s.cycles ≤ r.cycles)
    (hstamps : records.Pairwise fun r r' => r.cycles ≤ r'.cycles)
    (h : profAcquire ⟨quiet, false⟩ s records = .ok t) :
    Conserved t (busy + busyCycles s.cycles.toNat (s.stack.map Frame.raddr) records) ∧
      t.cycles = (records.map Record.cycles).getLastD s.cycles := by
  induction records generalizing s busy with
  | nil =>
    cases h
    exact ⟨hs, rfl⟩
  | cons r rs ih =>
    -- The return addresses that are open after a record depend on the trace alone.
    obtain ⟨u, hu, h⟩ := Runs.foldlM_cons_eq_ok_iff.1 h
    obtain ⟨hle, hrest⟩ := List.pairwise_cons.1 hstamps
    obtain ⟨hcons, hcycles, hopen⟩ := hs.exec (hfirst r List.mem_cons_self) hu
    obtain ⟨ht, hlast⟩ := ih hcons (by rwa [hcycles]) hrest h
    rw [hcycles, hopen] at ht
    rw [busyCycles, ← Nat.add_assoc]
    refine ⟨ht, ?_⟩
    rw [hlast, hcycles, List.map_cons, List.getLastD_cons]

/-- **The time is conserved**: after every record of a trace with ordered stamps the starts on the
stack are ordered and none lies behind the last stamp, no charge has been negative, and the charges
and the cycles since the start of the lowest frame add up to the cycles with a call open. -/
theorem time_conserved (quiet : Bool) {records : List Record} {s : State}
    (hstamps : records.Pairwise fun r r' => r.cycles ≤ r'.cycles)
    (hrun : profAcquire ⟨quiet, false⟩ .init records = .ok s) :
    ∀ pre, pre <+: records → ∃ t, profAcquire ⟨quiet, false⟩ .init pre = .ok t ∧
      Conserved t (busyCycles 0 [] pre) ∧ t.cycles = (pre.map Record.cycles).getLastD 0 ∧
      (t.stack = [] → (t.funcs.map Func.cumCycles).sum = busyCycles 0 [] pre) := by
  rintro pre ⟨post, rfl⟩
  obtain ⟨t, ht, -⟩ := Runs.foldlM_append_eq_ok_iff.1 hrun
  have hzero : ∀ r ∈ pre, State.init.cycles ≤ r.cycles := fun r _ => BitVec.le_def.2 (Nat.zero_le _)
  obtain ⟨hcons, hlast⟩ := conserved_init.profAcquire hzero (List.pairwise_append.1 hstamps).1 ht
  rw [Nat.zero_add] at hcons
  refine ⟨t, ht, hcons, hlast, fun hempty => ?_⟩
  have htotal := hcons.total
  rwa [hempty, openTime, List.getLast?_nil, add_zero] at htotal

/-- Two calls inside a third, of which a misaligned return closes the outer two. -/
def nestedTrace : List Record :=
  [.call 10 1 100 [], .call 12 2 200 [], .call 15 3 300 [], .ret 20 2, .ret 30 9, .ret 31 1]

theorem time_conserved_nested :
    nestedTrace.Pairwise (fun r r' => r.cycles ≤ r'.cycles) ∧
    ∀ pre, pre <+: nestedTrace → ∃ t, profAcquire ⟨false, false⟩ .init pre = .ok t ∧
      Conserved t (busyCycles 0 [] pre) ∧ t.cycles = (pre.map Record.cycles).getLastD 0 ∧
      (t.stack = [] → (t.funcs.map Func.cumCycles).sum = busyCycles 0 [] pre) := by
  refine ⟨by decide, time_conserved false (by decide) (s := ⟨[], [⟨300, [], 5, 1⟩, ⟨200, [], 3, 1⟩,
    ⟨100, [], 13, 1⟩], 31, 3, 3, 3, [.notFound 9, .misaligned [] 3 [] 2],
    [(100, 13), (200, 3), (300, 5)]⟩) ?_⟩
  decide

end Profiler
end Or1ksim
