import Or1ksim.Kbd.Basic
import Or1ksim.Lib.Runs

/-!
# The stream of scan codes

* `group`, `scanDecode_eq` — the codes of a character, as they are put into the ring;
* `Stream`, `Event` — the keyboard with what has been typed and delivered so far;
* `kbd_stream` — **what has been delivered and what still waits are the whole groups of the accepted
  characters, in order**, exactly in the runs that never read with a command left over, and in which
  the ring never fills up inside a group;
* `kbd_stream_broken` — a run for each.
-/

namespace Or1ksim
namespace Kbd

/-! ### Groups -/

/-- The codes of a character: shift is pressed, the key pressed and released, and shift released. -/
def group (c : Byte) : List Byte :=
  match scanTable[c.toNat]? with
  | none => []
  | some (shift, code) =>
    if code = 0 then []
    else if shift ≠ 0 then [0x2a, code, code ||| 0x80, 0xaa]
    else [code, code ||| 0x80]

theorem scanDecode_eq (q : Fifo) (c : Byte) : scanDecode q c = (group c).foldl Fifo.kbdPut q := by
  unfold scanDecode group
  cases scanTable[c.toNat]? with
  | none => rfl
  | some p =>
    obtain ⟨shift, code⟩ := p
    dsimp only
    by_cases hcode : code = 0
    · rw [if_pos hcode, if_pos hcode]
      rfl
    · rw [if_neg hcode, if_neg hcode]
      by_cases hshift : shift ≠ 0
      · rw [if_pos hshift, if_pos hshift, if_pos hshift]
        rfl
      · rw [if_neg hshift, if_neg hshift, if_neg hshift]
        rfl

theorem contents_foldl_kbdPut (q : Fifo) (cs : List Byte) :
    (cs.foldl Fifo.kbdPut q).contents = q.contents ++ cs.take (kbdMaxBuf - q.count) := by
  induction cs generalizing q with
  | nil => rw [List.take_nil, List.append_nil]; rfl
  | cons c cs ih =>
    rw [List.foldl_cons, ih]
    by_cases hfull : kbdMaxBuf ≤ q.count
    · rw [Fifo.kbdPut_full hfull, Nat.sub_eq_zero_of_le hfull, List.take_zero, List.take_zero]
    · have hroom := Nat.lt_of_not_le hfull
      have hcount : (q.kbdPut c).count = q.count + 1 := by
        rw [← Fifo.length_contents, Fifo.contents_kbdPut hroom, List.length_append,
          Fifo.length_contents, List.length_singleton]
      obtain ⟨n, hn⟩ : ∃ n, kbdMaxBuf - q.count = n + 1 := ⟨kbdMaxBuf - q.count - 1, by omega⟩
      rw [Fifo.contents_kbdPut hroom, hcount, hn, List.take_succ_cons, List.append_assoc,
        show kbdMaxBuf - (q.count + 1) = n by omega]
      rfl

/-! ### Runs -/

/-- The keyboard, with the characters that it has accepted and the codes that it has delivered. -/
structure Stream where
  state : KbdState
  accepted : List Byte
  delivered : List Byte

/-- What happens to the keyboard. -/
inductive Event where
  /-- The job runs, with a typed character or without. -/
  | job (c : Option Byte)
  /-- The guest writes a register. -/
  | write (addr : Addr) (value : Byte)
  /-- The guest reads a register. -/
  | read (addr : Addr)
deriving DecidableEq

/-- No response is outstanding, and the status register shows `OBF`. -/
def KbdState.Shows (s : KbdState) : Prop := s.kresp = 0 ∧ s.status &&& statusObf ≠ 0

instance (s : KbdState) : Decidable s.Shows := inferInstanceAs (Decidable (_ ∧ _))

/-- An event, and what is seen of it: a character is accepted if there is room for its codes, and
bytes are delivered by reads of the data register. -/
def Stream.exec (r : Stream) : Event → Stream
  | .job none => { r with state := kbdJob r.state none }
  | .job (some c) =>
    { state := kbdJob r.state (some c)
      accepted := if r.state.fifo.count + (group c).length ≤ kbdMaxBuf then r.accepted ++ [c]
        else r.accepted
      delivered := r.delivered }
  | .write addr value => { r with state := kbdWrite8 r.state addr value }
  | .read addr =>
    { state := (kbdRead8 r.state addr).2
      accepted := r.accepted
      delivered := if addr = kbdData ∧ r.state.Shows then r.delivered ++ [(kbdRead8 r.state addr).1]
        else r.delivered }

/-- The keyboard after a reset. -/
def start (s : KbdState) : Stream := ⟨kbdReset s, [], []⟩

/-- What has been delivered and what waits in the ring are the groups of the accepted characters. -/
def Intact (r : Stream) : Prop :=
  r.delivered ++ r.state.fifo.contents = r.accepted.flatMap group

instance (r : Stream) : Decidable (Intact r) := inferInstanceAs (Decidable (_ = _))

/-- The event does not harm the stream: a character finds room for all of its codes or for none of
them, and a code is not read with a command left over. -/
def Spares (r : Stream) : Event → Prop
  | .job (some c) => r.state.fifo.count = kbdMaxBuf ∨
    r.state.fifo.count + (group c).length ≤ kbdMaxBuf
  | .job none => True
  | .write _ _ => True
  | .read addr => addr = kbdData → r.state.Shows → r.state.ccmd = 0

/-! ### Steps -/

theorem and_statusObf (s : KbdState) :
    s.status &&& statusObf ≠ 0 ↔ s.kresp ≠ 0 ∨ s.fifo.count ≠ 0 := by
  have hsys : s.ccmdbyte &&& ccmdbyteSys &&& statusObf = 0 := by
    rw [BitVec.and_assoc]
    exact BitVec.and_zero
  unfold KbdState.status
  rw [BitVec.and_comm, BitVec.and_or_distrib_left, BitVec.and_or_distrib_left,
    BitVec.and_comm statusObf (s.ccmdbyte &&& _), hsys]
  by_cases h : s.kresp ≠ 0 ∨ s.fifo.count ≠ 0
  · rw [if_pos h]
    exact ⟨fun _ => h, fun _ => by decide⟩
  · rw [if_neg h]
    exact ⟨fun h0 => absurd (by decide) h0, fun h' => absurd h' h⟩

theorem shows_iff (s : KbdState) : s.Shows ↔ s.kresp = 0 ∧ s.fifo.count ≠ 0 := by
  unfold KbdState.Shows
  rw [and_statusObf]
  exact and_congr_right fun h => ⟨fun h' => h'.resolve_left (not_not.2 h), .inr⟩

@[simp] theorem fifo_kbdJob_none (s : KbdState) : (kbdJob s none).fifo = s.fifo := by
  unfold kbdJob
  dsimp only
  split <;> rfl

@[simp] theorem fifo_kbdJob_some (s : KbdState) (c : Byte) :
    (kbdJob s (some c)).fifo = scanDecode s.fifo c := by
  unfold kbdJob
  dsimp only
  split <;> rfl

@[simp] theorem fifo_kbdWrite8 (s : KbdState) (addr : Addr) (value : Byte) :
    (kbdWrite8 s addr value).fifo = s.fifo := by
  unfold kbdWrite8
  grind

/-- Replies and responses leave the ring alone, and so do reads of an empty ring. -/
theorem fifo_kbdRead8 {s : KbdState} {addr : Addr}
    (h : addr ≠ kbdData ∨ ¬ s.Shows ∨ s.ccmd ≠ 0) : (kbdRead8 s addr).2.fifo = s.fifo := by
  rw [shows_iff] at h
  unfold kbdRead8
  grind

/-- A read that finds no command left over, and no response, takes the oldest code. -/
theorem kbdRead8_shows {s : KbdState} (hshows : s.Shows) (hccmd : s.ccmd = 0) :
    (kbdRead8 s kbdData).1 :: (kbdRead8 s kbdData).2.fifo.contents = s.fifo.contents := by
  obtain ⟨hkresp, hcount⟩ := (shows_iff s).1 hshows
  unfold kbdRead8
  rw [if_neg (show kbdData ≠ kbdCtrl by decide), if_pos rfl]
  dsimp only
  rw [if_neg (not_not.2 hccmd), if_neg (not_not.2 hkresp), dif_pos hcount]
  exact (Fifo.contents_pop hcount).symm

/-- A character keeps the stream whole if all of its codes are stored, or none. -/
theorem intact_job_some {r : Stream} (hr : Intact r) (c : Byte) :
    Intact (r.exec (.job (some c))) ↔ Spares r (.job (some c)) := by
  have hcount := r.state.fifo.count_le
  unfold Intact Stream.exec Spares
  dsimp only
  rw [fifo_kbdJob_some, scanDecode_eq, contents_foldl_kbdPut, ← List.append_assoc, hr]
  by_cases hroom : r.state.fifo.count + (group c).length ≤ kbdMaxBuf
  · rw [if_pos hroom, List.take_of_length_le (by omega), List.flatMap_append,
      List.flatMap_singleton]
    exact iff_of_true rfl (.inr hroom)
  · rw [if_neg hroom, List.append_right_eq_self, List.take_eq_nil_iff]
    constructor
    · rintro (h | h)
      · exact .inl (by omega)
      · rw [h, List.length_nil] at hroom
        exact absurd hcount hroom
    · rintro (h | h)
      · exact .inl (by omega)
      · exact absurd h hroom

/-- A read keeps the stream whole unless a command is left over that answers in place of a code. -/
theorem intact_read {r : Stream} (hr : Intact r) (addr : Addr) :
    Intact (r.exec (.read addr)) ↔ Spares r (.read addr) := by
  unfold Intact at hr
  unfold Intact Stream.exec Spares
  dsimp only
  by_cases hshows : addr = kbdData ∧ r.state.Shows
  · obtain ⟨rfl, hshow⟩ := hshows
    rw [if_pos ⟨rfl, hshow⟩, List.append_assoc, List.singleton_append]
    constructor
    · intro h _ _
      by_contra hccmd
      -- The reply is one byte more than there were codes.
      rw [fifo_kbdRead8 (.inr (.inr hccmd)), ← hr, List.append_cancel_left_eq] at h
      exact List.cons_ne_self _ _ h
    · intro h
      rw [kbdRead8_shows hshow (h rfl hshow), hr]
  · rw [if_neg hshows, fifo_kbdRead8 (by tauto)]
    exact iff_of_true hr fun haddr hshow => absurd ⟨haddr, hshow⟩ hshows

theorem intact_exec {r : Stream} (hr : Intact r) (e : Event) : Intact (r.exec e) ↔ Spares r e := by
  cases e with
  | job c =>
    cases c with
    | none =>
      refine iff_of_true ?_ trivial
      unfold Intact Stream.exec
      dsimp only
      rw [fifo_kbdJob_none]
      exact hr
    | some c => exact intact_job_some hr c
  | write addr value =>
    refine iff_of_true ?_ trivial
    unfold Intact Stream.exec
    dsimp only
    rw [fifo_kbdWrite8]
    exact hr
  | read addr => exact intact_read hr addr

theorem intact_start (s : KbdState) : Intact (start s) := rfl

/-! ### Main results -/

/-- **The stream of scan codes**: after a reset, what has been delivered and what waits are the
whole groups of the accepted characters at every point of a run, exactly if no code is read with a
command left over and every character finds room for all of its codes or for none of them. -/
theorem kbd_stream (s : KbdState) (es : List Event) :
    (∀ pre, pre <+: es → Intact (pre.foldl Stream.exec (start s))) ↔
      ∀ pre e, pre ++ [e] <+: es → Spares (pre.foldl Stream.exec (start s)) e :=
  Runs.foldl_prefix_iff (fun _ e hr => intact_exec hr e) (intact_start s)

/-- A keyboard that has just been allocated. -/
def allocated : KbdState := ⟨.empty fun _ => 0, 0, 0, 0, 0, []⟩

/-- Disabling the keyboard leaves its command behind, which answers in place of a scan code; and a
capital finds room for half of its codes behind 127 small letters. -/
theorem kbd_stream_broken :
    ¬ Intact ([.write kbdCtrl ccmdDki, .job (some 0x61), .read kbdData].foldl Stream.exec
        (start allocated)) ∧
      ¬ Intact ((List.replicate 127 (Event.job (some 0x61)) ++ [Event.job (some 0x41)]).foldl
        Stream.exec (start allocated)) := by
  decide +kernel

end Kbd
end Or1ksim
