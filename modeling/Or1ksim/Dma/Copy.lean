import Or1ksim.Dma.Jobs
import Or1ksim.Memory.Area

/-!
# What a DMA transfer copies

A channel without descriptors, automatic restart, handshake and stop, and the memory it works on.

* `Machine`, `clock`, `clocks` — the clocks of a channel over a memory;
* `Program` — what software writes into the registers of the channel;
* `copyWords` — the copies that are asked for, one word after the other;
* `clocks_of_idle` — **`n` clocks make the `n` copies and end the transfer**;
* `copy_iff` — they do so for every program exactly when the channel is not busy beforehand.
-/

namespace Or1ksim

namespace Memory

/-- `set_direct32` without MMU and data cache: unaligned and unmapped writes are ignored. -/
def setDirect32 (M : Memory) (a : Addr) (v : Word) : Memory :=
  if a &&& 3#32 ≠ 0#32 then M else (M.setsimMem a v .w4).getD M

theorem areas_setDirect32 (M : Memory) (a : Addr) (v : Word) :
    (M.setDirect32 a v).areas = M.areas := by
  unfold setDirect32 setsimMem
  split
  · rfl
  · cases M.verifyMemoryarea a <;> rfl

theorem wordAt_setDirect32 {M : Memory} {a : Addr} (h : M.Ram a) (ha : a.toNat % 4 = 0) (v : Word)
    (b : Addr) :
    wordAt (M.setDirect32 a v).bytes b =
      if wordBase b = wordBase a then v else wordAt M.bytes b := by
  obtain ⟨r, hr, -, hwrite⟩ := h
  have hbytes : (M.setDirect32 a v).bytes = simmemWrite32 M.bytes a v := by
    rw [setDirect32, if_neg (not_not.2 (and_three_eq_zero.2 ha)), setsimMem, hr]
    simp [writefunc, hwrite]
  rw [hbytes, wordAt_simmemWrite32 _ ha]

end Memory

namespace Dma

open Bits

/-! ### Clocks over a memory -/

/-- The controller and the memory. -/
structure Machine where
  dma : State
  mem : Memory

/-- The queue that a clock of the channel is called with, which takes another job. -/
structure Ready (c : ChannelNo) where
  queue : Sched.Queue ChannelNo
  room : (Sched.schedAdd queue (.job c) () 1).isSome = true

/-- The memory with the word copied that the channel has come to. -/
def copied (mem : Memory) (ch : Channel) : Memory :=
  mem.setDirect32 ch.destination (mem.evalDirect32 ch.source)

/-- The controller with the queue that a clock finds. -/
def State.onQueue (s : State) (q : Sched.Queue ChannelNo) : State := { s with sched := q }

/-- One call of `dma_channel_clock`. -/
def clock (c : ChannelNo) (q : Ready c) (m : Machine) : Except Stop Machine :=
  let after := copied m.mem (begun m.mem.evalDirect32 (m.dma.ch c))
  (dmaChannelClock ⟨m.mem.evalDirect32, after.evalDirect32⟩ c (m.dma.onQueue q.queue)).map fun s =>
    ⟨s, if m.dma.stored.length < s.stored.length then after else m.mem⟩

/-- A number of calls; whatever else happens to the queue in between. -/
def clocks (c : ChannelNo) (qs : ℕ → Ready c) (m : Machine) : ℕ → Except Stop Machine
  | 0 => .ok m
  | k + 1 => clocks c qs m k >>= clock c (qs k)

/-! ### Programs -/

/-- What is written into the registers for a transfer of `n` words. -/
structure Program (n : ℕ) where
  csr : Word
  sz : Word
  a0 : Word
  am0 : Word
  a1 : Word
  am1 : Word
  enabled : csr.getLsbD csrCHEN = true
  plain : ∀ k ∈ [csrUSEED, csrARS, csrMODE, csrSTOP], csr.getLsbD k = false
  size : (sz.extractLsb' 0 12).toNat = n
  pos : 1 ≤ n
  aligned : a0.toNat % 4 = 0 ∧ a1.toNat % 4 = 0
  maskAligned : am0.toNat % 4 = 0 ∧ am1.toNat % 4 = 0

/-- The channel with its registers written. -/
def Program.load {n : ℕ} (p : Program n) (ch : Channel) : Channel :=
  csrWritten p.csr
    { ch with sz := p.sz, a0 := p.a0, am0 := p.am0, a1 := p.a1, am1 := p.am1 }

/-- The address mask of an address that moves if the flag is set. -/
def Program.mask {n : ℕ} (p : Program n) (inc : ℕ) (am : Word) : Word :=
  if p.csr.getLsbD inc then am else 0

/-- The source of the `k`-th word. -/
def Program.source {n : ℕ} (p : Program n) (k : ℕ) : Addr :=
  (fun a => maskedIncrease a (p.mask csrINCSRC p.am0))^[k] p.a0

/-- The destination of the `k`-th word. -/
def Program.destination {n : ℕ} (p : Program n) (k : ℕ) : Addr :=
  (fun a => maskedIncrease a (p.mask csrINCDST p.am1))^[k] p.a1

/-- All the words lie in RAM. -/
def Program.InRam {n : ℕ} (p : Program n) (mem : Memory) : Prop :=
  ∀ k < n, mem.Ram (p.source k) ∧ mem.Ram (p.destination k)

/-- One copy, in a memory given by its words. -/
def copyWord (src dst : Addr) (f : Addr → Word) (a : Addr) : Word :=
  if wordBase a = wordBase dst then f src else f a

/-- The first `k` copies, one after the other. -/
def copyWords (src dst : ℕ → Addr) (f : Addr → Word) : ℕ → Addr → Word
  | 0 => f
  | k + 1 => copyWord (src k) (dst k) (copyWords src dst f k)

/-- The machine after the `n` clocks of a transfer: the copies are made, and the channel is done. -/
structure Copied {n : ℕ} (p : Program n) (c : ChannelNo) (mem : Memory) (m : Machine) : Prop where
  areas : m.mem.areas = mem.areas
  words : wordAt m.mem.bytes = copyWords p.source p.destination (wordAt mem.bytes) n
  chEn : (m.dma.ch c).flag csrCHEN = false
  busy : (m.dma.ch c).flag csrBUSY = false
  done : (m.dma.ch c).flag csrDONE = true

/-- The program does what it is meant to from a state of the controller on, in exactly `n`
clocks. -/
def Program.Works {n : ℕ} (p : Program n) (c : ChannelNo) (s : State) : Prop :=
  ∀ mem, p.InRam mem → ∀ qs,
    (∀ k < n, ∃ m, clocks c qs ⟨s.setCh c (p.load (s.ch c)), mem⟩ k = .ok m ∧
      (m.dma.ch c).flag csrCHEN = true) ∧
    ∃ m, clocks c qs ⟨s.setCh c (p.load (s.ch c)), mem⟩ n = .ok m ∧ Copied p c mem m

variable {n k : ℕ} {p : Program n} {c : ChannelNo} {s t : State} {ch : Channel} {mem : Memory}
  {w : World}

/-! ### The addresses -/

theorem maskedIncrease_aligned {value mask : Word} (hvalue : value.toNat % 4 = 0)
    (hmask : mask.toNat % 4 = 0) : (maskedIncrease value mask).toNat % 4 = 0 := by
  have hv := and_three_eq_zero.2 hvalue
  have hm := and_three_eq_zero.2 hmask
  rw [← and_three_eq_zero]
  have hleft : (value &&& ~~~mask) &&& 3#32 = 0#32 := by
    rw [BitVec.and_assoc, BitVec.and_comm (~~~mask), ← BitVec.and_assoc, hv, BitVec.zero_and]
  have hright : ((value + 4) &&& mask) &&& 3#32 = 0#32 := by
    rw [BitVec.and_assoc, hm, BitVec.and_zero]
  rw [maskedIncrease, BitVec.and_or_distrib_right, hleft, hright, BitVec.or_zero]

theorem iterate_aligned {a mask : Word} (ha : a.toNat % 4 = 0) (hmask : mask.toNat % 4 = 0)
    (k : ℕ) : ((fun v => maskedIncrease v mask)^[k] a).toNat % 4 = 0 := by
  induction k with
  | zero => exact ha
  | succ k ih =>
    rw [Function.iterate_succ_apply']
    exact maskedIncrease_aligned ih hmask

theorem Program.mask_aligned (p : Program n) (inc : ℕ) {am : Word} (ham : am.toNat % 4 = 0) :
    (p.mask inc am).toNat % 4 = 0 := by
  unfold Program.mask
  split
  · exact ham
  · rfl

theorem Program.source_aligned (p : Program n) (k : ℕ) : (p.source k).toNat % 4 = 0 :=
  iterate_aligned p.aligned.1 (p.mask_aligned _ p.maskAligned.1) k

theorem Program.destination_aligned (p : Program n) (k : ℕ) : (p.destination k).toNat % 4 = 0 :=
  iterate_aligned p.aligned.2 (p.mask_aligned _ p.maskAligned.2) k

theorem wordAt_copied (hsrc : mem.Ram ch.source) (hdst : mem.Ram ch.destination)
    (hsrcAligned : ch.source.toNat % 4 = 0) (hdstAligned : ch.destination.toNat % 4 = 0) :
    wordAt (copied mem ch).bytes = copyWord ch.source ch.destination (wordAt mem.bytes) := by
  funext a
  rw [copied, Memory.wordAt_setDirect32 hdst hdstAligned,
    Memory.evalDirect32_of_ram hsrc hsrcAligned, copyWord]

/-! ### Writing the registers -/

/-- The address of a register of a channel. -/
def chReg (c : ChannelNo) (offset : ℕ) : ℕ := dmaChBase + c * dmaChSize + offset

/-- The writes that program the channel, the one that enables it at the end. -/
def Program.writes (p : Program n) (c : ChannelNo) : List (ℕ × Word) :=
  [(chReg c 0x04, p.sz), (chReg c 0x08, p.a0), (chReg c 0x0c, p.am0), (chReg c 0x10, p.a1),
    (chReg c 0x14, p.am1), (chReg c 0x00, p.csr)]

theorem dmaWrite32_chReg {offset : ℕ} (hlt : offset < dmaChSize) (value : Word) :
    dmaWrite32 (chReg c offset) value s =
      if offset = 0 then dmaWriteChCsr value c s
      else .ok (s.setCh c (setChReg (s.ch c) value offset)) := by
  have hsub : chReg c offset - dmaChBase = dmaChSize * c + offset := by
    rw [chReg, Nat.mul_comm (c : ℕ), Nat.add_assoc, Nat.add_sub_cancel_left]
  have hdiv : (chReg c offset - dmaChBase) / dmaChSize = c := by
    rw [hsub, Nat.mul_add_div (by decide), Nat.div_eq_of_lt hlt, Nat.add_zero]
  have hmod : (chReg c offset - dmaChBase) % dmaChSize = offset := by
    rw [hsub, Nat.mul_add_mod, Nat.mod_eq_of_lt hlt]
  have hat : channelAt (chReg c offset) = some c := by
    unfold channelAt
    rw [dif_pos (by rw [hdiv]; exact c.2)]
    exact congrArg some (Fin.ext hdiv)
  have hge : ¬chReg c offset < dmaChBase :=
    Nat.not_lt.2 (by rw [chReg, Nat.add_assoc]; exact Nat.le_add_right _ _)
  unfold dmaWrite32
  rw [if_neg hge, hat]
  dsimp only
  rw [hmod]

theorem setCh_setCh (s : State) (c : ChannelNo) (ch ch' : Channel) :
    (s.setCh c ch).setCh c ch' = s.setCh c ch' := by
  simp only [State.setCh, Function.update_idem]

/-- A write of the control and status register, whatever it does to the queue. -/
theorem dmaWriteChCsr_eq {value : Word} (h : dmaWriteChCsr value c s = .ok t) :
    t = (s.setCh c (csrWritten value (s.ch c))).onQueue t.sched := by
  obtain ⟨u, hu, h⟩ := Runs.bind_eq_ok_iff.1 h
  obtain rfl := Except.ok.inj h
  have hsched : ∃ q, u = s.onQueue q := by
    unfold switchClock at hu
    split at hu
    · obtain ⟨q, -, rfl⟩ := withSched_eq_ok hu
      exact ⟨q, rfl⟩
    · split at hu
      · obtain ⟨q, -, rfl⟩ := withSched_eq_ok hu
        exact ⟨q, rfl⟩
      · cases hu
        exact ⟨s.sched, rfl⟩
  obtain ⟨q, rfl⟩ := hsched
  rfl

theorem load_eq (p : Program n) (ch : Channel) :
    p.load ch = csrWritten p.csr
      (setChReg (setChReg (setChReg (setChReg (setChReg ch p.sz 0x04) p.a0 0x08) p.am0 0x0c)
        p.a1 0x10) p.am1 0x14) := by
  simp only [Program.load, setChReg]

/-- The writes leave the registers of the program in the channel. -/
theorem foldlM_writes (h : (p.writes c).foldlM (fun s w => dmaWrite32 w.1 w.2 s) s = .ok t) :
    t = (s.setCh c (p.load (s.ch c))).onQueue t.sched := by
  have hset : ∀ {offset : ℕ}, offset < dmaChSize → offset ≠ 0 → ∀ (v : Word) (u : State)
      (f : State → Except Stop State), (dmaWrite32 (chReg c offset) v u >>= f) =
        f (u.setCh c (setChReg (u.ch c) v offset)) := fun hlt hne v u f => by
    rw [dmaWrite32_chReg hlt, if_neg hne]
    rfl
  simp only [Program.writes, List.foldlM_cons, List.foldlM_nil, bind_pure] at h
  simp only [hset (by decide : 0x04 < dmaChSize) (by decide),
    hset (by decide : 0x08 < dmaChSize) (by decide),
    hset (by decide : 0x0c < dmaChSize) (by decide),
    hset (by decide : 0x10 < dmaChSize) (by decide),
    hset (by decide : 0x14 < dmaChSize) (by decide), setCh_self, setCh_setCh] at h
  rw [dmaWrite32_chReg (by decide), if_pos rfl] at h
  have hlast := dmaWriteChCsr_eq h
  rwa [setCh_self, setCh_setCh, ← load_eq] at hlast

/-- The queue that was there before does not matter to a clock. -/
theorem clock_onQueue (q : Ready c) (q' : Sched.Queue ChannelNo) :
    clock c q ⟨s.onQueue q', mem⟩ = clock c q ⟨s, mem⟩ := rfl

/-- After the writes a channel is clocked as it is with the registers of the program in it. -/
theorem clocks_written (h : (p.writes c).foldlM (fun s w => dmaWrite32 w.1 w.2 s) s = .ok t)
    (mem : Memory) (qs : ℕ → Ready c) (k : ℕ) :
    clocks c qs ⟨t, mem⟩ (k + 1) = clocks c qs ⟨s.setCh c (p.load (s.ch c)), mem⟩ (k + 1) := by
  induction k with
  | zero =>
    rw [foldlM_writes h]
    exact clock_onQueue (qs 0) t.sched
  | succ k ih => rw [clocks, ih, ← clocks]

/-! ### The end of a transfer -/

theorem stored_raiseInt (ine int : ℕ) (c : ChannelNo) (s : State) :
    (raiseInt ine int c s).stored = s.stored := by
  unfold raiseInt
  split <;> rfl

theorem stored_terminateTransfer {gen : Bool} {after : Word → Word}
    (h : terminateTransfer after gen c s = .ok t) : t.stored = s.stored := by
  unfold terminateTransfer at h
  split at h
  · obtain ⟨q, -, rfl⟩ := withSched_eq_ok h
    rfl
  · split at h
    · cases h
      rfl
    · cases h
      split
      · exact stored_raiseInt _ _ _ _
      · rfl

theorem stored_transferWord (h : transferWord w c s = .ok t) :
    t.stored = ((s.ch c).destination, w.before (s.ch c).source) :: s.stored := by
  unfold transferWord at h
  dsimp only at h
  split at h
  · cases h
  · split at h
    · exact stored_terminateTransfer h
    · split at h
      · exact stored_terminateTransfer h
      · obtain ⟨q, -, rfl⟩ := withSched_eq_ok h
        rfl

theorem flag_markDone_done (ch : Channel) : (markDone ch).flag csrDONE = true := by
  simp only [markDone, Channel.flag, getLsbD_clearBit, getLsbD_setBit]
  simp [csrBUSY, csrDONE, csrERR]

/-- A transfer that neither goes on with a descriptor nor restarts is marked as done. -/
theorem terminateTransfer_done {after : Word → Word}
    (hload : (s.ch c).loadNextDescriptorWhenDone = false) (hars : (s.ch c).flag csrARS = false) :
    ∃ t, terminateTransfer after true c s = .ok t ∧ (t.ch c).flag csrCHEN = false ∧
      (t.ch c).flag csrBUSY = false ∧ (t.ch c).flag csrDONE = true := by
  unfold terminateTransfer
  rw [hload, hars, if_neg Bool.false_ne_true, if_neg Bool.false_ne_true]
  obtain ⟨-, -, hflag⟩ := raiseInt_same csrINEDONE csrINTDONE
    (s.setCh c (markDone (writeBack (s.ch c)))) c
  obtain ⟨hen, hbusy⟩ := flag_markDone (writeBack (s.ch c))
  refine ⟨_, rfl, ?_, ?_, ?_⟩
  · exact (hflag _ (by decide)).trans ((congrArg (Channel.flag · _) (setCh_self s c _)).trans hen)
  · exact (hflag _ (by decide)).trans ((congrArg (Channel.flag · _) (setCh_self s c _)).trans hbusy)
  · exact (hflag _ (by decide)).trans
      ((congrArg (Channel.flag · _) (setCh_self s c _)).trans (flag_markDone_done _))

/-! ### A clock of a plain channel -/

/-- The channel uses no descriptors, no automatic restart, no handshake, and is not stopped. -/
def Plain (ch : Channel) : Prop :=
  ∀ k ∈ [csrUSEED, csrARS, csrMODE, csrSTOP], ch.flag k = false

theorem plain_begun {before : Word → Word} (h : Plain ch) :
    Plain (begun before ch) := fun k hk => by
  rw [flag_begun, h k hk]
  all_goals
    simp only [List.mem_cons, List.not_mem_nil, or_false] at hk ⊢
    rcases hk with rfl | rfl | rfl | rfl <;> decide

theorem dmaChannelClock_plain (h : Plain (s.ch c)) :
    dmaChannelClock w c s = transferWord w c (s.setCh c (begun w.before (s.ch c))) := by
  have hnd : (begun w.before (s.ch c)).ndI = false := by
    rw [Channel.ndI, plain_begun h csrMODE (by decide), Bool.false_and, Bool.false_and]
  rw [dmaChannelClock, h csrSTOP (by decide), h csrMODE (by decide)]
  simp [setCh_self, hnd]

theorem mem_clock_plain {q : Ready c} {m m' : Machine} (h : Plain (m.dma.ch c))
    (hrun : clock c q m = .ok m') :
    m'.mem = copied m.mem (begun m.mem.evalDirect32 (m.dma.ch c)) := by
  obtain ⟨u, hu, rfl⟩ := Runs.map_eq_ok_iff.1 hrun
  rw [dmaChannelClock_plain (s := m.dma.onQueue q.queue) h] at hu
  have hstored := stored_transferWord hu
  exact if_pos (by rw [hstored]; exact Nat.lt_succ_self _)

/-- The channel is in a transfer of the program, with `k` of its words transferred. -/
structure Underway (p : Program n) (k : ℕ) (ch : Channel) : Prop where
  plain : Plain ch
  enabled : ch.flag csrCHEN = true
  busy : ch.flag csrBUSY = true
  last : ch.loadNextDescriptorWhenDone = false
  source : ch.source = p.source k
  destination : ch.destination = p.destination k
  sourceMask : ch.sourceMask = p.mask csrINCSRC p.am0
  destinationMask : ch.destinationMask = p.mask csrINCDST p.am1
  total : ch.totalSize = n
  chunk : ch.chunkSize ≠ 0
  words : ch.wordsTransferred = k

theorem begun_of_busy (before : Word → Word) (h : ch.flag csrBUSY = true) : begun before ch = ch :=
  if_pos h

theorem Underway.advance (h : Underway p k ch) : Underway p (k + 1) (advance ch) where
  plain := h.plain
  enabled := h.enabled
  busy := h.busy
  last := h.last
  source := by
    rw [Program.source, Function.iterate_succ_apply', ← Program.source, ← h.source, ← h.sourceMask]
    rfl
  destination := by
    rw [Program.destination, Function.iterate_succ_apply', ← Program.destination, ← h.destination,
      ← h.destinationMask]
    rfl
  sourceMask := h.sourceMask
  destinationMask := h.destinationMask
  total := h.total
  chunk := h.chunk
  words := congrArg (· + 1) h.words

/-- The flags that software may write are those of the program. -/
theorem flag_load {k : ℕ} (ch : Channel) (hk : csrWriteMask.getLsbD k = true) :
    (p.load ch).flag k = p.csr.getLsbD k := by
  have hlt : k < 32 := BitVec.lt_of_getLsbD hk
  simp [Program.load, csrWritten, Channel.flag, hk]

theorem plain_load (p : Program n) (ch : Channel) : Plain (p.load ch) := fun k hk => by
  rw [flag_load _ (by
    simp only [List.mem_cons, List.not_mem_nil, or_false] at hk
    rcases hk with rfl | rfl | rfl | rfl <;> decide), p.plain k hk]

theorem chEn_load (p : Program n) (ch : Channel) : (p.load ch).flag csrCHEN = true := by
  rw [flag_load _ (by decide), p.enabled]

/-- The first cycle changes the flags of the progress only. -/
theorem startFlags {k : ℕ} (csr : Word) (hk : k ∉ [csrDONE, csrERR, csrBUSY]) :
    (setBit (clearBit (clearBit csr csrDONE) csrERR) csrBUSY).getLsbD k = csr.getLsbD k := by
  simp only [List.mem_cons, List.not_mem_nil, or_false, not_or] at hk
  simp [hk]

theorem begun_of_idle (before : Word → Word) (hidle : ch.flag csrBUSY = false)
    (hdesc : ch.flag csrUSEED = false) :
    begun before ch = dmaInitTransfer
      { ch with
        csr := setBit (clearBit (clearBit ch.csr csrDONE) csrERR) csrBUSY
        loadNextDescriptorWhenDone := false } := by
  have hkeep : Channel.flag
      { ch with csr := setBit (clearBit (clearBit ch.csr csrDONE) csrERR) csrBUSY } csrUSEED =
        false := (startFlags ch.csr (by decide)).trans hdesc
  unfold begun startTransfer
  rw [if_neg (by rw [hidle]; exact Bool.false_ne_true)]
  dsimp only
  rw [if_neg (by rw [hkeep]; exact Bool.false_ne_true)]

theorem chunkSize_dmaInitTransfer_ne (h : (ch.sz.extractLsb' 0 12).toNat ≠ 0) :
    (dmaInitTransfer ch).chunkSize ≠ 0 := by
  simp only [dmaInitTransfer]
  split <;> omega

/-- A channel that is not busy begins the transfer of its program. -/
theorem underway_begun {before : Word → Word} (p : Program n) (h : ch.flag csrBUSY = false) :
    Underway p 0 (begun before (p.load ch)) := by
  have hidle : (p.load ch).flag csrBUSY = false := (flag_csrWritten_busy _ _).trans h
  have hplain := plain_load p ch
  have hform := begun_of_idle before hidle (hplain csrUSEED (by decide))
  have hmask : ∀ k, csrWriteMask.getLsbD k = true → k ∉ [csrDONE, csrERR, csrBUSY] → ∀ am,
      (if (setBit (clearBit (clearBit (p.load ch).csr csrDONE) csrERR) csrBUSY).getLsbD k then am
        else 0) = p.mask k am := fun k hwrite hk am => by
    rw [startFlags _ hk, ← Channel.flag, flag_load _ hwrite, Program.mask]
  have hsize : ((p.load ch).sz.extractLsb' 0 12).toNat = n := p.size
  exact {
    plain := plain_begun hplain
    enabled := (flag_begun (by decide) (by decide)).trans (chEn_load p ch)
    busy := by
      rw [hform, flag_dmaInitTransfer, Channel.flag, getLsbD_setBit]
      exact Bool.or_eq_true_iff.2 (.inr rfl)
    last := by rw [hform]; rfl
    source := by rw [hform]; rfl
    destination := by rw [hform]; rfl
    sourceMask := by
      rw [hform]
      exact hmask csrINCSRC (by decide) (by decide) p.am0
    destinationMask := by
      rw [hform]
      exact hmask csrINCDST (by decide) (by decide) p.am1
    total := by rw [hform]; exact hsize
    chunk := by
      have hpos := p.pos
      rw [hform]
      exact chunkSize_dmaInitTransfer_ne (by dsimp only; omega)
    words := by rw [hform]; rfl }

/-! ### Runs -/

theorem ndI_of_plain (h : Plain ch) : ch.ndI = false := by
  rw [Channel.ndI, h csrMODE (by decide), Bool.false_and, Bool.false_and]

theorem transferWord_of_lt (h : Underway p k (s.ch c)) (hlt : k + 1 < n)
    (hroom : (Sched.schedAdd s.sched (.job c) () 1).isSome = true) :
    ∃ t, transferWord w c s = .ok t ∧ t.ch c = advance (s.ch c) := by
  obtain ⟨q, hq⟩ := Option.isSome_iff_exists.1 hroom
  unfold transferWord
  dsimp only
  rw [if_neg h.chunk, ndI_of_plain h.plain, if_neg Bool.false_ne_true, h.total, h.words,
    if_neg (by omega), State.schedAdd]
  refine ⟨_, congrArg (State.withSched _) hq, ?_⟩
  exact setCh_self s c _

theorem transferWord_of_eq (h : Underway p k (s.ch c)) (heq : k + 1 = n) :
    ∃ t, transferWord w c s = .ok t ∧ (t.ch c).flag csrCHEN = false ∧
      (t.ch c).flag csrBUSY = false ∧ (t.ch c).flag csrDONE = true := by
  unfold transferWord
  dsimp only
  rw [if_neg h.chunk, ndI_of_plain h.plain, if_neg Bool.false_ne_true, h.total, h.words,
    if_pos (by omega)]
  refine terminateTransfer_done ?_ ?_
  · exact (congrArg Channel.loadNextDescriptorWhenDone (setCh_self s c _)).trans h.last
  · exact (congrArg (Channel.flag · csrARS) (setCh_self s c _)).trans (h.plain csrARS (by decide))

theorem clock_of_lt {q : Ready c} {m : Machine}
    (h : Underway p k (begun m.mem.evalDirect32 (m.dma.ch c))) (hplain : Plain (m.dma.ch c))
    (hlt : k + 1 < n) :
    ∃ m', clock c q m = .ok m' ∧ Underway p (k + 1) (m'.dma.ch c) := by
  rw [clock, dmaChannelClock_plain (s := m.dma.onQueue q.queue) hplain]
  set s := (m.dma.onQueue q.queue).setCh c (begun m.mem.evalDirect32 (m.dma.ch c)) with hs
  have hch : s.ch c = begun m.mem.evalDirect32 (m.dma.ch c) := setCh_self _ c _
  obtain ⟨t, ht, hadvance⟩ := transferWord_of_lt (s := s) (by rwa [hch]) hlt q.room
  refine ⟨_, congrArg (Except.map _) ht, ?_⟩
  change Underway p (k + 1) (t.ch c)
  rw [hadvance, hch]
  exact h.advance

theorem clock_of_eq {q : Ready c} {m : Machine}
    (h : Underway p k (begun m.mem.evalDirect32 (m.dma.ch c))) (hplain : Plain (m.dma.ch c))
    (heq : k + 1 = n) :
    ∃ m', clock c q m = .ok m' ∧ (m'.dma.ch c).flag csrCHEN = false ∧
      (m'.dma.ch c).flag csrBUSY = false ∧ (m'.dma.ch c).flag csrDONE = true := by
  rw [clock, dmaChannelClock_plain (s := m.dma.onQueue q.queue) hplain]
  set s := (m.dma.onQueue q.queue).setCh c (begun m.mem.evalDirect32 (m.dma.ch c)) with hs
  have hch : s.ch c = begun m.mem.evalDirect32 (m.dma.ch c) := setCh_self _ c _
  obtain ⟨t, ht, hdone⟩ := transferWord_of_eq (s := s) (by rwa [hch]) heq
  exact ⟨_, congrArg (Except.map _) ht, hdone⟩

theorem wordAt_clock {q : Ready c} {m m' : Machine}
    (h : Underway p k (begun m.mem.evalDirect32 (m.dma.ch c))) (hplain : Plain (m.dma.ch c))
    (hsrc : m.mem.Ram (p.source k)) (hdst : m.mem.Ram (p.destination k))
    (hrun : clock c q m = .ok m') :
    m'.mem.areas = m.mem.areas ∧
      wordAt m'.mem.bytes = copyWord (p.source k) (p.destination k) (wordAt m.mem.bytes) := by
  rw [mem_clock_plain hplain hrun]
  refine ⟨Memory.areas_setDirect32 _ _ _, ?_⟩
  rw [wordAt_copied (by rwa [h.source]) (by rwa [h.destination])
    (by rw [h.source]; exact p.source_aligned k)
    (by rw [h.destination]; exact p.destination_aligned k), h.source, h.destination]

/-- The machine after the first `k` clocks. -/
structure Partway (p : Program n) (c : ChannelNo) (mem : Memory) (k : ℕ) (m : Machine) :
    Prop where
  enabled : (m.dma.ch c).flag csrCHEN = true
  plain : Plain (m.dma.ch c)
  underway : Underway p k (begun m.mem.evalDirect32 (m.dma.ch c))
  areas : m.mem.areas = mem.areas
  words : wordAt m.mem.bytes = copyWords p.source p.destination (wordAt mem.bytes) k

/-- **Before the last word**, by induction on the clocks. -/
theorem clocks_of_lt (hidle : (s.ch c).flag csrBUSY = false) (hram : p.InRam mem)
    (qs : ℕ → Ready c) {k : ℕ} (hlt : k < n) :
    ∃ m, clocks c qs ⟨s.setCh c (p.load (s.ch c)), mem⟩ k = .ok m ∧ Partway p c mem k m := by
  induction k with
  | zero =>
    refine ⟨_, rfl, ?_, ?_, ?_, rfl, rfl⟩
    · exact (congrArg (Channel.flag · csrCHEN) (setCh_self s c _)).trans (chEn_load p _)
    · exact (congrArg Plain (setCh_self s c _)).mpr (plain_load p _)
    · rw [setCh_self]
      exact underway_begun p hidle
  | succ k ih =>
    obtain ⟨m, hm, hpart⟩ := ih (by omega)
    obtain ⟨hsrc, hdst⟩ := hram k (by omega)
    obtain ⟨m', hm', hunder⟩ := clock_of_lt (q := qs k) hpart.underway hpart.plain hlt
    obtain ⟨hareas, hwords⟩ := wordAt_clock hpart.underway hpart.plain
      ((Memory.ram_congr hpart.areas).2 hsrc) ((Memory.ram_congr hpart.areas).2 hdst) hm'
    refine ⟨m', by rw [clocks, hm]; exact hm', hunder.enabled, hunder.plain, ?_,
      hareas.trans hpart.areas, ?_⟩
    · rwa [begun_of_busy _ hunder.busy]
    · rw [hwords, hpart.words]
      rfl

/-- **`n` clocks of a channel that was not busy copy the `n` words of its program** and end the
transfer. -/
theorem clocks_of_idle (p : Program n) (hidle : (s.ch c).flag csrBUSY = false) : p.Works c s := by
  intro mem hram qs
  refine ⟨fun k hk => ?_, ?_⟩
  · obtain ⟨m, hm, hpart⟩ := clocks_of_lt hidle hram qs hk
    exact ⟨m, hm, hpart.enabled⟩
  · obtain ⟨k, rfl⟩ : ∃ k, n = k + 1 := ⟨n - 1, by have := p.pos; omega⟩
    obtain ⟨m, hm, hpart⟩ := clocks_of_lt hidle hram qs (Nat.lt_succ_self k)
    obtain ⟨hsrc, hdst⟩ := hram k (Nat.lt_succ_self k)
    obtain ⟨m', hm', hen, hbusy, hdone⟩ := clock_of_eq (q := qs k) hpart.underway hpart.plain rfl
    obtain ⟨hareas, hwords⟩ := wordAt_clock hpart.underway hpart.plain
      ((Memory.ram_congr hpart.areas).2 hsrc) ((Memory.ram_congr hpart.areas).2 hdst) hm'
    refine ⟨m', by rw [clocks, hm]; exact hm', hareas.trans hpart.areas, ?_, hen, hbusy, hdone⟩
    rw [hwords, hpart.words]
    rfl

/-! ### A busy channel -/

/-- A clock of a busy channel copies the word that the channel has come to, not one of the
program. -/
theorem words_of_works_busy (mem : Memory) {p : Program 1} (hworks : p.Works c s)
    (hbusy : (s.ch c).flag csrBUSY = true) (hram : p.InRam mem) (q : Ready c) :
    wordAt (copied mem (s.ch c)).bytes = copyWord p.a0 p.a1 (wordAt mem.bytes) := by
  obtain ⟨m, hm, hcopied⟩ := (hworks mem hram fun _ => q).2
  have hch : (s.setCh c (p.load (s.ch c))).ch c = p.load (s.ch c) := setCh_self s c _
  have hload : (p.load (s.ch c)).flag csrBUSY = true := (flag_csrWritten_busy _ _).trans hbusy
  have hmem := mem_clock_plain (m := ⟨s.setCh c (p.load (s.ch c)), mem⟩)
    (by rw [hch]; exact plain_load p _) hm
  rw [hch, begun_of_busy _ hload] at hmem
  exact (congrArg (fun M : Memory => wordAt M.bytes) hmem).symm.trans hcopied.words

/-- A word is copied from 0 to `dst`. -/
def copyOne (dst : Word) (hdst : dst.toNat % 4 = 0) : Program 1 where
  csr := 1
  sz := 1
  a0 := 0
  am0 := 0
  a1 := dst
  am1 := 0
  enabled := by decide
  plain := by decide
  size := by decide
  pos := by decide
  aligned := ⟨by decide, hdst⟩
  maskAligned := by decide

/-- The queue with the guard only. -/
def idleReady (c : ChannelNo) : Ready c := ⟨Sched.idleQueue, rfl⟩

/-- A RAM with a single word that is not zero. -/
def oneWord : Memory := Memory.flat (simmemWrite32 (fun _ => 0) 0 1)

/-- **What a channel copies is what is written into its registers exactly when it is not busy**
before they are written. -/
theorem not_busy_of_works (h : ∀ n (p : Program n), p.Works c s) :
    (s.ch c).flag csrBUSY = false := by
  rw [← Bool.not_eq_true]
  intro hbusy
  have hcopy := fun dst hdst => words_of_works_busy oneWord (h 1 (copyOne dst hdst)) hbusy
    (fun _ _ => ⟨Memory.flat_ram _ _, Memory.flat_ram _ _⟩) (idleReady c)
  have heq := congrFun ((hcopy 4 (by decide)).symm.trans (hcopy 8 (by decide))) 4
  exact absurd heq (by decide)

/-- **`n` clocks copy the `n` words of every program and end the transfer exactly when the channel
is not busy** as its registers are written; the clocks are those of a channel with these writes. -/
theorem copy_iff (c : ChannelNo) (s : State) :
    ((∀ n (p : Program n), p.Works c s) ↔ (s.ch c).flag csrBUSY = false) ∧
      ∀ n (p : Program n) t, (p.writes c).foldlM (fun s w => dmaWrite32 w.1 w.2 s) s = .ok t →
        ∀ mem qs k, clocks c qs ⟨t, mem⟩ (k + 1) =
          clocks c qs ⟨s.setCh c (p.load (s.ch c)), mem⟩ (k + 1) :=
  ⟨⟨not_busy_of_works, fun hidle _ p => clocks_of_idle p hidle⟩,
    fun _ _ _ h => clocks_written h⟩

/-- A transfer that is disabled after the first of its two words goes on in place of the next
one. -/
theorem copy_fails_when_busy :
    ∃ t, [Event.write 0x24 2, .write 0x20 1, .outside (.charge 1), .schedule .zeros,
        .write 0x20 0].foldlM Event.exec (dmaReset Sched.idleQueue) = .ok t ∧
      (t.ch 0).flag csrCHEN = false ∧ ¬(copyOne 4 (by decide)).Works 0 t := by
  obtain ⟨t, ht, htest⟩ := Runs.exists_ok_of_any
    (p := fun t : State => (t.ch 0).flag csrBUSY && !(t.ch 0).flag csrCHEN &&
      decide ((t.ch 0).source = 0) && decide ((t.ch 0).destination = 0))
    (x := [Event.write 0x24 2, .write 0x20 1, .outside (.charge 1), .schedule .zeros,
      .write 0x20 0].foldlM Event.exec (dmaReset Sched.idleQueue)) (by decide)
  simp only [Bool.and_eq_true, Bool.not_eq_true', decide_eq_true_eq] at htest
  obtain ⟨⟨⟨hbusy, hen⟩, hsrc⟩, hdst⟩ := htest
  refine ⟨t, ht, hen, fun hworks => ?_⟩
  have hwords := words_of_works_busy oneWord hworks hbusy
    (fun _ _ => ⟨Memory.flat_ram _ _, Memory.flat_ram _ _⟩) (idleReady 0)
  rw [copied, hsrc, hdst] at hwords
  exact absurd (congrFun hwords 4) (by decide)

end Dma
end Or1ksim
