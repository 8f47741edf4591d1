import Or1ksim.Cache.Agrees
import Or1ksim.Cpu.Peek
import Or1ksim.Cpu.Run

/-!
# Accesses of the simulator

The accesses of `cpu/common/abstract.c` that are not the processor's: `set_direct32` and its
siblings may go through the data MMU and through the data cache.

* `setDirect32`, `evalDirect32` and the narrower ones;
* `ReadsBack` — what is written is read back, and memory is written at the translated address;
* `direct_reads_back` — **that it is**, exactly if the width is a byte, or the access does not go
  through both, or the page is mapped to itself;
* `set_direct_virtual` — elsewhere the cache is given the virtual address.
-/

namespace Or1ksim
namespace Cpu

open Bits Cache

/-! ### Accesses -/

/-- The data cache enable bit of the supervision register (`SPR_SR_DCE`). -/
def srDCE : ℕ := 3

/-- The bit of the data cache in the unit present register (`SPR_UPR_DCP`). -/
def uprDCP : ℕ := 1

/-- The processor, with the cache inhibit bit of its data MMU, and its data cache. -/
structure Machine where
  /-- The processor. -/
  cpu : Inhibited
  /-- The cache array. -/
  dc : Dc

/-- What the cache reads of the processor. -/
def Inhibited.env (c : Inhibited) : DcEnv where
  dcp := (c.sim.sprs sprUPR).getLsbD uprDCP
  dce := c.sim.srBit srDCE
  dataCi := decide (c.ci ≠ 0)

/-- The processor with another memory. -/
def Inhibited.setMem (c : Inhibited) (mem : Memory) : Inhibited :=
  { c with sim := { c.sim with mem := mem } }

/-- The processor after a bus error of the cache. -/
def Inhibited.busErr (c : Inhibited) (raised : Bool) (va : Addr) : Inhibited :=
  if raised then { c with sim := exceptHandle c.sim .buserr va } else c

/-- `phys_memaddr`, as both kinds of access look it up. -/
def physMemaddr (cfg : Config) (c : Inhibited) (memaddr : Addr)
    (write throughMmu throughDc : Bool) : Addr × Inhibited :=
  if throughMmu then peekIntoDtlbCi cfg c memaddr write throughDc else (memaddr, c)

/-- What `set_direct32`, `set_direct16` and `set_direct8` share: `write` is the permission they peek
for and `virtual` says that the cache is given `memaddr`, not `phys_memaddr`. -/
def setDirect (n : Width) (write virtual : Bool) (cfg : Config) (dc : DcConfig) (m : Machine)
    (memaddr : Addr) (value : Word) (throughMmu throughDc : Bool) : Machine :=
  if misaligned memaddr n then m
  else
    let (pa, c) := physMemaddr cfg m.cpu memaddr write throughMmu throughDc
    if throughDc then
      let a := if virtual then memaddr else pa
      let r := dcSimulateWrite dc c.env ⟨m.dc, c.sim.mem⟩ a value n
      -- A bus error of the store itself names the address, one of a refill names zero.
      let va := if (c.sim.mem.setsimMem a value n).isNone then memaddr else 0
      ⟨(c.setMem r.state.mem).busErr r.busErr va, r.state.dc⟩
    else ⟨c.setMem ((c.sim.mem.setsimMem pa value n).getD c.sim.mem), m.dc⟩

/-- `set_direct32`. -/
def setDirect32 := setDirect .w4 true true

/-- `set_direct16`. -/
def setDirect16 := setDirect .w2 false true

/-- `set_direct8`. -/
def setDirect8 := setDirect .w1 false false

/-- What `eval_direct32`, `eval_direct16` and `eval_direct8` share. -/
def evalDirect (n : Width) (cfg : Config) (dc : DcConfig) (m : Machine) (memaddr : Addr)
    (throughMmu throughDc : Bool) : Word × Machine :=
  if misaligned memaddr n then (0, m)
  else
    let (pa, c) := physMemaddr cfg m.cpu memaddr false throughMmu throughDc
    if throughDc then
      let r := dcSimulateRead dc c.env ⟨m.dc, c.sim.mem⟩ pa n
      (r.value, ⟨c.busErr r.busErr (if c.env.active then 0 else memaddr), r.state.dc⟩)
    else ((c.sim.mem.evalsimMem pa n).getD 0, ⟨c, m.dc⟩)

/-- `eval_direct32`. -/
def evalDirect32 := evalDirect .w4

/-- `eval_direct16`. -/
def evalDirect16 := evalDirect .w2

/-- `eval_direct8`. -/
def evalDirect8 := evalDirect .w1

/-- The write of a width. -/
def setDirectN : Width → Config → DcConfig → Machine → Addr → Word → Bool → Bool → Machine
  | .w4 => setDirect32
  | .w2 => setDirect16
  | .w1 => setDirect8

/-- The read of a width. -/
def evalDirectN : Width → Config → DcConfig → Machine → Addr → Bool → Bool → Word × Machine
  | .w4 => evalDirect32
  | .w2 => evalDirect16
  | .w1 => evalDirect8

/-! ### Translation -/

/-- The page of an address may be read and written. -/
def PageOk (cfg : Config) (c : Inhibited) (a : Addr) : Prop :=
  ∀ write, (dmmuTranslateCi cfg c a write).raised = none

/-- The translated address. -/
def translated (cfg : Config) (c : Inhibited) (a : Addr) (throughMmu : Bool) : Addr :=
  if throughMmu then (dmmuTranslateCi cfg c a false).addr else a

section

variable {cfg : Config} {dc : DcConfig} {m : Machine} {c : Inhibited} {a : Addr} {v : Word}
  {n : Width} {write tm tc : Bool} {mem : Memory}

/-- The permissions have no part in what a look at a page finds, if they are given. -/
theorem peekCi_of_raised {u : Mmu} (hu : u.tlbmr = sprDTLBMR ∨ u.tlbmr = sprITLBMR)
    {fault : Bool → Word → Bool} (h : (u.translateCi fault c a).raised = none) (tc : Bool) :
    u.peekCi fault tc c a = u.peekCi (fun _ _ => false) tc c a := by
  unfold Mmu.translateCi at h
  unfold Mmu.peekCi
  by_cases hoff : u.off c.sim
  · rw [if_pos hoff, if_pos hoff]
  · rw [if_neg hoff] at h ⊢
    rw [if_neg hoff]
    cases hfind : u.findTlbmr c.sim.sprs a with
    | none => rfl
    | some hit =>
      have hsr : (u.touchLru c.sim a hit).srBit srSM = c.sim.srBit srSM := by
        rw [Sim.srBit, (Mmu.touchLru_quiet hu (Mmu.scratch_findTlbmr hu hfind)).sr, Sim.srBit]
      rw [hfind] at h
      dsimp only at h ⊢
      rw [hsr, Mmu.touchLru_sprs_tr hfind] at h
      by_cases hfault : fault (c.sim.srBit srSM) (c.sim.sprs (hit + 128))
      · rw [if_pos hfault] at h
        cases h
      · rw [if_neg hfault, if_neg Bool.false_ne_true]

theorem physMemaddr_write (h : tm = true → PageOk cfg c a) (write tc : Bool) :
    physMemaddr cfg c a write tm tc = physMemaddr cfg c a false tm tc := by
  cases tm with
  | false => rfl
  | true =>
    have hpeek := fun write => peekCi_of_raised (u := cfg.dataMmu) (.inl rfl) (h rfl write) tc
    exact (hpeek write).trans (hpeek false).symm

theorem physMemaddr_fst (h : tm = true → PageOk cfg c a) (tc : Bool) :
    (physMemaddr cfg c a false tm tc).1 = translated cfg c a tm := by
  cases tm with
  | false => rfl
  | true => exact (peek_agrees cfg c a false tc).1.addr (h rfl false)

theorem physMemaddr_sim (cfg : Config) (c : Inhibited) (a : Addr) (write tm tc : Bool) :
    (physMemaddr cfg c a write tm tc).2.sim = c.sim := by
  cases tm with
  | false => rfl
  | true => exact (peek_agrees cfg c a write tc).1.same

theorem peekCi_again (u : Mmu) (fault : Bool → Word → Bool) (c : Inhibited) (a : Addr) (tc : Bool)
    (mem : Memory) :
    u.peekCi fault tc ((u.peekCi fault tc c a).2.setMem mem) a =
      ((u.peekCi fault tc c a).1, (u.peekCi fault tc c a).2.setMem mem) := by
  have hoff : ∀ ci, u.off (Inhibited.setMem ⟨c.sim, ci⟩ mem).sim = u.off c.sim := fun _ => rfl
  have hsr : ∀ ci, (Inhibited.setMem ⟨c.sim, ci⟩ mem).sim.srBit srSM = c.sim.srBit srSM :=
    fun _ => rfl
  have hsprs : ∀ ci, (Inhibited.setMem ⟨c.sim, ci⟩ mem).sim.sprs = c.sim.sprs := fun _ => rfl
  -- Only the cache-inhibit flag is left behind, and it is not read.
  obtain ⟨ci, hci⟩ : ∃ ci, (u.peekCi fault tc c a).2 = ⟨c.sim, ci⟩ := by
    unfold Mmu.peekCi
    split
    · cases tc <;> exact ⟨_, rfl⟩
    · split
      · split
        · exact ⟨_, rfl⟩
        · cases tc <;> exact ⟨_, rfl⟩
      · exact ⟨_, rfl⟩
  rw [hci]
  conv_lhs => unfold Mmu.peekCi
  rw [hoff, hsr, hsprs]
  unfold Mmu.peekCi at hci ⊢
  by_cases ho : u.off c.sim
  · rw [if_pos ho] at hci ⊢
    rw [if_pos ho]
    cases tc
    · rfl
    · cases hci
      rfl
  · rw [if_neg ho] at hci ⊢
    rw [if_neg ho]
    cases hfind : u.findTlbmr c.sim.sprs a with
    | none => rfl
    | some hit =>
      rw [hfind] at hci
      dsimp only at hci ⊢
      by_cases hf : fault (c.sim.srBit srSM) (c.sim.sprs (hit + 128))
      · rw [if_pos hf, if_pos hf]
      · rw [if_neg hf] at hci ⊢
        rw [if_neg hf]
        cases tc
        · rfl
        · cases hci
          rfl

theorem physMemaddr_again (cfg : Config) (c : Inhibited) (a : Addr) (write tm tc : Bool)
    (mem : Memory) :
    physMemaddr cfg ((physMemaddr cfg c a write tm tc).2.setMem mem) a write tm tc =
      ((physMemaddr cfg c a write tm tc).1, (physMemaddr cfg c a write tm tc).2.setMem mem) := by
  cases tm with
  | false => rfl
  | true => exact peekCi_again cfg.dataMmu (dataFault write) c a tc mem

end

/-! ### Alignment -/

section

variable {cfg : Config} {c : Inhibited} {a : Addr} {n : Width} {tm : Bool}

theorem misaligned_iff (a : Addr) (n : Width) :
    misaligned a n = false ↔ a &&& BitVec.ofNat 32 (n.bytes - 1) = 0 := by
  cases n with
  | w1 => exact iff_of_true rfl BitVec.and_zero
  | w2 =>
    change a.getLsbD 0 = false ↔ a &&& 1#32 = 0#32
    rw [← BitVec.twoPow_zero, BitVec.and_twoPow]
    cases a.getLsbD 0 <;> simp [BitVec.twoPow_zero]
  | w4 => exact decide_eq_false_iff_not.trans not_not

theorem aligned_of_not_misaligned (h : misaligned a n = false) : Aligned a n := by
  cases n with
  | w1 => exact Nat.mod_one _
  | w2 =>
    have hbit : a.getLsbD 0 = false := h
    rw [BitVec.getLsbD, Nat.testBit_zero] at hbit
    change a.toNat % 2 = 0
    have := of_decide_eq_false hbit
    omega
  | w4 => exact and_three_eq_zero.1 (not_not.1 (of_decide_eq_false h))

theorem translated_aligned (h : misaligned a n = false) :
    misaligned (translated cfg c a tm) n = false := by
  rw [misaligned_iff] at h ⊢
  have hzero : (0 : Addr) &&& BitVec.ofNat 32 (n.bytes - 1) = 0 := BitVec.zero_and
  have hphysical : ∀ tr, cfg.dataMmu.physical tr a &&& BitVec.ofNat 32 (n.bytes - 1) = 0 := by
    intro tr
    have hframe : (0xffffe000 : Word) &&& BitVec.ofNat 32 (n.bytes - 1) = 0 := by
      cases n <;> decide
    rw [Mmu.physical, BitVec.and_or_distrib_right, BitVec.and_assoc, hframe, BitVec.and_assoc,
      BitVec.and_comm cfg.dataMmu.config.pageOffsetMask, ← BitVec.and_assoc, h]
    simp
  unfold translated dmmuTranslateCi Mmu.translateCi
  cases tm with
  | false => exact h
  | true =>
    rw [if_pos rfl]
    split
    · exact h
    · split
      · dsimp only
        split
        · exact hphysical _
        · exact hphysical _
      · exact hzero

end

/-! ### Main results -/

/-- What is written is read back, and memory is written at the translated address. -/
structure ReadsBack (cfg : Config) (dc : DcConfig) (m : Machine) (a : Addr) (n : Width)
    (throughMmu throughDc : Bool) : Prop where
  value : ∀ v, (evalDirectN n cfg dc (setDirectN n cfg dc m a v throughMmu throughDc) a throughMmu
    throughDc).1 = v &&& widthMask n
  memory : ∀ v, m.cpu.sim.mem.setsimMem (translated cfg m.cpu a throughMmu) v n =
    some (setDirectN n cfg dc m a v throughMmu throughDc).cpu.sim.mem

section

variable {cfg : Config} {dc : DcConfig} {m : Machine} {a : Addr} {n : Width}
  {write virtual tm tc : Bool}

theorem setDirectN_eq (n : Width) : setDirectN n = setDirect n (n = .w4) (n ≠ .w1) := by
  cases n <;> rfl

theorem evalDirectN_eq (n : Width) : evalDirectN n = evalDirect n := by cases n <;> rfl

theorem setDirect_eq (halign : misaligned a n = false) (hpage : tm = true → PageOk cfg m.cpu a)
    (v : Word) {pa : Addr} {c : Inhibited}
    (hp : physMemaddr cfg m.cpu a false tm tc = (pa, c)) :
    setDirect n write virtual cfg dc m a v tm tc =
      if tc then
        let t := if virtual then a else pa
        let r := dcSimulateWrite dc c.env ⟨m.dc, c.sim.mem⟩ t v n
        let va := if (c.sim.mem.setsimMem t v n).isNone then a else 0
        ⟨(c.setMem r.state.mem).busErr r.busErr va, r.state.dc⟩
      else ⟨c.setMem ((c.sim.mem.setsimMem pa v n).getD c.sim.mem), m.dc⟩ := by
  rw [setDirect, if_neg (by rw [halign]; exact Bool.false_ne_true), physMemaddr_write hpage, hp]

/-- Where the cache is given the translated address, what is written is read back. -/
theorem direct_good (halign : misaligned a n = false) (hpage : tm = true → PageOk cfg m.cpu a)
    (hagrees : Agrees dc ⟨m.dc, m.cpu.sim.mem⟩ (translated cfg m.cpu a tm))
    (hram : m.cpu.sim.mem.Ram (translated cfg m.cpu a tm))
    (hblock : tc = true → RamBlock dc m.cpu.sim.mem (translated cfg m.cpu a tm))
    (htarget : tc = true → virtual = true → translated cfg m.cpu a tm = a) (v : Word) :
    (evalDirect n cfg dc (setDirect n write virtual cfg dc m a v tm tc) a tm tc).1 =
        v &&& widthMask n ∧
      m.cpu.sim.mem.setsimMem (translated cfg m.cpu a tm) v n =
        some (setDirect n write virtual cfg dc m a v tm tc).cpu.sim.mem := by
  obtain ⟨pa, c, hp⟩ : ∃ pa c, physMemaddr cfg m.cpu a false tm tc = (pa, c) := ⟨_, _, rfl⟩
  have hpa : pa = translated cfg m.cpu a tm := by
    rw [← physMemaddr_fst hpage tc, hp]
  have hsim : c.sim = m.cpu.sim := by
    rw [← physMemaddr_sim cfg m.cpu a false tm tc, hp]
  have hagain := fun mem => physMemaddr_again cfg m.cpu a false tm tc mem
  rw [hp] at hagain
  have hal : Aligned pa n := by
    rw [hpa]
    exact aligned_of_not_misaligned (translated_aligned halign)
  rw [setDirect_eq halign hpage v hp]
  rw [← hpa, ← hsim] at hagrees hram hblock ⊢
  rw [← hpa] at htarget
  have hmis : ¬misaligned a n = true := by
    rw [halign]
    exact Bool.false_ne_true
  cases tc with
  | false =>
    obtain ⟨M', hset, hareas, hwords⟩ := setsimMem_of_ram (v := v) hram hal
    have hram' : M'.Ram pa := (Memory.ram_congr hareas).2 hram
    simp only [Bool.false_eq_true, if_false, evalDirect, if_neg hmis, hset, Option.getD_some]
    rw [hagain]
    refine ⟨?_, rfl⟩
    change (M'.evalsimMem pa n).getD 0 = _
    rw [evalsimMem_of_ram hram' hal, hwords, if_pos rfl, Option.getD_some, readPart_writePart]
  | true =>
    -- The block agrees, so a cached write followed by a cached read is one of memory.
    have ht : (if virtual = true then a else pa) = pa := by
      split
      case isTrue hv => exact (htarget rfl hv).symm
      case isFalse => rfl
    have hactive : c.env.active = true → Agrees dc ⟨m.dc, c.sim.mem⟩ pa := fun _ => hagrees
    obtain ⟨hmem, hbus, -⟩ := Agrees.write hactive hal (hblock rfl) v
    have hread := Agrees.read_write hactive hal (hblock rfl) v
    simp only [if_true, ht, hbus, Inhibited.busErr, Bool.false_eq_true, if_false, evalDirect,
      if_neg hmis]
    rw [hagain]
    exact ⟨hread, hmem⟩

theorem exceptHandle_mem (s : Sim) (e : Exception) (ea : Addr) :
    (exceptHandle s e ea).mem = s.mem := by
  have hdebug : (debugIgnoreException s e).mem = s.mem := by
    unfold debugIgnoreException Sim.setStallState
    dsimp only
    split <;> rfl
  unfold exceptHandle
  dsimp only
  split
  · exact hdebug
  · rw [← hdebug]
    unfold enterException
    cases e <;> rfl

/-- A write through the cache writes memory where the cache is told. -/
theorem dcSimulateWrite_mem (env : DcEnv) (S : DcState) (v : Word) :
    (dcSimulateWrite dc env S a v n).state.mem = (S.mem.setsimMem a v n).getD S.mem := by
  unfold dcSimulateWrite
  cases S.mem.setsimMem a v n with
  | none => rfl
  | some M =>
    dsimp only
    split
    · rfl
    · split
      · rfl
      · rfl

/-- Where it is given another address, memory is written there. -/
theorem direct_bad (halign : misaligned a n = false) (hpage : tm = true → PageOk cfg m.cpu a)
    (hram : m.cpu.sim.mem.Ram (translated cfg m.cpu a tm))
    (htarget : translated cfg m.cpu a tm ≠ a) :
    ¬∀ v, m.cpu.sim.mem.setsimMem (translated cfg m.cpu a tm) v n =
      some (setDirect n write true cfg dc m a v tm true).cpu.sim.mem := by
  intro h
  obtain ⟨pa, c, hp⟩ : ∃ pa c, physMemaddr cfg m.cpu a false tm true = (pa, c) := ⟨_, _, rfl⟩
  have hsim : c.sim = m.cpu.sim := by
    rw [← physMemaddr_sim cfg m.cpu a false tm true, hp]
  have hal : Aligned (translated cfg m.cpu a tm) n :=
    aligned_of_not_misaligned (translated_aligned halign)
  have hread : ∀ v, some (v &&& widthMask n) =
      m.cpu.sim.mem.evalsimMem (translated cfg m.cpu a tm) n := by
    intro v
    have hmem : (setDirect n write true cfg dc m a v tm true).cpu.sim.mem =
        (m.cpu.sim.mem.setsimMem a v n).getD m.cpu.sim.mem := by
      rw [setDirect_eq halign hpage v hp, ← hsim]
      simp only [if_true, Inhibited.busErr]
      rw [← dcSimulateWrite_mem c.env ⟨m.dc, c.sim.mem⟩ v]
      split
      · exact exceptHandle_mem _ _ _
      · rfl
    obtain ⟨M', hset, hareas, hwords⟩ := setsimMem_of_ram (v := v) hram hal
    obtain rfl := Option.some.inj (hset.symm.trans ((h v).trans (congrArg some hmem)))
    rw [← evalsimMem_setsimMem_of_ne _ (aligned_of_not_misaligned halign) hal htarget v,
      evalsimMem_of_ram ((Memory.ram_congr hareas).2 hram) hal, hwords, if_pos rfl,
      readPart_writePart]
  -- The word read would have to be both values.
  have hsame := Option.some.inj ((hread 0).trans (hread 0xffffffff).symm)
  cases n <;> exact absurd hsame (by decide)

/-- **Simulator accesses read back what they wrote**, through the MMU, the cache, both or neither:
over a page that may be read and written and a block that the cache agrees on, every value written
is read back and memory is written at the translated address, exactly if the width is a byte, or
the access does not go through both, or the page is mapped to itself. -/
theorem direct_reads_back (cfg : Config) (dc : DcConfig) (m : Machine) (a : Addr) (n : Width)
    (tm tc : Bool) (halign : misaligned a n = false) (hpage : tm = true → PageOk cfg m.cpu a)
    (hagrees : Agrees dc ⟨m.dc, m.cpu.sim.mem⟩ (translated cfg m.cpu a tm))
    (hram : m.cpu.sim.mem.Ram (translated cfg m.cpu a tm))
    (hblock : tc = true → RamBlock dc m.cpu.sim.mem (translated cfg m.cpu a tm)) :
    ReadsBack cfg dc m a n tm tc ↔
      n = .w1 ∨ tm = false ∨ tc = false ∨ translated cfg m.cpu a tm = a := by
  constructor
  · intro h
    by_contra hnot
    obtain ⟨hn, -, htc, htarget⟩ : n ≠ .w1 ∧ tm ≠ false ∧ tc ≠ false ∧
        translated cfg m.cpu a tm ≠ a := by
      simpa only [not_or] using hnot
    obtain rfl := Bool.ne_false_iff.1 htc
    have hmem := h.memory
    rw [setDirectN_eq, decide_eq_true hn] at hmem
    exact direct_bad halign hpage hram htarget hmem
  · intro hcase
    have htarget : tc = true → decide (n ≠ .w1) = true → translated cfg m.cpu a tm = a := by
      intro htc hn
      rcases hcase with h | h | h | h
      · exact absurd h (of_decide_eq_true hn)
      · rw [h]
        rfl
      · rw [htc] at h
        cases h
      · exact h
    refine ⟨fun v => ?_, fun v => ?_⟩
    · rw [setDirectN_eq, evalDirectN_eq]
      exact (direct_good halign hpage hagrees hram hblock htarget v).1
    · rw [setDirectN_eq]
      exact (direct_good halign hpage hagrees hram hblock htarget v).2

end

/-- The first page is mapped to the second frame, and a cache of two blocks is on and empty. -/
def mappedMachine : Machine where
  cpu := ⟨((powerOn 0x60b 0x8029 (.flat fun _ => 0)).setSpr 0x0a00 1).setSpr 0x0a80 0x23c0, 0⟩
  dc := fun _ _ => ⟨fun _ => 0, invalidTag, 0⟩

theorem mappedMachine_pageOk : PageOk defaultConfig mappedMachine.cpu 0 := by
  intro write
  cases write <;> decide

theorem mappedMachine_agrees (a : Addr) :
    Agrees smallDcConfig ⟨mappedMachine.dc, mappedMachine.cpu.sim.mem⟩ a :=
  Coherent.agrees (coherent_of_invalid fun _ _ _ _ => rfl) a

/-- Bytes are read back. -/
theorem direct_reads_back_byte :
    ReadsBack defaultConfig smallDcConfig mappedMachine 0 .w1 true true :=
  (direct_reads_back defaultConfig smallDcConfig mappedMachine 0 .w1 true true rfl
    (fun _ => mappedMachine_pageOk) (mappedMachine_agrees _) (Memory.flat_ram _ _)
    fun _ b _ => Memory.flat_ram _ b).2 (.inl rfl)

/-- A word written through both is not: it goes to the first frame. -/
theorem set_direct_virtual :
    PageOk defaultConfig mappedMachine.cpu 0 ∧
      Agrees smallDcConfig ⟨mappedMachine.dc, mappedMachine.cpu.sim.mem⟩ 0x2000 ∧
      translated defaultConfig mappedMachine.cpu 0 true = 0x2000 ∧
      (evalDirect32 defaultConfig smallDcConfig
        (setDirect32 defaultConfig smallDcConfig mappedMachine 0 7 true true) 0 true true).1 = 0 ∧
      ¬ReadsBack defaultConfig smallDcConfig mappedMachine 0 .w4 true true := by
  have hread : (evalDirect32 defaultConfig smallDcConfig
      (setDirect32 defaultConfig smallDcConfig mappedMachine 0 7 true true) 0 true true).1 = 0 := by
    decide
  refine ⟨mappedMachine_pageOk, mappedMachine_agrees _, by decide, hread, fun h => ?_⟩
  exact absurd (hread.symm.trans (h.value 7)) (by decide)

end Cpu
end Or1ksim
