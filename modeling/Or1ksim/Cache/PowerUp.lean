import Or1ksim.Cache.Agrees

/-!
# The data cache from power-up

The cache array of `cache/dcache-model.c` is static storage.  A way is invalid when its tag is `-1`,
so after power-up, when all tags are zero, every way seems to hold the block with tag zero.

* `Powered` — the cache, and the ways that a miss has filled since power-up;
* `Powered.Inv` — the filled ways agree with memory, and the others have tag zero;
* `Sound` — a read that hits a way never filled finds there what memory holds;
* `dcRun_powerUp` — **the cache is correct from power-up**, exactly if all reads are sound;
* `dcRun_powerUp_zero` — the first one need not be.
-/

namespace Or1ksim
namespace Cache

open DcConfig

/-- The array as static storage. -/
def zeroDc : Dc := fun _ _ => ⟨fun _ => 0, 0, 0⟩

/-- The cache and the memory behind it, and which ways a miss has filled. -/
structure Powered where
  /-- The cache and the memory. -/
  state : DcState
  /-- The ways that have been filled, by set. -/
  filled : ℕ → ℕ → Bool

/-- Power-up. -/
def powerUp (M : Memory) : Powered := ⟨⟨zeroDc, M⟩, fun _ _ => false⟩

/-- The ways filled after an access at `a` that chooses `victim` on a miss. -/
def fill (cfg : DcConfig) (p : Powered) (a : Addr) (victim : ℕ) : ℕ → ℕ → Bool :=
  match cfg.findWay (p.state.dc (cfg.set a)) (cfg.tag a) with
  | some _ => p.filled
  | none => Function.update p.filled (cfg.set a)
      (Function.update (p.filled (cfg.set a)) victim true)

/-- An access. -/
def Powered.step (cfg : DcConfig) (env : DcEnv) (p : Powered) : DcOp → Powered
  | .read a n => ⟨(dcSimulateRead cfg env p.state a n).state,
      fill cfg p a (cfg.readVictim (p.state.dc (cfg.set a)))⟩
  | .write a v n => ⟨(dcSimulateWrite cfg env p.state a v n).state,
      fill cfg p a (cfg.writeVictim (p.state.dc (cfg.set a)))⟩
  | .inv a => ⟨dcInv cfg env p.state a, p.filled⟩

/-! ### The invariant -/

/-- The ways of a set, as if those never filled were invalid. -/
def known (filled : ℕ → Bool) (ways : ℕ → DcWay) : ℕ → DcWay := fun i =>
  if filled i then ways i else { ways i with tagaddr := invalidTag }

/-- The ways of set `s`: those filled agree with memory, the others have tag zero; once a filled way
has tag zero, all are filled. -/
structure SetInv (cfg : DcConfig) (s : ℕ) (filled : ℕ → Bool) (ways : ℕ → DcWay) (m : Bytes) :
    Prop where
  ok : WaysOk cfg s (known filled ways) m
  fresh : ∀ w < cfg.nways, filled w = false → (ways w).tagaddr = 0
  all : ∀ w < cfg.nways, filled w = true → (ways w).tagaddr = 0 → ∀ i < cfg.nways, filled i = true

/-- All sets do. -/
def Powered.Inv (cfg : DcConfig) (p : Powered) : Prop :=
  ∀ s < cfg.nsets, SetInv cfg s (p.filled s) (p.state.dc s) p.state.mem.bytes

section

variable {cfg : DcConfig} {env : DcEnv} {p : Powered} {M : Memory} {a : Addr} {v : Word}
  {n : Width} {s w : ℕ} {filled : ℕ → Bool} {ways ways' : ℕ → DcWay} {m m' : Bytes}

theorem powerUp_inv (M : Memory) : (powerUp M).Inv cfg := fun _ _ =>
  ⟨⟨fun _ _ hv => absurd rfl hv, fun _ _ _ _ hv => absurd rfl hv⟩, fun _ _ _ => rfl,
    fun _ _ hf => absurd hf Bool.false_ne_true⟩

theorem known_of_filled (h : filled w = true) : known filled ways w = ways w := if_pos h

theorem known_tag_ne (h : filled w = true → (ways w).tagaddr ≠ cfg.tag a) :
    (known filled ways w).tagaddr ≠ cfg.tag a := by
  unfold known
  split
  case isTrue hf => exact h hf
  case isFalse => exact (cfg.tag_ne_invalidTag a).symm

theorem SetInv.congr (h : SetInv cfg s filled ways m)
    (heq : ∀ i, (ways' i).tagaddr = (ways i).tagaddr ∧ (ways' i).line = (ways i).line) :
    SetInv cfg s filled ways' m where
  ok := h.ok.congr fun i => by
    unfold known
    split
    · exact heq i
    · exact ⟨rfl, (heq i).2⟩
  fresh := fun w hw hf => (heq w).1.trans (h.fresh w hw hf)
  all := fun w hw hf ht => h.all w hw hf ((heq w).1.symm.trans ht)

/-- If a way that was never filled is hit, no filled way has the tag. -/
theorem SetInv.unfilled_hit (h : SetInv cfg s filled ways m) (hw : w < cfg.nways)
    (htag : (ways w).tagaddr = cfg.tag a) (hf : filled w = false) {i : ℕ} (hi : i < cfg.nways)
    (hfi : filled i = true) : (ways i).tagaddr ≠ cfg.tag a := by
  intro hti
  have hzero : (ways i).tagaddr = 0 := hti.trans (htag.symm.trans (h.fresh w hw hf))
  have hall := h.all i hi hfi hzero w hw
  rw [hf] at hall
  cases hall

theorem SetInv.load (h : SetInv cfg (cfg.set a) filled ways m) (hw : w < cfg.nways)
    (hmiss : ∀ i < cfg.nways, (ways i).tagaddr ≠ cfg.tag a) {x : DcWay}
    (htag : x.tagaddr = cfg.tag a) (hline : Holds cfg m a x.line) :
    SetInv cfg (cfg.set a) (Function.update filled w true) (Function.update ways w x) m where
  ok := by
    have hload := h.ok.load w rfl htag hline fun i hi _ => known_tag_ne fun _ => hmiss i hi
    refine hload.congr fun i => ?_
    by_cases hiw : i = w
    · subst hiw
      rw [known, Function.update_self, Function.update_self, Function.update_self, if_pos rfl]
      exact ⟨rfl, rfl⟩
    · rw [known, Function.update_of_ne hiw, Function.update_of_ne hiw, Function.update_of_ne hiw,
        known]
      exact ⟨rfl, rfl⟩
  fresh := fun i hi hf => by
    by_cases hiw : i = w
    · rw [hiw, Function.update_self] at hf
      cases hf
    · rw [Function.update_of_ne hiw] at hf ⊢
      exact h.fresh i hi hf
  all := fun i hi hf ht j hj => by
    by_cases hjw : j = w
    · rw [hjw, Function.update_self]
    · rw [Function.update_of_ne hjw]
      by_contra hfj
      have hzero := h.fresh j hj (Bool.eq_false_of_not_eq_true hfj)
      by_cases hiw : i = w
      · -- The block has tag zero, so a way never filled would have been hit.
        rw [hiw, Function.update_self, htag] at ht
        exact hmiss j hj (hzero.trans ht.symm)
      · rw [Function.update_of_ne hiw] at hf ht
        exact hfj (h.all i hi hf ht j hj)

/-- A write leaves alone the sets whose filled ways do not hold its block. -/
theorem SetInv.frame {x : Word} (hm : WordSet m m' a x) (h : SetInv cfg s filled ways m)
    (hout : s = cfg.set a → ∀ i < cfg.nways, filled i = true → (ways i).tagaddr ≠ cfg.tag a) :
    SetInv cfg s filled ways m' where
  ok := h.ok.frame hm fun hs i hi => known_tag_ne (hout hs i hi)
  fresh := h.fresh
  all := h.all

/-- A write-through hit, of a filled way or of one that was never filled. -/
theorem SetInv.writeHit (h : SetInv cfg (cfg.set a) filled ways m) (hw : w < cfg.nways)
    (htag : (ways w).tagaddr = cfg.tag a)
    (hm : WordSet m m' a (writePart (wordAt m a) a v n)) {y : DcWay} (hy : y.tagaddr = cfg.tag a)
    (hline : y.line = Function.update (ways w).line (cfg.lineIndex a 0)
      (writePart ((ways w).line (cfg.lineIndex a 0)) a v n)) :
    SetInv cfg (cfg.set a) filled (Function.update ways w y) m' := by
  have htags : ∀ i, (Function.update ways w y i).tagaddr = (ways i).tagaddr := by
    intro i
    by_cases hiw : i = w
    · rw [hiw, Function.update_self, hy, htag]
    · rw [Function.update_of_ne hiw]
  have hknown : ∀ i, i ≠ w → known filled (Function.update ways w y) i = known filled ways i := by
    intro i hiw
    rw [known, Function.update_of_ne hiw, known]
  refine ⟨?_, fun i hi hf => (htags i).trans (h.fresh i hi hf),
    fun i hi hf ht => h.all i hi hf ((htags i).symm.trans ht)⟩
  -- A way that was never filled is unknown before and after.
  cases hf : filled w with
  | true =>
    have htagk : (known filled ways w).tagaddr = cfg.tag a := by
      rw [known_of_filled hf, htag]
    have hword := (h.ok.hit hw htagk).lineIndex
    rw [known_of_filled hf] at hword
    have hhit := h.ok.writeHit hm hw htagk y hy (by rw [known_of_filled hf, hline, hword])
    refine hhit.congr fun i => ?_
    by_cases hiw : i = w
    · subst hiw
      rw [known_of_filled hf, Function.update_self, Function.update_self]
      exact ⟨rfl, rfl⟩
    · rw [hknown i hiw, Function.update_of_ne hiw]
      exact ⟨rfl, rfl⟩
  | false =>
    have hframe := h.frame hm fun _ i hi hfi => h.unfilled_hit hw htag hf hi hfi
    have hdrop := hframe.ok.invalidate w (x := { y with tagaddr := invalidTag }) rfl
    refine hdrop.congr fun i => ?_
    by_cases hiw : i = w
    · subst hiw
      rw [known, hf, if_neg Bool.false_ne_true, Function.update_self, Function.update_self]
      exact ⟨rfl, rfl⟩
    · rw [hknown i hiw, Function.update_of_ne hiw]
      exact ⟨rfl, rfl⟩

theorem Powered.Inv.setWays {D : Dc} {fill : ℕ → ℕ → Bool} {g : ℕ → Bool}
    (hother : ∀ t < cfg.nsets, t ≠ s → SetInv cfg t (fill t) (D t) M.bytes)
    (hset : SetInv cfg s g ways M.bytes) :
    Powered.Inv cfg ⟨⟨setWays D s ways, M⟩, Function.update fill s g⟩ := by
  intro t ht
  by_cases hts : t = s
  · subst hts
    simp only [Cache.setWays, Function.update_self]
    exact hset
  · simp only [Cache.setWays, Function.update_of_ne hts]
    exact hother t ht hts

/-! ### Accesses -/

/-- A read that hits a way never filled finds there what memory holds. -/
def Sound (cfg : DcConfig) (p : Powered) (a : Addr) (n : Width) : Prop :=
  ∀ w, cfg.findWay (p.state.dc (cfg.set a)) (cfg.tag a) = some w →
    p.filled (cfg.set a) w = false →
    readPart ((p.state.dc (cfg.set a) w).line (cfg.lineIndex a 0)) a n =
      readPart (wordAt p.state.mem.bytes a) a n

/-- A read keeps the invariant, and gives what memory holds exactly if it is sound. -/
theorem Powered.Inv.read (h : p.Inv cfg) (henv : env.active = true)
    (hram : RamBlock cfg p.state.mem a) :
    (p.step cfg env (.read a n)).Inv cfg ∧
      (dcSimulateRead cfg env p.state a n).busErr = false ∧
      (dcSimulateRead cfg env p.state a n).state.mem = p.state.mem ∧
      ((dcSimulateRead cfg env p.state a n).value = readPart (wordAt p.state.mem.bytes a) a n ↔
        Sound cfg p a n) := by
  have hset := h _ (cfg.set_lt a)
  have hother : ∀ t < cfg.nsets, t ≠ cfg.set a →
      SetInv cfg t (p.filled t) (p.state.dc t) p.state.mem.bytes := fun t ht _ => h t ht
  unfold Sound
  simp only [Powered.step, dcSimulateRead, fill, bypass_eq, henv, Bool.not_true,
    Bool.false_eq_true, if_false]
  cases hfind : cfg.findWay (p.state.dc (cfg.set a)) (cfg.tag a) with
  | some w =>
    obtain ⟨hw, htag⟩ := findWay_some hfind
    refine ⟨?_, rfl, rfl, ?_⟩
    · have hinv := Powered.Inv.setWays hother (hset.congr (@touchHit_eq cfg _ w))
      rw [Function.update_eq_self] at hinv
      exact hinv
    · simp only [(touchHit_eq _ w w).2]
      refine ⟨fun hv i hi _ => ?_, fun hsound => ?_⟩
      · cases hi
        exact hv
      · cases hf : p.filled (cfg.set a) w with
        | true =>
          have htagk : (known (p.filled (cfg.set a)) (p.state.dc (cfg.set a)) w).tagaddr =
              cfg.tag a := by
            rw [known_of_filled hf, htag]
          have hword := (hset.ok.hit hw htagk).lineIndex
          rw [known_of_filled hf] at hword
          rw [hword]
        | false => exact hsound w rfl hf
  | none =>
    have hvictim : cfg.readVictim (p.state.dc (cfg.set a)) < cfg.nways := readVictim_lt _
    obtain ⟨line, hholds, hrefill⟩ :=
      dcRefill_line p.state.dc (cfg.readVictim (p.state.dc (cfg.set a))) hram
    rw [hrefill]
    refine ⟨?_, rfl, rfl, ?_⟩
    · refine Powered.Inv.setWays hother (SetInv.congr ?_ (touchMiss_eq _ _))
      exact hset.load hvictim (findWay_none hfind) rfl hholds
    · refine iff_of_true ?_ fun _ hc => by cases hc
      simp only [Cache.setWays, Function.update_self, (touchMiss_eq _ _ _).2, hholds.lineIndex]

theorem Powered.Inv.write (h : p.Inv cfg) (henv : env.active = true) (halign : Aligned a n)
    (hram : RamBlock cfg p.state.mem a) (v : Word) :
    (p.step cfg env (.write a v n)).Inv cfg ∧
      p.state.mem.setsimMem a v n = some (dcSimulateWrite cfg env p.state a v n).state.mem ∧
      (dcSimulateWrite cfg env p.state a v n).state.mem.areas = p.state.mem.areas := by
  obtain ⟨M', hmem, hareas, hm⟩ := setsimMem_wordSet (hram a rfl) halign v
  have hset := h _ (cfg.set_lt a)
  have hother : ∀ t < cfg.nsets, t ≠ cfg.set a →
      SetInv cfg t (p.filled t) (p.state.dc t) M'.bytes :=
    fun t ht hne => (h t ht).frame hm fun he => absurd he hne
  simp only [Powered.step, dcSimulateWrite, fill, hmem, bypass_eq, henv, Bool.not_true,
    Bool.false_eq_true, if_false]
  cases hfind : cfg.findWay (p.state.dc (cfg.set a)) (cfg.tag a) with
  | some w =>
    obtain ⟨hw, htag⟩ := findWay_some hfind
    refine ⟨?_, rfl, hareas⟩
    have htouch := hset.congr (@touchHit_eq cfg (p.state.dc (cfg.set a)) w)
    have hhit := htouch.writeHit (n := n) (v := v) hw ((touchHit_eq _ w w).1.trans htag) hm
      (y := { cfg.touchHit (p.state.dc (cfg.set a)) w w with
        line := Function.update (cfg.touchHit (p.state.dc (cfg.set a)) w w).line
          (cfg.lineIndex a 0) (writePart ((cfg.touchHit (p.state.dc (cfg.set a)) w w).line
            (cfg.lineIndex a 0)) a v n) })
      ((touchHit_eq _ w w).1.trans htag) rfl
    have hinv := Powered.Inv.setWays hother hhit
    rw [Function.update_eq_self] at hinv
    exact hinv
  | none =>
    have hvictim : cfg.writeVictim (p.state.dc (cfg.set a)) < cfg.nways := writeVictim_lt _
    have hmiss := findWay_none hfind
    obtain ⟨line, hholds, hrefill⟩ :=
      dcRefill_line p.state.dc (cfg.writeVictim (p.state.dc (cfg.set a)))
        (fun b hb => (Memory.ram_congr hareas).2 (hram b hb))
    simp only [hrefill]
    refine ⟨?_, trivial, hareas⟩
    refine Powered.Inv.setWays hother (SetInv.congr ?_ (touchMiss_eq _ _))
    exact (hset.frame hm fun _ i hi _ => hmiss i hi).load hvictim hmiss rfl hholds

theorem Powered.Inv.sound_of_tag_ne (h : p.Inv cfg) (ha : cfg.tag a ≠ 0) (n : Width) :
    Sound cfg p a n := by
  intro w hfind hf
  obtain ⟨hw, htag⟩ := findWay_some hfind
  exact absurd (htag.symm.trans ((h _ (cfg.set_lt a)).fresh w hw hf)) ha

/-! ### Sequences of accesses -/

/-- A read or a write of RAM. -/
def DcOp.Access (cfg : DcConfig) (M : Memory) (op : DcOp) : Prop :=
  op.OnRam cfg M ∧ ∀ a, op ≠ .inv a

/-- All reads of a sequence are sound. -/
def SoundRun (cfg : DcConfig) (env : DcEnv) (p : Powered) : List DcOp → Prop
  | [] => True
  | .read a n :: ops => Sound cfg p a n ∧ SoundRun cfg env (p.step cfg env (.read a n)) ops
  | .write a v n :: ops => SoundRun cfg env (p.step cfg env (.write a v n)) ops
  | .inv a :: ops => SoundRun cfg env (p.step cfg env (.inv a)) ops

theorem Powered.Inv.run (h : p.Inv cfg) (henv : env.active = true) {ops : List DcOp}
    (hops : ∀ op ∈ ops, op.Access cfg p.state.mem) :
    (dcRun cfg env p.state ops).1 = (directRun p.state.mem ops).1 ↔ SoundRun cfg env p ops := by
  induction ops generalizing p with
  | nil => exact iff_of_true rfl trivial
  | cons op ops ih =>
    obtain ⟨hop, hinv⟩ := hops op (List.mem_cons_self ..)
    have hrest : ∀ op ∈ ops, op.Access cfg p.state.mem :=
      fun op h => hops op (List.mem_cons_of_mem _ h)
    cases op with
    | read a n =>
      obtain ⟨halign, hram⟩ := hop
      obtain ⟨hnext, hbus, hmem, hvalue⟩ := h.read henv hram
      have htail := ih hnext (by
        change ∀ op ∈ ops, op.Access cfg (dcSimulateRead cfg env p.state a n).state.mem
        rw [hmem]
        exact hrest)
      change (dcRun cfg env (dcSimulateRead cfg env p.state a n).state ops).1 =
        (directRun (dcSimulateRead cfg env p.state a n).state.mem ops).1 ↔ _ at htail
      rw [hmem] at htail
      simp only [dcRun, directRun, evalsimMem_of_ram (hram a rfl) halign, Option.getD_some,
        Option.isNone_some, hbus, List.cons.injEq, Prod.mk.injEq, and_true, hvalue, htail,
        SoundRun]
    | write a v n =>
      obtain ⟨halign, hram⟩ := hop
      obtain ⟨hnext, hset, hareas⟩ := h.write henv halign hram v
      have htail := ih hnext fun op hmem =>
        ⟨(DcOp.onRam_congr hareas).2 (hrest op hmem).1, (hrest op hmem).2⟩
      simp only [dcRun, directRun, hset, Option.getD_some, SoundRun]
      exact htail
    | inv a => exact absurd rfl (hinv a)

end

/-- **The data cache from power-up**: for every accepted geometry, with the cache enabled and
without any invalidation, every sequence of aligned reads and writes of RAM reads what it would read
from memory directly, exactly if every read that hits a way no miss has filled yet finds there what
memory holds. -/
theorem dcRun_powerUp (cfg : DcConfig) {env : DcEnv} (henv : env.active = true) (M : Memory)
    {ops : List DcOp} (hops : ∀ op ∈ ops, op.Access cfg M) :
    (dcRun cfg env ⟨zeroDc, M⟩ ops).1 = (directRun M ops).1 ↔
      SoundRun cfg env (powerUp M) ops :=
  Powered.Inv.run (powerUp_inv M) henv hops

/-- A block with another tag is loaded. -/
theorem dcRun_powerUp_small :
    (dcRun smallDcConfig ⟨true, true, false⟩ ⟨zeroDc, Memory.flat fun _ => 1⟩
        [.read 0x40#32 .w4]).1 =
      (directRun (Memory.flat fun _ => 1) [.read 0x40#32 .w4]).1 := by
  refine (dcRun_powerUp smallDcConfig rfl _ fun op hop => ?_).2
    ⟨(powerUp_inv _).sound_of_tag_ne (by decide) .w4, trivial⟩
  obtain rfl := List.mem_singleton.1 hop
  exact ⟨⟨rfl, fun b _ => Memory.flat_ram _ b⟩, fun a ha => nomatch ha⟩

/-- The first word reads as zero, whatever memory holds. -/
theorem dcRun_powerUp_zero :
    (dcRun smallDcConfig ⟨true, true, false⟩ ⟨zeroDc, Memory.flat fun _ => 1⟩
        [.read 0#32 .w4]).1 ≠
      (directRun (Memory.flat fun _ => 1) [.read 0#32 .w4]).1 := by
  decide

end Cache
end Or1ksim
