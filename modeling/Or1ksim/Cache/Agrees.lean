import Or1ksim.Cache.Transparent

/-!
# A block of the data cache

One access looks at one block only.  Where a set may hold a block twice, or blocks of other
addresses may be wrong, what counts is the line that the access finds.

* `Agrees` — the line an address hits, if any, holds its block;
* `Agrees.read`, `Agrees.write` — accesses of such a block are those of memory;
* `Agrees.read_write` — **what was written is read back**.
-/

namespace Or1ksim
namespace Cache

open DcConfig

/-- The cache is looked at: it is present and enabled and the page may be cached. -/
def DcEnv.active (env : DcEnv) : Bool := env.dcp && env.dce && !env.dataCi

/-- The line an address hits, if any, holds its block. -/
def Agrees (cfg : DcConfig) (S : DcState) (a : Addr) : Prop :=
  ∀ w, cfg.findWay (S.dc (cfg.set a)) (cfg.tag a) = some w →
    Holds cfg S.mem.bytes a (S.dc (cfg.set a) w).line

/-- The block of an address is RAM. -/
def RamBlock (cfg : DcConfig) (M : Memory) (a : Addr) : Prop :=
  ∀ b : Addr, b.toNat / cfg.blocksize = a.toNat / cfg.blocksize → M.Ram b

/-! ### Memory -/

section

variable {n : Width}

theorem readfunc_writefunc_of_ne (m : Bytes) (r q : MemArea) {a b : Addr} (ha : Aligned a n)
    (hb : Aligned b n) (hne : b ≠ a) (v : Word) :
    Memory.readfunc (Memory.writefunc m r a v n) q b n = Memory.readfunc m q b n := by
  have hnat : b.toNat ≠ a.toNat := fun h => hne (BitVec.eq_of_toNat_eq h)
  unfold Memory.readfunc Memory.writefunc
  by_cases hr : 0 < r.delayw
  · rw [if_pos hr]
    refine if_congr Iff.rfl ?_ rfl
    cases n with
    | w1 =>
      have hhost : hostByte b ≠ hostByte a := by
        intro h
        have hsame := congrArg BitVec.toNat h
        rw [toNat_hostByte, toNat_hostByte] at hsame
        omega
      simp only [simmemRead8, simmemWrite8, Function.update_of_ne hhost]
    -- Two halfwords of the host are apart in all four pairs of their bytes.
    | w2 =>
      have ha : a.toNat % 2 = 0 := ha
      have hb : b.toNat % 2 = 0 := hb
      have hxa := toNat_xor_two ha
      have hxb := toNat_xor_two hb
      have hsucc : ∀ x : Addr, x.toNat % 2 = 0 → (x + 1#32).toNat = x.toNat + 1 := by
        intro x hx
        rw [BitVec.toNat_add]
        change (x.toNat + 1) % 2 ^ 32 = _
        omega
      have hxa1 := hsucc (a ^^^ 2#32) (by omega)
      have hxb1 := hsucc (b ^^^ 2#32) (by omega)
      have h00 : b ^^^ 2#32 ≠ a ^^^ 2#32 := fun h => by
        have := congrArg BitVec.toNat h
        omega
      have h01 : b ^^^ 2#32 ≠ (a ^^^ 2#32) + 1#32 := fun h => by
        have := congrArg BitVec.toNat h
        omega
      have h10 : (b ^^^ 2#32) + 1#32 ≠ a ^^^ 2#32 := fun h => by
        have := congrArg BitVec.toNat h
        omega
      have h11 : (b ^^^ 2#32) + 1#32 ≠ (a ^^^ 2#32) + 1#32 := fun h => by
        have := congrArg BitVec.toNat h
        omega
      simp only [simmemRead16, simmemWrite16, if_neg h00, if_neg h01, if_neg h10, if_neg h11]
    | w4 =>
      have ha : a.toNat % 4 = 0 := ha
      have hb : b.toNat % 4 = 0 := hb
      have hword : wordBase b ≠ wordBase a := by
        rw [Ne, wordBase_eq_iff]
        omega
      have hwrite := wordAt_simmemWrite32 m ha b v
      rw [if_neg hword, wordAt, wordAt, wordBase_of_aligned hb] at hwrite
      exact hwrite
  · rw [if_neg hr]

theorem evalsimMem_setsimMem_of_ne (M : Memory) {a b : Addr} (ha : Aligned a n)
    (hb : Aligned b n) (hne : b ≠ a) (v : Word) :
    ((M.setsimMem a v n).getD M).evalsimMem b n = M.evalsimMem b n := by
  unfold Memory.setsimMem
  cases M.verifyMemoryarea a with
  | none => rfl
  | some r =>
    rw [Option.map_some, Option.getD_some, Memory.evalsimMem, Memory.evalsimMem,
      Memory.verifyMemoryarea_with_bytes]
    exact congrArg (Option.map · _) (funext fun q => readfunc_writefunc_of_ne _ r q ha hb hne v)

end

/-! ### Accesses -/

section

variable {cfg : DcConfig} {env : DcEnv} {S : DcState} {M : Memory} {D : Dc} {a : Addr} {v : Word}
  {n : Width} {ways ways' : ℕ → DcWay} {t : Addr} {w : ℕ}

theorem bypass_eq (env : DcEnv) : (!env.dcp || !env.dce || env.dataCi) = !env.active := by
  unfold DcEnv.active
  cases env.dcp <;> cases env.dce <;> cases env.dataCi <;> rfl

theorem findWay_congr (h : ∀ i, (ways' i).tagaddr = (ways i).tagaddr) :
    cfg.findWay ways' t = cfg.findWay ways t := by
  unfold DcConfig.findWay
  simp only [h]

theorem findWay_unique (hw : w < cfg.nways) (htag : (ways w).tagaddr = t)
    (hother : ∀ i < cfg.nways, i ≠ w → (ways i).tagaddr ≠ t) : cfg.findWay ways t = some w := by
  cases hfind : cfg.findWay ways t with
  | none => exact absurd htag (findWay_none hfind w hw)
  | some i =>
    obtain ⟨hi, hit⟩ := findWay_some hfind
    by_contra hne
    exact hother i hi (fun he => hne (congrArg some he)) hit

theorem Coherent.agrees (h : Coherent cfg S.dc S.mem.bytes) (a : Addr) : Agrees cfg S a := by
  intro w hfind
  obtain ⟨hw, htag⟩ := findWay_some hfind
  exact (h _ (cfg.set_lt a)).hit hw htag

theorem dcRefill_agrees (hw : w < cfg.nways)
    (hmiss : cfg.findWay (D (cfg.set a)) (cfg.tag a) = none) (hram : RamBlock cfg M a) :
    ∃ D', dcRefill cfg D M a w = (D', true) ∧ Agrees cfg ⟨D', M⟩ a ∧
      (D' (cfg.set a) w).line (cfg.lineIndex a 0) = wordAt M.bytes a := by
  obtain ⟨line, hholds, hrefill⟩ := dcRefill_line D w hram
  have hways : (Function.update (D (cfg.set a)) w
      { D (cfg.set a) w with line := line, tagaddr := cfg.tag a }) w =
      { D (cfg.set a) w with line := line, tagaddr := cfg.tag a } := Function.update_self ..
  refine ⟨_, hrefill, ?_, ?_⟩
  -- No other way had the tag, so the victim is what is found now.
  · intro i hfind
    dsimp only at hfind ⊢
    rw [Cache.setWays, Function.update_self] at hfind ⊢
    rw [findWay_congr fun i => (touchMiss_eq _ w i).1] at hfind
    rw [findWay_unique hw (by rw [hways]) fun i hi hne => by
      rw [Function.update_of_ne hne]
      exact findWay_none hmiss i hi] at hfind
    cases hfind
    rw [(touchMiss_eq _ w w).2, hways]
    exact hholds
  · rw [Cache.setWays, Function.update_self, (touchMiss_eq _ w w).2, hways]
    exact hholds.lineIndex

theorem Agrees.read (h : env.active = true → Agrees cfg S a) (halign : Aligned a n)
    (hram : RamBlock cfg S.mem a) :
    (dcSimulateRead cfg env S a n).value = readPart (wordAt S.mem.bytes a) a n ∧
      (dcSimulateRead cfg env S a n).busErr = false ∧
      (dcSimulateRead cfg env S a n).state.mem = S.mem := by
  have hdirect := evalsimMem_of_ram (hram a rfl) halign
  unfold dcSimulateRead
  rw [bypass_eq]
  cases hactive : env.active with
  | false =>
    rw [Bool.not_false, if_pos rfl, hdirect]
    exact ⟨rfl, rfl, rfl⟩
  | true =>
    rw [Bool.not_true, if_neg Bool.false_ne_true]
    cases hfind : cfg.findWay (S.dc (cfg.set a)) (cfg.tag a) with
    | some w =>
      have hline := (h hactive w hfind).lineIndex
      refine ⟨?_, rfl, rfl⟩
      simp only [(touchHit_eq _ w w).2, hline]
    | none =>
      obtain ⟨D', hrefill, -, hword⟩ :=
        dcRefill_agrees (readVictim_lt (S.dc (cfg.set a))) hfind hram
      simp only [hrefill, hword]
      exact ⟨trivial, trivial, trivial⟩

/-- A write of a block the cache agrees on writes memory and leaves it in agreement. -/
theorem Agrees.write (h : env.active = true → Agrees cfg S a) (halign : Aligned a n)
    (hram : RamBlock cfg S.mem a) (v : Word) :
    S.mem.setsimMem a v n = some (dcSimulateWrite cfg env S a v n).state.mem ∧
      (dcSimulateWrite cfg env S a v n).busErr = false ∧
      (env.active = true → Agrees cfg (dcSimulateWrite cfg env S a v n).state a) := by
  obtain ⟨M', hset, hareas, hm⟩ := setsimMem_wordSet (hram a rfl) halign v
  unfold dcSimulateWrite
  rw [hset, bypass_eq]
  cases hactive : env.active with
  | false =>
    exact ⟨rfl, rfl, fun hc => absurd hc Bool.false_ne_true⟩
  | true =>
    simp only [Bool.not_true, Bool.false_eq_true, if_false]
    cases hfind : cfg.findWay (S.dc (cfg.set a)) (cfg.tag a) with
    | some w =>
      have hholds := h hactive w hfind
      have htags : ∀ line i, (Function.update (cfg.touchHit (S.dc (cfg.set a)) w) w
          { cfg.touchHit (S.dc (cfg.set a)) w w with line := line } i).tagaddr =
            (S.dc (cfg.set a) i).tagaddr := by
        intro line i
        by_cases hiw : i = w
        · rw [hiw, Function.update_self]
          exact (touchHit_eq _ w w).1
        · rw [Function.update_of_ne hiw]
          exact (touchHit_eq _ w i).1
      refine ⟨rfl, rfl, fun _ i hi => ?_⟩
      dsimp only at hi ⊢
      rw [Cache.setWays, Function.update_self] at hi ⊢
      rw [findWay_congr (htags _), hfind] at hi
      cases hi
      rw [Function.update_self]
      simp only [(touchHit_eq _ w w).2, hholds.lineIndex]
      exact hholds.write hm
    | none =>
      obtain ⟨D', hrefill, hagrees, -⟩ :=
        dcRefill_agrees (M := M') (writeVictim_lt (S.dc (cfg.set a))) hfind
          (fun b hb => (Memory.ram_congr hareas).2 (hram b hb))
      simp only [hrefill]
      exact ⟨trivial, rfl, fun _ => hagrees⟩

/-! ### Reading back -/

/-- The bits an access of a width carries. -/
def widthMask : Width → Word
  | .w1 => 0xff
  | .w2 => 0xffff
  | .w4 => 0xffffffff

theorem shift_field (x v : Word) {k l : ℕ} (hk : k + l ≤ 32) :
    (((x &&& ~~~(Bits.lowMask 32 l <<< k)) ||| ((v &&& Bits.lowMask 32 l) <<< k)) >>> k) &&&
      Bits.lowMask 32 l = v &&& Bits.lowMask 32 l := by
  ext i hi
  by_cases hil : i < l
  · have hki : k + i < 32 := by omega
    simp [hil, hki]
  · simp [hil]

theorem readPart_writePart (x v : Word) (a : Addr) (n : Width) :
    readPart (writePart x a v n) a n = v &&& widthMask n := by
  cases n with
  | w1 =>
    have hlt : (a &&& 3#32).toNat < 4 := by
      rw [toNat_and_three]
      omega
    exact shift_field x v (k := 8 * (3 - (a &&& 3#32).toNat)) (l := 8) (by omega)
  | w2 =>
    unfold readPart writePart
    by_cases h : a &&& 2#32 ≠ 0#32
    · simp only [if_pos h]
      exact shift_field x v (k := 0) (l := 16) (by decide)
    · simp only [if_neg h]
      exact shift_field x v (k := 16) (l := 16) (by decide)
  | w4 => exact (BitVec.and_allOnes).symm

/-- **What was written is read back**: over a block the cache agrees on, a write and a read of the
same width give the value written, and memory is written once. -/
theorem Agrees.read_write (h : env.active = true → Agrees cfg S a) (halign : Aligned a n)
    (hram : RamBlock cfg S.mem a) (v : Word) :
    (dcSimulateRead cfg env (dcSimulateWrite cfg env S a v n).state a n).value =
      v &&& widthMask n := by
  obtain ⟨M', hset, hareas, hwords⟩ := setsimMem_of_ram (v := v) (hram a rfl) halign
  obtain ⟨hmem, -, hagrees⟩ := Agrees.write h halign hram v
  obtain rfl := Option.some.inj (hset.symm.trans hmem)
  have hblock : RamBlock cfg (dcSimulateWrite cfg env S a v n).state.mem a := fun b hb =>
    (Memory.ram_congr hareas).2 (hram b hb)
  rw [(Agrees.read hagrees halign hblock).1, hwords, if_pos rfl, readPart_writePart]

end

end Cache
end Or1ksim
