import Or1ksim.Uart.Frame

/-!
# Which interrupt is identified

The interrupts that are pending and enabled, and the one that `iir` names.

* `highest` — the interrupt of highest priority that is pending and enabled;
* `Identifies` — `iir` names it, and the line has been reported;
* `raiseInt_identifies` — raising an interrupt keeps this;
* `uartNextInt_identifies` — looking for the next one does too, unless it is a lower one;
* `Event.Falls` — an event that makes a lower interrupt the highest one;
* `iir_identifies` — **interrupts are identified** in every run without such events.
-/

namespace Or1ksim
namespace Uart

/-! ### Priorities -/

/-- The interrupts, highest priority first, and the bits that enable them. -/
def sources : List (Byte × ℕ) :=
  [(iirRLSI, ierRLSI), (iirRDI, ierRDI), (iirCTI, ierRDI), (iirTHRI, ierTHRI), (iirMSI, ierMSI)]

theorem rlsi_mem_sources : (iirRLSI, ierRLSI) ∈ sources := by decide

theorem rdi_mem_sources : (iirRDI, ierRDI) ∈ sources := by decide

theorem cti_mem_sources : (iirCTI, ierRDI) ∈ sources := by decide

theorem thri_mem_sources : (iirTHRI, ierTHRI) ∈ sources := by decide

theorem msi_mem_sources : (iirMSI, ierMSI) ∈ sources := by decide

/-- The interrupt of highest priority that is pending and enabled. -/
def highest (ints : BitVec 32) (ier : Byte) : Byte :=
  ((sources.find? fun x => ints.getLsbD x.1.toNat && ier.getLsbD x.2).map Prod.fst).getD iirNoInt

/-- The priority of what `iir` names. -/
def rank (iir : Byte) : ℕ :=
  if iir = iirRLSI then 5
  else if iir = iirRDI then 4
  else if iir = iirCTI then 3
  else if iir = iirTHRI then 2
  else if iir = iirMSI then 1
  else 0

/-- The interrupt is no longer pending. -/
def cleared (ints : BitVec 32) (intr : Byte) : BitVec 32 :=
  ints &&& ~~~BitVec.twoPow 32 intr.toNat

/-- The interrupt is pending. -/
def pending (ints : BitVec 32) (intr : Byte) : BitVec 32 := ints ||| BitVec.twoPow 32 intr.toNat

/-- From `i` to `j` the highest interrupt changes to a lower one, though there still is one. -/
def Falls (i j : Byte) : Prop := j ≠ iirNoInt ∧ rank j < rank i

/-- Clearing the interrupt makes a lower one the highest. -/
def FallsBy (ints : BitVec 32) (ier : Byte) (intr : Byte) : Prop :=
  Falls (highest ints ier) (highest (cleared ints intr) ier)

/-- `highest`, by which of the interrupts are pending and enabled. -/
def pick (rlsi rdi cti thri msi : Bool) : Byte :=
  if rlsi then iirRLSI else if rdi then iirRDI else if cti then iirCTI else if thri then iirTHRI
  else if msi then iirMSI else iirNoInt

theorem find_sources (p : Byte × ℕ → Bool) :
    ((sources.find? p).map Prod.fst).getD iirNoInt =
      pick (p (iirRLSI, ierRLSI)) (p (iirRDI, ierRDI)) (p (iirCTI, ierRDI)) (p (iirTHRI, ierTHRI))
        (p (iirMSI, ierMSI)) := by
  unfold sources
  simp only [List.find?_cons, List.find?_nil]
  cases p (iirRLSI, ierRLSI)
  · cases p (iirRDI, ierRDI)
    · cases p (iirCTI, ierRDI)
      · cases p (iirTHRI, ierTHRI)
        · cases p (iirMSI, ierMSI) <;> rfl
        · rfl
      · rfl
    · rfl
  · rfl

theorem highest_eq_pick (ints : BitVec 32) (ier : Byte) :
    highest ints ier = pick (ints.getLsbD 6 && ier.getLsbD 2) (ints.getLsbD 4 && ier.getLsbD 0)
      (ints.getLsbD 12 && ier.getLsbD 0) (ints.getLsbD 2 && ier.getLsbD 1)
      (ints.getLsbD 0 && ier.getLsbD 3) :=
  find_sources fun x => ints.getLsbD x.1.toNat && ier.getLsbD x.2

theorem getLsbD_twoPow_of_lt (i : ℕ) {k : ℕ} (hk : k < 32) :
    (BitVec.twoPow 32 i).getLsbD k = decide (i = k) := by
  rw [BitVec.getLsbD_twoPow]
  by_cases hik : i = k
  · rw [decide_eq_true hik, decide_eq_true (hik ▸ hk)]
    rfl
  · rw [decide_eq_false hik, Bool.and_false]

theorem getLsbD_pending (ints : BitVec 32) (intr : Byte) {k : ℕ} (hk : k < 32) :
    (pending ints intr).getLsbD k = (ints.getLsbD k || decide (intr.toNat = k)) := by
  rw [pending, BitVec.getLsbD_or, getLsbD_twoPow_of_lt _ hk]

theorem getLsbD_cleared (ints : BitVec 32) (intr : Byte) {k : ℕ} (hk : k < 32) :
    (cleared ints intr).getLsbD k = (ints.getLsbD k && !decide (intr.toNat = k)) := by
  rw [cleared, BitVec.getLsbD_and, BitVec.getLsbD_not, getLsbD_twoPow_of_lt _ hk,
    decide_eq_true hk, Bool.true_and]

/-- An interrupt that is raised becomes the highest one, unless it is disabled or there is a higher
one. -/
theorem highest_pending {intr : Byte} {enable : ℕ} (h : (intr, enable) ∈ sources)
    (ints : BitVec 32) (ier : Byte) :
    highest (pending ints intr) ier =
      bif ier.getLsbD enable && (rank (highest ints ier)).ble (rank intr) then intr
      else highest ints ier := by
  rw [highest_eq_pick, highest_eq_pick]
  simp only [getLsbD_pending, Nat.reduceLT]
  generalize ints.getLsbD 6 = i₆, ints.getLsbD 4 = i₄, ints.getLsbD 12 = i₁₂, ints.getLsbD 2 = i₂,
    ints.getLsbD 0 = i₀
  simp only [sources, List.mem_cons, Prod.mk.injEq, List.not_mem_nil, or_false] at h
  rcases h with ⟨rfl, rfl⟩ | ⟨rfl, rfl⟩ | ⟨rfl, rfl⟩ | ⟨rfl, rfl⟩ | ⟨rfl, rfl⟩
  all_goals
    simp only [ierRLSI, ierRDI, ierTHRI, ierMSI]
    generalize ier.getLsbD 0 = e₀, ier.getLsbD 1 = e₁, ier.getLsbD 2 = e₂, ier.getLsbD 3 = e₃
    revert i₆ i₄ i₁₂ i₂ i₀ e₀ e₁ e₂ e₃
    decide

/-- Clearing an interrupt that is not the highest one changes nothing. -/
theorem highest_cleared {intr : Byte} {enable : ℕ} (h : (intr, enable) ∈ sources)
    {ints : BitVec 32} {ier : Byte} (hne : intr ≠ highest ints ier) :
    highest (cleared ints intr) ier = highest ints ier := by
  revert hne
  rw [highest_eq_pick, highest_eq_pick]
  simp only [getLsbD_cleared, Nat.reduceLT]
  generalize ints.getLsbD 6 = i₆, ints.getLsbD 4 = i₄, ints.getLsbD 12 = i₁₂, ints.getLsbD 2 = i₂,
    ints.getLsbD 0 = i₀
  simp only [sources, List.mem_cons, Prod.mk.injEq, List.not_mem_nil, or_false] at h
  rcases h with ⟨rfl, rfl⟩ | ⟨rfl, rfl⟩ | ⟨rfl, rfl⟩ | ⟨rfl, rfl⟩ | ⟨rfl, rfl⟩
  all_goals
    generalize ier.getLsbD 0 = e₀, ier.getLsbD 1 = e₁, ier.getLsbD 2 = e₂, ier.getLsbD 3 = e₃
    revert i₆ i₄ i₁₂ i₂ i₀ e₀ e₁ e₂ e₃
    decide

/-- What `iir` may name. -/
def codes : List Byte := iirNoInt :: sources.map Prod.fst

theorem highest_mem_codes (ints : BitVec 32) (ier : Byte) : highest ints ier ∈ codes := by
  have hpick : ∀ rlsi rdi cti thri msi : Bool, pick rlsi rdi cti thri msi ∈ codes := by decide
  rw [highest_eq_pick]
  exact hpick ..

theorem ne_noInt_of_mem_sources {intr : Byte} {enable : ℕ} (h : (intr, enable) ∈ sources) :
    intr ≠ iirNoInt := by
  revert h
  simp only [sources, List.mem_cons, Prod.mk.injEq, List.not_mem_nil, or_false]
  rintro (⟨rfl, -⟩ | ⟨rfl, -⟩ | ⟨rfl, -⟩ | ⟨rfl, -⟩ | ⟨rfl, -⟩)
  all_goals decide

/-! ### Raising and clearing -/

/-- `iir` names the interrupt of highest priority that is pending and enabled, and while there is
one the line of the device has been reported since it was last cleared. -/
structure Identifies (s : State) : Prop where
  iir : s.iir = highest s.ints s.ier
  reported : s.iir ≠ iirNoInt → s.reported = true

/-- An interrupt gives way to those of at least its priority. -/
def Yields (intr : Byte) (yields : Byte → Bool) : Prop :=
  ∀ i ∈ codes, yields i = (rank i).ble (rank intr)

section Raise

variable {s t : State} {intr : Byte} {enable : ℕ} {yields : Byte → Bool}

theorem Identifies.mem_codes (h : Identifies s) : s.iir ∈ codes := by
  rw [h.iir]
  exact highest_mem_codes _ _

/-- What has nothing to do with interrupts keeps them identified. -/
theorem Identifies.of_eq (h : Identifies s) (hints : t.ints = s.ints) (hier : t.ier = s.ier)
    (hiir : t.iir = s.iir) (hreported : t.reported = s.reported) : Identifies t := by
  refine ⟨?_, fun hne => ?_⟩
  · rw [hiir, hints, hier]
    exact h.iir
  · rw [hreported]
    exact h.reported (hiir ▸ hne)

theorem raiseInt_eq (intr : Byte) (enable : ℕ) (yields : Byte → Bool) (s : State) :
    raiseInt intr enable yields s =
      bif s.ier.getLsbD enable && yields s.iir then
        reportInterrupt { s with ints := pending s.ints intr, iir := intr }
      else { s with ints := pending s.ints intr } := by
  unfold raiseInt
  dsimp only
  cases s.ier.getLsbD enable with
  | false => rfl
  | true => cases yields s.iir <;> rfl

theorem raiseInt_identifies (hsrc : (intr, enable) ∈ sources) (hyields : Yields intr yields)
    (h : Identifies s) : Identifies (raiseInt intr enable yields s) := by
  have htop := highest_pending hsrc s.ints s.ier
  rw [← h.iir, ← hyields _ h.mem_codes] at htop
  rw [raiseInt_eq]
  cases hgive : s.ier.getLsbD enable && yields s.iir with
  | false =>
    rw [hgive, cond_false] at htop
    exact ⟨htop.symm, h.reported⟩
  | true =>
    rw [hgive, cond_true] at htop
    exact ⟨htop.symm, fun _ => rfl⟩

theorem pending_of_getLsbD {ints : BitVec 32} (h : ints.getLsbD intr.toNat = true) :
    pending ints intr = ints := by
  refine BitVec.eq_of_getLsbD_eq fun k hk => ?_
  rw [getLsbD_pending _ _ hk]
  by_cases hik : intr.toNat = k
  · rw [← hik, h, Bool.true_or]
  · rw [decide_eq_false hik, Bool.or_false]

theorem raiseInt_ints (h : s.active intr enable = true) :
    (raiseInt intr enable yields s).ints = s.ints ∧
      (raiseInt intr enable yields s).ier = s.ier := by
  have hpend := pending_of_getLsbD (Bool.and_eq_true_iff.1 h).1
  rw [raiseInt_eq]
  cases s.ier.getLsbD enable && yields s.iir with
  | false => exact ⟨hpend, rfl⟩
  | true => exact ⟨hpend, rfl⟩

/-- Raising the highest interrupt identifies it, unless `iir` names a higher one still. -/
theorem raiseInt_highest (hsrc : (intr, enable) ∈ sources) (hyields : Yields intr yields)
    (hmem : s.iir ∈ codes) (hactive : s.active intr enable = true)
    (htop : highest s.ints s.ier = intr) (hfalls : ¬Falls s.iir (highest s.ints s.ier)) :
    Identifies (raiseInt intr enable yields s) := by
  rw [htop] at hfalls
  obtain ⟨hpending, henable⟩ := Bool.and_eq_true_iff.1 hactive
  have hrank : rank s.iir ≤ rank intr := not_lt.1 fun hlt =>
    hfalls ⟨ne_noInt_of_mem_sources hsrc, hlt⟩
  have hyield : yields s.iir = true := (hyields _ hmem).trans (Nat.ble_eq_true_of_le hrank)
  rw [raiseInt_eq, henable, hyield]
  refine ⟨?_, fun _ => rfl⟩
  change intr = highest (pending s.ints intr) s.ier
  rw [pending_of_getLsbD hpending, htop]

end Raise

theorem yields_msi : Yields iirMSI fun iir => iir.getLsbD 0 || iir = iirMSI := by
  unfold Yields
  decide

theorem yields_thri : Yields iirTHRI fun iir => iir.getLsbD 0 || iir = iirMSI || iir = iirTHRI := by
  unfold Yields
  decide

theorem yields_cti : Yields iirCTI fun iir => iir ≠ iirRLSI && iir ≠ iirRDI := by
  unfold Yields
  decide

theorem yields_rdi : Yields iirRDI fun iir => iir ≠ iirRLSI := by
  unfold Yields
  decide

theorem yields_rlsi : Yields iirRLSI fun _ => true := by
  unfold Yields
  decide

section Next

variable {s t : State} {intr : Byte} {enable : ℕ}

theorem uartIntMsi_identifies (h : Identifies s) : Identifies (uartIntMsi s) :=
  raiseInt_identifies msi_mem_sources yields_msi h

theorem uartIntThri_identifies (h : Identifies s) : Identifies (uartIntThri s) :=
  raiseInt_identifies thri_mem_sources yields_thri h

theorem uartIntCti_identifies (h : Identifies s) : Identifies (uartIntCti s) :=
  raiseInt_identifies cti_mem_sources yields_cti h

theorem uartIntRdi_identifies (h : Identifies s) : Identifies (uartIntRdi s) :=
  raiseInt_identifies rdi_mem_sources yields_rdi h

theorem uartIntRlsi_identifies (h : Identifies s) : Identifies (uartIntRlsi s) :=
  raiseInt_identifies rlsi_mem_sources yields_rlsi h

theorem uartCheckRlsi_identifies (h : Identifies s) : Identifies (uartCheckRlsi s) := by
  unfold uartCheckRlsi
  split
  · exact uartIntRlsi_identifies h
  · exact h

theorem uartCheckRdi_identifies (h : Identifies s) : Identifies (uartCheckRdi s) := by
  unfold uartCheckRdi
  split
  · exact uartIntRdi_identifies h
  · exact h

theorem highest_eq_active (s : State) :
    highest s.ints s.ier = pick (s.active iirRLSI ierRLSI) (s.active iirRDI ierRDI)
      (s.active iirCTI ierRDI) (s.active iirTHRI ierTHRI) (s.active iirMSI ierMSI) :=
  highest_eq_pick _ _

/-- Looking for the next interrupt identifies it, unless it is lower than what `iir` names. -/
theorem uartNextInt_identifies (hmem : s.iir ∈ codes)
    (hfalls : ¬Falls s.iir (highest s.ints s.ier)) : Identifies (uartNextInt s) := by
  have htop := highest_eq_active s
  unfold uartNextInt
  cases hrlsi : s.active iirRLSI ierRLSI with
  | true =>
    rw [hrlsi] at htop
    exact raiseInt_highest rlsi_mem_sources yields_rlsi hmem hrlsi htop hfalls
  | false =>
    rw [hrlsi] at htop
    cases hrdi : s.active iirRDI ierRDI with
    | true =>
      rw [hrdi] at htop
      exact raiseInt_highest rdi_mem_sources yields_rdi hmem hrdi htop hfalls
    | false =>
      rw [hrdi] at htop
      cases hcti : s.active iirCTI ierRDI with
      | true =>
        rw [hcti] at htop
        exact raiseInt_highest cti_mem_sources yields_cti hmem hcti htop hfalls
      | false =>
        rw [hcti] at htop
        cases hthri : s.active iirTHRI ierTHRI with
        | true =>
          rw [hthri] at htop
          exact raiseInt_highest thri_mem_sources yields_thri hmem hthri htop hfalls
        | false =>
          rw [hthri] at htop
          cases hmsi : s.active iirMSI ierMSI with
          | true =>
            rw [hmsi] at htop
            exact raiseInt_highest msi_mem_sources yields_msi hmem hmsi htop hfalls
          | false =>
            rw [hmsi] at htop
            exact ⟨htop.symm, fun hne => absurd rfl hne⟩

theorem uartNextInt_ints (s : State) :
    (uartNextInt s).ints = s.ints ∧ (uartNextInt s).ier = s.ier := by
  unfold uartNextInt
  split_ifs with hrlsi hrdi hcti hthri hmsi
  · exact raiseInt_ints hrlsi
  · exact raiseInt_ints hrdi
  · exact raiseInt_ints hcti
  · exact raiseInt_ints hthri
  · exact raiseInt_ints hmsi
  · exact ⟨rfl, rfl⟩

/-- Clearing an interrupt keeps the interrupts identified, unless a lower one is then highest. -/
theorem uartClearInt_identifies (hsrc : (intr, enable) ∈ sources) (hs : Identifies s)
    (hfalls : ¬FallsBy s.ints s.ier intr) (h : uartClearInt s intr = .ok t) :
    Identifies t ∧ t.ints = cleared s.ints intr ∧ t.ier = s.ier := by
  obtain ⟨u, hu, h⟩ := Runs.bind_eq_ok_iff.1 h
  cases h
  have hkeep : u.ints = cleared s.ints intr ∧ u.ier = s.ier ∧ u.iir = s.iir ∧
      u.reported = s.reported := by
    unfold removeCti at hu
    split at hu
    · obtain ⟨q, -, rfl⟩ := schedFindRemove_eq_ok hu
      exact ⟨rfl, rfl, rfl, rfl⟩
    · cases hu
      exact ⟨rfl, rfl, rfl, rfl⟩
  obtain ⟨hints, hier, hiir, hreported⟩ := hkeep
  split
  case isTrue hne =>
    refine ⟨⟨?_, fun hno => ?_⟩, hints, hier⟩
    · rw [hiir, hints, hier, highest_cleared hsrc, hs.iir]
      rw [← hs.iir, ← hiir]
      exact hne
    · rw [hreported]
      exact hs.reported (hiir ▸ hno)
  case isFalse =>
    obtain ⟨hints', hier'⟩ := uartNextInt_ints u
    refine ⟨uartNextInt_identifies (hiir ▸ hs.mem_codes) ?_, hints'.trans hints, hier'.trans hier⟩
    rw [hiir, hints, hier, hs.iir]
    exact hfalls

end Next

/-! ### The device -/

section Device

variable {cfg : Config} {s t : State} {f : Fn} {n : ℕ}

theorem OnlyRecv.identifies (h : OnlyRecv s t) (hs : Identifies s) : Identifies t := by
  rw [h.eq]
  exact hs.of_eq rfl rfl rfl rfl

theorem withSched_identifies {o : Option (Sched.State Fn Unit)} (h : s.withSched o = .ok t)
    (hs : Identifies s) : Identifies t := by
  obtain ⟨q, -, rfl⟩ := withSched_eq_ok h
  exact hs.of_eq rfl rfl rfl rfl

theorem schedAdd_identifies (h : s.schedAdd f n = .ok t) (hs : Identifies s) : Identifies t :=
  withSched_identifies h hs

theorem schedFindRemove_identifies (h : s.schedFindRemove f = .ok t) (hs : Identifies s) :
    Identifies t := withSched_identifies h hs

theorem uartLoopback_identifies (hs : Identifies s) : Identifies (uartLoopback s) := by
  unfold uartLoopback
  split
  · exact hs
  · dsimp only
    split
    · exact uartIntMsi_identifies (hs.of_eq rfl rfl rfl rfl)
    · exact hs.of_eq rfl rfl rfl rfl

theorem uartTxSend_identifies (hs : Identifies s) (h : uartTxSend s = .ok t) : Identifies t := by
  obtain ⟨u, hu, h⟩ := Runs.bind_eq_ok_iff.1 h
  cases h
  have hsched : Identifies u := by
    unfold scheduleChar at hu
    split at hu
    · exact schedAdd_identifies hu (hs.of_eq rfl rfl rfl rfl)
    · exact schedAdd_identifies hu (hs.of_eq rfl rfl rfl rfl)
  split
  · exact uartIntThri_identifies (hsched.of_eq rfl rfl rfl rfl)
  · exact hsched

theorem nextChar_identifies (h : nextChar s = .ok t) (hs : Identifies s) : Identifies t := by
  unfold nextChar at h
  split at h
  · cases h
    exact hs.of_eq rfl rfl rfl rfl
  · exact uartTxSend_identifies hs h

theorem sendChar_identifies (hs : Identifies s) (bitsSend : ℕ) :
    Identifies (sendChar cfg s bitsSend) := by
  unfold sendChar
  dsimp only
  split_ifs
  all_goals exact hs.of_eq rfl rfl rfl rfl

theorem pushRx_identifies (hs : Identifies s) (ch : BitVec 16) : Identifies (pushRx s ch) := by
  unfold pushRx
  dsimp only
  split_ifs
  · exact uartIntRlsi_identifies (hs.of_eq rfl rfl rfl rfl)
  · exact uartCheckRlsi_identifies (hs.of_eq rfl rfl rfl rfl)
  · exact hs.of_eq rfl rfl rfl rfl

theorem uartAddChar_identifies {ch : BitVec 16} (hs : Identifies s)
    (hfalls : ¬FallsBy s.ints s.ier iirCTI) (h : uartAddChar s ch = .ok t) : Identifies t := by
  obtain ⟨u, hu, h⟩ := Runs.bind_eq_ok_iff.1 h
  obtain ⟨v, hv, h⟩ := Runs.bind_eq_ok_iff.1 h
  cases h
  have hset : Identifies { s with lsr := s.lsr ||| 1 } := hs.of_eq rfl rfl rfl rfl
  have hclear := (uartClearInt_identifies cti_mem_sources hset hfalls hu).1
  exact uartCheckRdi_identifies (pushRx_identifies (schedAdd_identifies hv hclear) ch)

theorem not_fallsBy_msi (ints : BitVec 32) (ier : Byte) : ¬FallsBy ints ier iirMSI := by
  have hlow : ∀ j ∈ codes, j ≠ iirNoInt → rank iirMSI ≤ rank j := by decide
  rintro ⟨hno, hlt⟩
  by_cases htop : iirMSI = highest ints ier
  · rw [← htop] at hlt
    exact absurd (hlow _ (highest_mem_codes _ _) hno) (not_le.2 hlt)
  · rw [highest_cleared msi_mem_sources htop] at hlt
    exact lt_irrefl _ hlt

/-- Emptying the receiver makes a lower interrupt the highest one. -/
def RxFalls (ints : BitVec 32) (ier : Byte) : Prop :=
  FallsBy ints ier iirRDI ∨ FallsBy (cleared ints iirRDI) ier iirCTI

theorem clearRx_identifies {u : State} (hu : uartClearInt s iirRDI = .ok u)
    (h : uartClearInt u iirCTI = .ok t) (hs : Identifies s) (hfalls : ¬RxFalls s.ints s.ier) :
    Identifies t := by
  obtain ⟨hfirst, hsecond⟩ := not_or.1 hfalls
  obtain ⟨hident, hints, hier⟩ := uartClearInt_identifies rdi_mem_sources hs hfirst hu
  rw [← hints, ← hier] at hsecond
  exact (uartClearInt_identifies cti_mem_sources hident hsecond h).1

/-! ### Accesses -/

theorem writeTxbuf_identifies {value : Byte} (hs : Identifies s)
    (hfalls : ¬FallsBy s.ints s.ier iirTHRI) (h : writeTxbuf s value = .ok t) : Identifies t := by
  obtain ⟨u, hu, h⟩ := Runs.bind_eq_ok_iff.1 h
  have hput : Identifies u ∧ u.ints = s.ints ∧ u.ier = s.ier := by
    unfold putTxbuf at hu
    dsimp only at hu
    split_ifs at hu
    · have hadd := schedAdd_identifies hu (hs.of_eq rfl rfl rfl rfl)
      obtain ⟨q, -, rfl⟩ := schedAdd_eq_ok hu
      exact ⟨hadd, rfl, rfl⟩
    · cases hu
      exact ⟨hs.of_eq rfl rfl rfl rfl, rfl, rfl⟩
    · cases hu
      exact ⟨hs.of_eq rfl rfl rfl rfl, rfl, rfl⟩
  rw [← hput.2.1, ← hput.2.2] at hfalls
  exact (uartClearInt_identifies thri_mem_sources hput.1 hfalls h).1

/-- What is pending once the FIFO of the transmitter has been emptied, if it is. -/
def intsAfterResetTx (s : State) (value : Byte) : BitVec 32 :=
  if value.getLsbD fcrRTXFI = true ∧ s.fifoLen = 16 then pending s.ints iirTHRI else s.ints

theorem resetTxIf_identifies {value : Byte} (hs : Identifies s) (h : resetTxIf s value = .ok t) :
    Identifies t ∧ t.ints = intsAfterResetTx s value ∧ t.ier = s.ier := by
  unfold resetTxIf at h
  split at h
  case isTrue hreset =>
    unfold resetTx at h
    extract_lets s₁ s₂ at h
    have hfirst : Identifies s₁ := hs.of_eq rfl rfl rfl rfl
    have hsecond : Identifies s₂ ∧ s₂.ints = intsAfterResetTx s value ∧ s₂.ier = s.ier := by
      show Identifies (if s₁.fifoLen = 16 then uartIntThri s₁ else s₁) ∧
        (if s₁.fifoLen = 16 then uartIntThri s₁ else s₁).ints = _ ∧
        (if s₁.fifoLen = 16 then uartIntThri s₁ else s₁).ier = _
      unfold intsAfterResetTx
      by_cases hlen : s.fifoLen = 16
      · rw [if_pos (show s₁.fifoLen = 16 from hlen), if_pos ⟨hreset, hlen⟩]
        refine ⟨uartIntThri_identifies hfirst, ?_, ?_⟩
        all_goals
          rw [uartIntThri, raiseInt_eq]
          cases s₁.ier.getLsbD ierTHRI && _ <;> rfl
      · rw [if_neg (show ¬s₁.fifoLen = 16 from hlen), if_neg fun h => hlen h.2]
        exact ⟨hfirst, rfl, rfl⟩
    have hremove := schedFindRemove_identifies h hsecond.1
    obtain ⟨q, -, rfl⟩ := schedFindRemove_eq_ok h
    exact ⟨hremove, hsecond.2⟩
  case isFalse hreset =>
    cases h
    rw [intsAfterResetTx, if_neg fun h => hreset h.1]
    exact ⟨hs, rfl, rfl⟩

theorem resetFifos_identifies {value : Byte} (hs : Identifies s)
    (hfalls : ¬(value.getLsbD fcrRRXFI = true ∧ RxFalls (intsAfterResetTx s value) s.ier))
    (h : resetFifos s value = .ok t) : Identifies t := by
  obtain ⟨u, hu, h⟩ := Runs.bind_eq_ok_iff.1 h
  obtain ⟨hident, hints, hier⟩ := resetTxIf_identifies hs hu
  rw [← hints, ← hier] at hfalls
  split at h
  case isTrue hreset =>
    obtain ⟨v, hv, h⟩ := Runs.bind_eq_ok_iff.1 h
    exact clearRx_identifies hv h (hident.of_eq rfl rfl rfl rfl) fun hrx => hfalls ⟨hreset, hrx⟩
  case isFalse =>
    cases h
    exact hident

theorem toggleBreak_identifies {value : Byte} (hs : Identifies s)
    (h : toggleBreak s value = .ok t) :
    Identifies t := by
  unfold toggleBreak at h
  split at h
  · obtain ⟨u, hu, h⟩ := Runs.bind_eq_ok_iff.1 h
    have hon : Identifies u := by
      unfold breakOn at hu
      split at hu
      · obtain ⟨v, hv, hu⟩ := Runs.bind_eq_ok_iff.1 hu
        exact schedAdd_identifies hu (schedFindRemove_identifies hv hs)
      · cases hu
        exact hs
    unfold breakOff at h
    split at h
    · obtain ⟨v, hv, h⟩ := Runs.bind_eq_ok_iff.1 h
      exact schedFindRemove_identifies h (schedAdd_identifies hv hon)
    · cases h
      exact hon
  · cases h
    exact hs

theorem readRxbuf_identifies {value : Byte} (hs : Identifies s) (hfalls : ¬RxFalls s.ints s.ier)
    (h : readRxbuf s = .ok (value, t)) : Identifies t := by
  obtain ⟨u, hu, h⟩ := Runs.bind_eq_ok_iff.1 h
  obtain ⟨v, hv, h⟩ := Runs.bind_eq_ok_iff.1 h
  obtain ⟨w, hw, h⟩ := Runs.bind_eq_ok_iff.1 h
  cases h
  have hpop : Identifies (popRx s) ∧ (popRx s).ints = s.ints ∧ (popRx s).ier = s.ier := by
    unfold popRx
    split
    · exact ⟨hs.of_eq rfl rfl rfl rfl, rfl, rfl⟩
    · exact ⟨hs, rfl, rfl⟩
  rw [← hpop.2.1, ← hpop.2.2] at hfalls
  have hclear := clearRx_identifies hu hv hpop.1 hfalls
  unfold recheckRx at hw
  split at hw
  · obtain ⟨x, hx, rfl⟩ := Runs.map_eq_ok_iff.1 hw
    exact uartCheckRdi_identifies (uartCheckRlsi_identifies
      (schedAdd_identifies hx (hclear.of_eq rfl rfl rfl rfl)))
  · cases hw
    exact hclear.of_eq rfl rfl rfl rfl

theorem readIir_identifies {value : Byte} (hs : Identifies s)
    (hfalls : ¬FallsBy s.ints s.ier iirTHRI) (h : readIir s = .ok (value, t)) : Identifies t := by
  unfold readIir at h
  dsimp only at h
  split at h
  · obtain ⟨u, hu, heq⟩ := Runs.map_eq_ok_iff.1 h
    cases heq
    exact (uartClearInt_identifies thri_mem_sources hs hfalls hu).1
  · cases h
    exact hs

theorem readLsr_identifies {value : Byte} (hs : Identifies s)
    (hfalls : ¬FallsBy s.ints s.ier iirRLSI) (h : readLsr s = .ok (value, t)) : Identifies t := by
  obtain ⟨u, hu, heq⟩ := Runs.map_eq_ok_iff.1 h
  cases heq
  have hset : Identifies { s with lsr := s.lsr &&& ~~~0x9e } := hs.of_eq rfl rfl rfl rfl
  exact (uartClearInt_identifies rlsi_mem_sources hset hfalls hu).1

theorem readMsr_identifies {value : Byte} (hs : Identifies s) (h : readMsr s = .ok (value, t)) :
    Identifies t := by
  obtain ⟨u, hu, heq⟩ := Runs.map_eq_ok_iff.1 h
  cases heq
  have hset : Identifies { s with msr := 0 } := hs.of_eq rfl rfl rfl rfl
  exact uartLoopback_identifies
    (uartClearInt_identifies msi_mem_sources hset (not_fallsBy_msi _ _) hu).1

/-! ### Runs -/

/-- The write makes a lower interrupt the highest one. -/
def WriteFalls (s : State) (addr : ℕ) (value : Byte) : Prop :=
  match addr with
  | 0 => s.lcr.getLsbD lcrDLAB = false ∧ FallsBy s.ints s.ier iirTHRI
  | 1 => s.lcr.getLsbD lcrDLAB = false ∧
      Falls (highest s.ints s.ier) (highest s.ints (value &&& 0x0f))
  | 2 => (fcrValue s value).getLsbD fcrRRXFI = true ∧
      RxFalls (if (fcrValue s value).getLsbD fcrRTXFI = true ∧ value.getLsbD fcrFIE = true then
        pending s.ints iirTHRI else s.ints) s.ier
  | _ => False

/-- The read makes a lower interrupt the highest one. -/
def ReadFalls (s : State) (addr : ℕ) : Prop :=
  match addr with
  | 0 => s.lcr.getLsbD lcrDLAB = false ∧ RxFalls s.ints s.ier
  | 2 => FallsBy s.ints s.ier iirTHRI
  | 5 => FallsBy s.ints s.ier iirRLSI
  | _ => False

/-- The event makes a lower interrupt the highest one, though there still is one: it clears or
disables the highest one. -/
def Event.Falls (s : State) : Event → Prop
  | .write addr value => WriteFalls s addr value
  | .read addr => ReadFalls s addr
  | .schedule _ => Sched.headDue s.sched = true ∧
      (s.sched.funcs.head? = some .recvChar ∨ s.sched.funcs.head? = some .recvBreak) ∧
      FallsBy s.ints s.ier iirCTI
  | _ => False

instance (i j : Byte) : Decidable (Falls i j) := inferInstanceAs (Decidable (_ ∧ _))

instance (ints : BitVec 32) (ier intr : Byte) : Decidable (FallsBy ints ier intr) :=
  inferInstanceAs (Decidable (Falls _ _))

instance (ints : BitVec 32) (ier : Byte) : Decidable (RxFalls ints ier) :=
  inferInstanceAs (Decidable (_ ∨ _))

instance (s : State) (value : Byte) : (addr : ℕ) → Decidable (WriteFalls s addr value)
  | 0 | 1 | 2 => inferInstanceAs (Decidable (_ ∧ _))
  | _ + 3 => isFalse id

instance (s : State) : (addr : ℕ) → Decidable (ReadFalls s addr)
  | 0 => inferInstanceAs (Decidable (_ ∧ _))
  | 2 | 5 => inferInstanceAs (Decidable (FallsBy _ _ _))
  | 1 | 3 | 4 | _ + 6 => isFalse id

/-- Whether an event makes a lower interrupt the highest one can be computed. -/
instance (s : State) : (e : Event) → Decidable (e.Falls s)
  | .write _ _ => inferInstanceAs (Decidable (WriteFalls _ _ _))
  | .read _ => inferInstanceAs (Decidable (ReadFalls _ _))
  | .schedule _ => inferInstanceAs (Decidable (_ ∧ _))
  | .vapiRead _ | .otherAdd _ _ | .otherRemove _ | .charge _ => isFalse id

theorem writeRegister_identifies {addr : ℕ} {value : Byte} (hs : Identifies s)
    (hdlab : s.lcr.getLsbD lcrDLAB = false ∨ 1 < addr) (hfalls : ¬WriteFalls s addr value)
    (h : writeRegister s addr value = .ok t) : Identifies t := by
  unfold writeRegister at h
  split at h
  case h_1 =>
    have hlatch := hdlab.resolve_right (by decide)
    exact writeTxbuf_identifies hs (fun hfall => hfalls ⟨hlatch, hfall⟩) h
  case h_2 =>
    cases h
    have hlatch := hdlab.resolve_right (by decide)
    refine uartNextInt_identifies hs.mem_codes fun hfall => hfalls ⟨hlatch, ?_⟩
    rw [← hs.iir]
    exact hfall
  case h_3 =>
    have hlen : (if value.getLsbD fcrFIE = true then 16 else 1) = 16 ↔
        value.getLsbD fcrFIE = true := by
      by_cases hfie : value.getLsbD fcrFIE = true
      · rw [if_pos hfie]
        exact iff_of_true rfl hfie
      · rw [if_neg hfie]
        exact iff_of_false (by decide) hfie
    refine resetFifos_identifies ?_ ?_ h
    · exact hs.of_eq rfl rfl rfl rfl
    · simpa only [intsAfterResetTx, hlen, WriteFalls] using hfalls
  case h_4 =>
    obtain ⟨u, hu, h⟩ := Runs.bind_eq_ok_iff.1 h
    cases h
    exact (toggleBreak_identifies hs hu).of_eq rfl rfl rfl rfl
  case h_5 =>
    cases h
    exact uartLoopback_identifies (hs.of_eq rfl rfl rfl rfl)
  case h_6 =>
    cases h
    exact hs.of_eq rfl rfl rfl rfl
  case h_7 =>
    cases h
    exact hs

theorem uartWriteByte_identifies {addr : ℕ} {value : Byte} (hs : Identifies s)
    (hfalls : ¬WriteFalls s addr value) (h : uartWriteByte s addr value = .ok t) :
    Identifies t := by
  unfold uartWriteByte at h
  split at h
  case isTrue =>
    rcases addr with _ | _ | addr
    · cases h
      exact hs.of_eq rfl rfl rfl rfl
    · cases h
      exact hs.of_eq rfl rfl rfl rfl
    · exact writeRegister_identifies hs (.inr (by omega)) hfalls h
  case isFalse hdlab =>
    exact writeRegister_identifies hs (.inl (Bool.eq_false_iff.2 hdlab)) hfalls h

theorem readRegister_identifies {addr : ℕ} {value : Byte} (hs : Identifies s)
    (hdlab : s.lcr.getLsbD lcrDLAB = false ∨ 1 < addr) (hfalls : ¬ReadFalls s addr)
    (h : readRegister s addr = .ok (value, t)) : Identifies t := by
  unfold readRegister at h
  split at h
  case h_1 =>
    have hlatch := hdlab.resolve_right (by decide)
    exact readRxbuf_identifies hs (fun hfall => hfalls ⟨hlatch, hfall⟩) h
  case h_3 => exact readIir_identifies hs hfalls h
  case h_5 => exact readLsr_identifies hs hfalls h
  case h_6 => exact readMsr_identifies hs h
  all_goals
    cases h
    exact hs

theorem uartReadByte_identifies {addr : ℕ} {value : Byte} (hs : Identifies s)
    (hfalls : ¬ReadFalls s addr) (h : uartReadByte s addr = .ok (value, t)) : Identifies t := by
  unfold uartReadByte at h
  split at h
  case isTrue =>
    rcases addr with _ | _ | addr
    · cases h
      exact hs
    · cases h
      exact hs
    · exact readRegister_identifies hs (.inr (by omega)) hfalls h
  case isFalse hdlab =>
    exact readRegister_identifies hs (.inl (Bool.eq_false_iff.2 hdlab)) hfalls h

theorem uartRecvChar_identifies (hs : Identifies s) (hfalls : ¬FallsBy s.ints s.ier iirCTI)
    (h : uartRecvChar cfg s = .ok t) : Identifies t := by
  obtain ⟨u, hu, h⟩ := Runs.bind_eq_ok_iff.1 h
  have hnext := nextRecv_onlyRecv hu
  refine uartAddChar_identifies (hnext.identifies hs) ?_ h
  rw [hnext.eq]
  exact hfalls

/-- A job keeps the interrupts identified, unless a character arrives that clears a timeout. -/
theorem fn_identifies {input : ChannelRead} (h : f.exec cfg input s = .ok t) (hs : Identifies s)
    (hfalls : f = .recvChar ∨ f = .recvBreak → ¬FallsBy s.ints s.ier iirCTI) : Identifies t := by
  cases f with
  | schedGuard => exact withSched_identifies h hs
  | intCti =>
    cases h
    exact uartIntCti_identifies hs
  | recvBreakStart => exact (uartRecvBreakStart_onlyRecv vapiLoop_onlyRecv h).identifies hs
  | recvBreakStop => exact (uartRecvBreakStop_onlyRecv h).identifies hs
  | recvBreak => exact uartAddChar_identifies hs (hfalls (.inr rfl)) h
  | recvChar => exact uartRecvChar_identifies hs (hfalls (.inl rfl)) h
  | checkChar => exact (uartCheckChar_onlyRecv h).identifies hs
  | vapiCmd => exact (vapiLoop_onlyRecv h).identifies hs
  | charClock => exact nextChar_identifies h (sendChar_identifies hs _)
  | sendBreak => exact nextChar_identifies h (hs.of_eq rfl rfl rfl rfl)
  | txSend => exact uartTxSend_identifies hs h
  | other n =>
    cases h
    exact hs

theorem event_identifies (hs : Identifies s) {e : Event} (hfalls : ¬e.Falls s)
    (h : e.exec cfg s = .ok t) : Identifies t := by
  cases e with
  | write addr value => exact uartWriteByte_identifies hs hfalls h
  | read addr =>
    obtain ⟨⟨value, u⟩, hu, rfl⟩ := Runs.map_eq_ok_iff.1 h
    exact uartReadByte_identifies hs hfalls hu
  | vapiRead data => exact (uartVapiRead_onlyRecv h).identifies hs
  | otherAdd n time => exact schedAdd_identifies h hs
  | otherRemove n => exact schedFindRemove_identifies h hs
  | charge cycles => exact withSched_identifies h hs
  | schedule input =>
    replace h : (if Sched.headDue s.sched then runJob cfg input s else .ok s) = .ok t := h
    split at h
    case isTrue hdue =>
      unfold runJob at h
      split at h
      case h_1 tmp q hpop =>
        have hhead : s.sched.funcs.head? = some tmp.func := by
          rw [Sched.funcs_popJob hpop]
          rfl
        refine fn_identifies h (hs.of_eq rfl rfl rfl rfl) fun hrecv hfall =>
          hfalls ⟨hdue, ?_, hfall⟩
        rw [hhead]
        exact hrecv.imp (congrArg some) (congrArg some)
      case h_2 => cases h
    case isFalse =>
      cases h
      exact hs

theorem uartReset_identifies (h : uartReset cfg s = .ok t) : Identifies t := by
  refine (uartSchedRecvCheck_onlyRecv h).identifies ⟨?_, fun hne => absurd rfl hne⟩
  change iirNoInt = highest 0 0
  decide

/-- **Interrupts are identified**: in every run of accesses, characters and jobs, in which no
access and no character clears or disables the highest interrupt while a lower one is pending and
enabled, `iir` names the interrupt of highest priority that is pending and enabled, and while there
is one the line of the device has been reported since it was last cleared. -/
theorem iir_identifies {q : Sched.State Fn Unit} {s₀ : State} {es : List Event}
    (h₀ : uartReset cfg (powerOn q) = .ok s₀)
    (hkeep : Runs.Along (Event.exec cfg) (fun s e => ¬e.Falls s) s₀ es)
    (h : es.foldlM (Event.exec cfg) s₀ = .ok t) : Identifies t :=
  Runs.foldlM_invariant (fun _ _ _ hs he h => event_identifies hs he h) (uartReset_identifies h₀)
    hkeep h

end Device

/-! ### A lower interrupt -/

/-- Modem status and transmitter interrupts are enabled and both pending; the identification
register is read, which clears the latter. -/
def readThri : List Event := [.write 1 0x0a, .write 4 0x18, .write 2 0x05, .read 2]

/-- The modem status interrupt is pending and enabled, but `iir` still names the other one. -/
theorem readThri_stuck :
    ∃ s₀ t, uartReset plainConfig (powerOn guardOnly) = .ok s₀ ∧
      readThri.foldlM (Event.exec plainConfig) s₀ = .ok t ∧ ¬Identifies t := by
  have hrun : ((uartReset plainConfig (powerOn guardOnly)).bind fun s₀ =>
      (readThri.foldlM (Event.exec plainConfig) s₀).map fun t => (t.iir, t.ints, t.ier)) =
        .ok (iirTHRI, 1, 0x0a) := by decide
  obtain ⟨s₀, hreset, hrun⟩ := Runs.bind_eq_ok_iff.1 hrun
  obtain ⟨t, ht, heq⟩ := Runs.map_eq_ok_iff.1 hrun
  obtain ⟨hiir, hints, hier⟩ : t.iir = iirTHRI ∧ t.ints = 1 ∧ t.ier = 0x0a := by
    simpa only [Prod.mk.injEq] using heq
  refine ⟨s₀, t, hreset, ht, fun hident => ?_⟩
  have htop := hident.iir
  rw [hiir, hints, hier] at htop
  exact absurd htop (by decide)

/-- The same two interrupts are raised, the modem status first. -/
def raiseBoth : List Event := [.write 1 0x0a, .write 4 0x18, .write 2 0x05]

/-- The identification register is read while the lower one is disabled. -/
def raiseThenRead : List Event := raiseBoth ++ [.write 1 0x02, .read 2, .write 1 0x0a]

/-- With both pending `iir` names the higher one, and in the end the lower one. -/
theorem iir_identifies_raiseBoth :
    ∃ s₀ t u, uartReset plainConfig (powerOn guardOnly) = .ok s₀ ∧
      raiseBoth.foldlM (Event.exec plainConfig) s₀ = .ok t ∧ t.ints = 5#32 ∧
      t.iir = iirTHRI ∧ t.reported = true ∧ Identifies t ∧
      raiseThenRead.foldlM (Event.exec plainConfig) s₀ = .ok u ∧
      u.ints = 1#32 ∧ u.iir = iirMSI ∧ u.reported = true ∧ Identifies u := by
  have hrun : (uartReset plainConfig (powerOn guardOnly)).toOption.any (fun s₀ =>
      decide (Runs.Along (Event.exec plainConfig) (fun s e => ¬e.Falls s) s₀
        raiseThenRead) &&
      (raiseBoth.foldlM (Event.exec plainConfig) s₀).toOption.any (fun t =>
        t.ints == 5#32 && t.iir == iirTHRI && t.reported) &&
      (raiseThenRead.foldlM (Event.exec plainConfig) s₀).toOption.any
        fun u => u.ints == 1#32 && u.iir == iirMSI && u.reported) = true := by
    decide
  obtain ⟨s₀, hreset, hcheck⟩ := Runs.exists_ok_of_any hrun
  simp only [Bool.and_eq_true, decide_eq_true_eq] at hcheck
  obtain ⟨⟨hkeep, hfirst⟩, hsecond⟩ := hcheck
  obtain ⟨t, ht, hpending⟩ := Runs.exists_ok_of_any hfirst
  obtain ⟨u, hu, hlower⟩ := Runs.exists_ok_of_any hsecond
  simp only [Bool.and_eq_true, beq_iff_eq] at hpending hlower
  exact ⟨s₀, t, u, hreset, ht, hpending.1.1, hpending.1.2, hpending.2,
    iir_identifies hreset (hkeep.of_prefix (List.prefix_append _ _)) ht, hu,
    hlower.1.1, hlower.1.2, hlower.2, iir_identifies hreset hkeep hu⟩

end Uart
end Or1ksim
