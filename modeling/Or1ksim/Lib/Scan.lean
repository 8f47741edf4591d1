import Mathlib.Algebra.Group.Int.Defs
import Mathlib.Algebra.Group.Nat.Defs
import Mathlib.Data.Nat.Notation

/-!
# Number scanning of the C library

The pieces of `sscanf` and `strtol` that read numbers out of text, on lists of characters.
-/

namespace Or1ksim
namespace Scan

/-- White space as the C library skips it. -/
def isSpace (c : Char) : Bool :=
  c = ' ' || c = '\t' || c = '\n' || c = '\r' || c.toNat = 11 || c.toNat = 12

/-- `isalpha` in the C locale. -/
def isAlpha (c : Char) : Bool := ('a' ≤ c && c ≤ 'z') || ('A' ≤ c && c ≤ 'Z')

/-- Value of a hexadecimal digit. -/
def hexDigit (c : Char) : Option ℕ :=
  if '0' ≤ c ∧ c ≤ '9' then some (c.toNat - 48)
  else if 'a' ≤ c ∧ c ≤ 'f' then some (c.toNat - 87)
  else if 'A' ≤ c ∧ c ≤ 'F' then some (c.toNat - 55)
  else none

/-- Match one literal character. -/
def scanLit (c : Char) : List Char → Option (List Char)
  | d :: cs => if d = c then some cs else none
  | [] => none

/-- The `%1d` conversion: one decimal digit after white space (a sign would use up the width). -/
def scanD1 (cs : List Char) : Option (ℕ × List Char) :=
  match cs.dropWhile isSpace with
  | c :: cs => if '0' ≤ c ∧ c ≤ '9' then some (c.toNat - 48, cs) else none
  | [] => none

/-- Read hexadecimal digits onto the accumulated value. -/
def scanHexDigits : List Char → ℕ → ℕ × List Char
  | c :: cs, n =>
    match hexDigit c with
    | some d => scanHexDigits cs (16 * n + d)
    | none => (n, c :: cs)
  | [], n => (n, [])

/-- Drop a sign, reporting whether it was a minus. -/
def scanSign : List Char → Bool × List Char
  | '-' :: cs => (true, cs)
  | '+' :: cs => (false, cs)
  | cs => (false, cs)

/-- Drop a hexadecimal marker. -/
def dropHexMarker : List Char → List Char
  | '0' :: 'x' :: cs => cs
  | '0' :: 'X' :: cs => cs
  | cs => cs

/-- The `%lx` conversion into an `unsigned long` of `w` bits; a value out of range saturates. -/
def scanLx (w : ℕ) (cs : List Char) : Option (BitVec w × List Char) :=
  let (neg, cs) := scanSign (cs.dropWhile isSpace)
  let cs := dropHexMarker cs
  if (cs.head?.bind hexDigit).isNone then none
  else
    let (n, rest) := scanHexDigits cs 0
    let v := if 2 ^ w ≤ n then BitVec.allOnes w
      else if neg then -BitVec.ofNat w n else BitVec.ofNat w n
    some (v, rest)

/-- `strtol (s, NULL, 16)` as a `w`-bit `long`: zero without digits, saturating out of range. -/
def strtol16 (w : ℕ) (cs : List Char) : BitVec w :=
  let (neg, cs) := scanSign (cs.dropWhile isSpace)
  let n := (scanHexDigits (dropHexMarker cs) 0).1
  if neg then -BitVec.ofNat w (min n (2 ^ (w - 1))) else BitVec.ofNat w (min n (2 ^ (w - 1) - 1))

/-- A decimal digit. -/
def isDigit (c : Char) : Bool := '0' ≤ c && c ≤ '9'

/-- Read decimal digits onto the accumulated value. -/
def scanDigits : List Char → ℕ → ℕ
  | c :: cs, n => if isDigit c then scanDigits cs (10 * n + (c.toNat - 48)) else n
  | [], n => n

/-- `atoi`: what `strtol` reads into a `long` of 64 bits, as an `int`. -/
def atoi (cs : List Char) : BitVec 32 :=
  let (neg, cs) := scanSign (cs.dropWhile isSpace)
  let n : ℤ := scanDigits cs 0
  BitVec.ofInt 32 (if neg then -min n (2 ^ 63) else min n (2 ^ 63 - 1))

theorem le_toNat_of_isDigit {c : Char} (h : isDigit c = true) : 48 ≤ c.toNat := by
  unfold isDigit at h
  rw [Bool.and_eq_true, decide_eq_true_eq] at h
  exact h.1

theorem not_isSpace_of_isDigit {c : Char} (h : isDigit c = true) : isSpace c = false := by
  have hlow : 48 ≤ c.toNat := le_toNat_of_isDigit h
  have hne : ∀ d : Char, d.toNat < 48 → c ≠ d := by
    rintro d hd rfl
    omega
  unfold isSpace
  simp [hne, show c.toNat ≠ 11 by omega, show c.toNat ≠ 12 by omega]

theorem scanSign_of_isDigit {c : Char} (h : isDigit c = true) (cs : List Char) :
    scanSign (c :: cs) = (false, c :: cs) := by
  have hlow : 48 ≤ c.toNat := le_toNat_of_isDigit h
  have hne : ∀ d : Char, d.toNat < 48 → c ≠ d := by
    rintro d hd rfl
    omega
  unfold scanSign
  split
  · rename_i h
    exact absurd (List.cons.inj h).1 (hne _ (by decide))
  · rename_i h
    exact absurd (List.cons.inj h).1 (hne _ (by decide))
  · rfl

theorem atoi_digits {ds : List Char} (hds : ∀ c ∈ ds, isDigit c = true)
    (hlt : scanDigits ds 0 < 2 ^ 63) : atoi ds = BitVec.ofNat 32 (scanDigits ds 0) := by
  have hsign : scanSign (ds.dropWhile isSpace) = (false, ds) := by
    cases ds with
    | nil => rfl
    | cons c ds =>
      have hc : isDigit c = true := hds c (.head _)
      rw [List.dropWhile_cons_of_neg (by simp [not_isSpace_of_isDigit hc]), scanSign_of_isDigit hc]
  unfold atoi
  rw [hsign]
  have hmin : min (scanDigits ds 0 : ℤ) (2 ^ 63 - 1) = scanDigits ds 0 := by omega
  simp only [Bool.false_eq_true, if_false, hmin]
  exact BitVec.ofInt_natCast _ _

end Scan
end Or1ksim
