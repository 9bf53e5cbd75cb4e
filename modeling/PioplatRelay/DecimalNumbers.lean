import Mathlib.Data.Nat.Digits.Defs

/-!
# Decimal numbers

Numbers written in decimal and read back, as the package `strconv` of Go does it for
base ten.  Reading a number also gives a value when it fails: zero for a text that is no
number, and the nearest number in range for one that is out of range.
-/

namespace PioplatRelay.Decimal

open Nat

inductive NumError
  | syntaxError
  | rangeError
  deriving DecidableEq, Repr

def formatNat (n : Nat) : List Char := toDigits 10 n

/-- `strconv.Itoa`, and `fmt.Sprint` of an integer. -/
def formatInt (i : Int) : List Char :=
  if i < 0 then '-' :: formatNat i.natAbs else formatNat i.natAbs

def parseDigits (maxVal : Nat) : Nat → List Char → Nat × Option NumError
  | n, [] => (n, none)
  | n, c :: s =>
    if c.isDigit then
      let n1 := 10 * n + (c.toNat - '0'.toNat)
      if maxVal < n1 then (maxVal, some .rangeError) else parseDigits maxVal n1 s
    else (0, some .syntaxError)

def parseUint (bitSize : Nat) (s : List Char) : Nat × Option NumError :=
  if s = [] then (0, some .syntaxError) else parseDigits (2 ^ bitSize - 1) 0 s

def parseSigned (bitSize : Nat) (neg : Bool) (s : List Char) : Int × Option NumError :=
  let parsed := parseUint bitSize s
  let cutoff : Nat := 2 ^ (bitSize - 1)
  if parsed.2 = some .syntaxError then (0, parsed.2)
  else if neg = false ∧ cutoff ≤ parsed.1 then ((cutoff - 1 : Nat), some .rangeError)
  else if neg = true ∧ cutoff < parsed.1 then (-(cutoff : Int), some .rangeError)
  else (if neg then -(parsed.1 : Int) else parsed.1, none)

def parseInt (bitSize : Nat) : List Char → Int × Option NumError
  | [] => (0, some .syntaxError)
  | c :: s =>
    if c = '+' then parseSigned bitSize false s
    else if c = '-' then parseSigned bitSize true s
    else parseSigned bitSize false (c :: s)

theorem formatNat_injective : Function.Injective formatNat := by
  intro a b same
  have parsed := congrArg (fun digits => ofDigitChars 10 digits 0) same
  simpa only [formatNat,ofDigitChars_ten_toDigits] using parsed

theorem isDigit_of_mem_formatNat {n : Nat} {c : Char} (member : c ∈ formatNat n) :
    c.isDigit = true :=
  isDigit_of_mem_toDigits (by decide) (by decide) member

theorem parseDigits_eq {maxVal n : Nat} {s : List Char} (digits : ∀ c ∈ s, c.isDigit = true)
    (inRange : ofDigitChars 10 s n ≤ maxVal) :
    parseDigits maxVal n s = (ofDigitChars 10 s n, none) := by
  induction s generalizing n with
  | nil => rfl
  | cons c s ih =>
    rw [ofDigitChars_cons] at inRange ⊢
    have small : ¬ maxVal < 10 * n + (c.toNat - '0'.toNat) := by
      have grows : 10 * n + (c.toNat - '0'.toNat) ≤
          10 ^ s.length * (10 * n + (c.toNat - '0'.toNat)) :=
        Nat.le_mul_of_pos_left _ (Nat.pow_pos (by decide))
      rw [ofDigitChars_eq_ofDigitChars_zero] at inRange
      omega
    simp only [parseDigits,if_pos (digits c List.mem_cons_self),if_neg small]
    exact ih (fun other member => digits other (List.mem_cons_of_mem c member)) inRange

theorem formatNat_ne_nil (n : Nat) : formatNat n ≠ [] := toDigits_ne_nil

theorem parseUint_formatNat {bitSize n : Nat} (inRange : n < 2 ^ bitSize) :
    parseUint bitSize (formatNat n) = (n, none) := by
  have value : ofDigitChars 10 (formatNat n) 0 = n := ofDigitChars_ten_toDigits
  have bound : ofDigitChars 10 (formatNat n) 0 ≤ 2 ^ bitSize - 1 := by
    rw [value]
    omega
  rw [parseUint,if_neg (formatNat_ne_nil n),
    parseDigits_eq (fun c member => isDigit_of_mem_formatNat member) bound,value]

section Signed

variable {width n : Nat}

theorem parseSigned_positive (inRange : n < 2 ^ width) :
    parseSigned (width + 1) false (formatNat n) = ((n : Int), none) := by
  have unsigned : n < 2 ^ (width + 1) := by
    rw [pow_succ]
    omega
  simp [parseSigned,parseUint_formatNat unsigned,inRange]

theorem parseSigned_negative (inRange : n ≤ 2 ^ width) :
    parseSigned (width + 1) true (formatNat n) = (-(n : Int), none) := by
  have half : 0 < 2 ^ width := Nat.pow_pos (by decide)
  have unsigned : n < 2 ^ (width + 1) := by
    rw [pow_succ]
    omega
  simp [parseSigned,parseUint_formatNat unsigned,not_lt.mpr inRange]

theorem parseInt_formatNat (bitSize n : Nat) :
    parseInt bitSize (formatNat n) = parseSigned bitSize false (formatNat n) := by
  obtain ⟨c,s,shape⟩ := List.exists_cons_of_ne_nil (formatNat_ne_nil n)
  have digit : c.isDigit = true := by
    apply isDigit_of_mem_formatNat (n := n)
    rw [shape]
    exact List.mem_cons_self
  rw [shape,parseInt,if_neg,if_neg]
  · rintro rfl
    exact absurd digit (by decide)
  · rintro rfl
    exact absurd digit (by decide)

theorem parseInt_formatInt {i : Int} (lower : -2 ^ width ≤ i) (upper : i < 2 ^ width) :
    parseInt (width + 1) (formatInt i) = (i, none) := by
  rw [formatInt]
  by_cases negative : i < 0
  · have inRange : i.natAbs ≤ 2 ^ width := by
      zify
      rw [abs_of_neg negative]
      omega
    rw [if_pos negative,parseInt,if_neg (by decide),if_pos rfl,parseSigned_negative inRange]
    congr 1
    omega
  · have inRange : i.natAbs < 2 ^ width := by
      zify
      rw [abs_of_nonneg (not_lt.mp negative)]
      exact upper
    rw [if_neg negative,parseInt_formatNat,parseSigned_positive inRange]
    congr 1
    omega

end Signed

end PioplatRelay.Decimal
