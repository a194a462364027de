import CategorySelection.Binary64
import CategorySelection.Text
/-!
Floating-point numbers in decimal. The plain form has the fewest digits that read back as the same
number and, of those, the ones nearest to it; the other forms have a given number of digits of the
exact value, a tie going to the even digit.
-/

namespace CategorySelection

namespace Binary64

/-- The exponent `p` with `10 ^ p ≤ num / den < 10 ^ (p + 1)`, searched upwards from a guess that is
at most `steps` too small. -/
def decimalExponentFrom (num den : Nat) : (steps : Nat) → (guess : Int) → Int
  | 0, p => p
  | steps + 1, p =>
    let next := p + 1
    let reached := if next < 0 then den ≤ num * tenTo next.natAbs else den * tenTo next.natAbs ≤ num
    if reached then decimalExponentFrom num den steps next else p

def decimalExponent (num den : Nat) : Int :=
  let bits : Int := (num.log2 : Int) - den.log2
  decimalExponentFrom num den 4 (Int.fdiv (bits * 30103) 100000 - 2)

def scaleDecimal (num den : Nat) (p : Int) : Nat × Nat :=
  if p < 0 then (num * tenTo p.natAbs, den) else (num, den * tenTo p.natAbs)

structure Digits where
  digits : Nat
  exponent : Int
  deriving Repr, DecidableEq

/-- A decimal number without zeros at its end. At most `steps` of them are taken away. -/
def Digits.withoutZeros : (steps : Nat) → Digits → Digits
  | 0, d => d
  | steps + 1, d =>
    if d.digits ≠ 0 ∧ d.digits % 10 = 0 then
      withoutZeros steps ⟨d.digits / 10, d.exponent + 1⟩
    else
      d

/-- The decimal number of `count` digits nearest to `m * 2 ^ e`, if one of the two around it reads
back as that number. Distances are counted in quarters of `2 ^ e`, in which the numbers that read
back reach from `low` to `high`. -/
def digitsOfLength? (m : Nat) (e p : Int) (count : Nat) : Option Digits :=
  let low := if m = twoTo 52 ∧ -1074 < e then 4 * m - 1 else 4 * m - 2
  let high := 4 * m + 2
  let step := p + 1 - count
  let (num, den) := quotient 1 (e - 2)
  let (num, den) := scaleDecimal num den step
  let down := 4 * m * num / den
  let reads (d : Nat) : Bool :=
    if m % 2 = 0 then low * num ≤ d * den && d * den ≤ high * num
    else low * num < d * den && d * den < high * num
  let above := (down + 1) * den - 4 * m * num
  let below := 4 * m * num - down * den
  let nearer := if above < below ∨ (above = below ∧ down % 2 = 1) then down + 1 else down
  let farther := if nearer = down then down + 1 else down
  if reads nearer then some ⟨nearer, step⟩
  else if reads farther then some ⟨farther, step⟩
  else none

/-- The decimal number with the fewest digits that reads back as `m * 2 ^ e`. Seventeen digits
always do. -/
def shortest (m : Nat) (e : Int) : Digits :=
  let (num, den) := quotient m e
  let p := decimalExponent num den
  match (List.range 17).findSome? fun k => digitsOfLength? m e p (k + 1) with
  | some d => d.withoutZeros 20
  | none => ⟨m, e⟩

def sign (negative : Bool) : Text := if negative then "-" else []

def exponentText (p : Int) : Text :=
  (if p < 0 then "e-" else "e+") ++ Text.ofNatPadded 2 p.natAbs

/-- Digits with a point behind the first `whole` of them; zeros fill up what is missing. -/
def pointed (digits : Text) (whole : Int) : Text :=
  if whole ≤ 0 then "0." ++ Text.repeated whole.natAbs '0' ++ digits
  else if digits.length ≤ whole.natAbs then
    digits ++ Text.repeated (whole.natAbs - digits.length) '0' ++ ".0"
  else digits.first whole.natAbs ++ "." ++ digits.rest whole.natAbs

def mantissa (digits : Text) : Text :=
  if digits.length = 1 then digits else digits.first 1 ++ "." ++ digits.rest 1

/-- The plain form of a number. From `10 ^ -4` to just below `10 ^ 16` it is written out and has a
point, else it has an exponent. -/
def text : Binary64 → Text
  | .notANumber => "nan"
  | .infinity s => sign s ++ "inf"
  | .finite s m e =>
    if m = 0 then sign s ++ "0.0"
    else
      let d := shortest m e
      let digits := Text.ofNat d.digits
      let p := d.exponent + digits.length - 1
      if -4 ≤ p ∧ p < 16 then sign s ++ pointed digits (p + 1)
      else sign s ++ mantissa digits ++ exponentText p

/-- The digits of a whole number of units of `10 ^ -places`, with a point before the last `places`
of them. -/
def fixedDigits (places units : Nat) : Text :=
  let digits := Text.ofNatPadded (places + 1) units
  let whole := digits.length - places
  if places = 0 then digits else digits.first whole ++ "." ++ digits.rest whole

def fixedMagnitude (places m : Nat) (e : Int) : Text :=
  let (num, den) := quotient m e
  fixedDigits places (roundQuotient (num * tenTo places) den)

def fixed (places : Nat) : Binary64 → Text
  | .notANumber => "nan"
  | .infinity s => sign s ++ "inf"
  | .finite s m e => sign s ++ fixedMagnitude places m e

/-- The absolute value to a given number of digits behind the first: the digits, and the exponent of
ten of the first of them. -/
def significant (places m : Nat) (e : Int) : Nat × Int :=
  if m = 0 then (0, 0)
  else
    let (num, den) := quotient m e
    let p := decimalExponent num den
    let (n, d) := scaleDecimal num den (p - places)
    let q := roundQuotient n d
    if q = tenTo (places + 1) then (tenTo places, p + 1) else (q, p)

/-- Behind this many digits of a number, counted from its first one or from its point, there are
only zeros. -/
def enoughDigits : Nat := 1100

end Binary64

end CategorySelection
