/-!
Floating-point numbers of 64 bits as exact values. A finite one is a whole number below `2 ^ 53`
times a power of two, so comparing, adding and writing them is exact arithmetic followed by one
rounding to the nearest such number, a tie to the even one.
-/

namespace CategorySelection

def twoTo (n : Nat) : Nat := Nat.pow 2 n

def tenTo (n : Nat) : Nat := Nat.pow 10 n

def roundQuotient (num den : Nat) : Nat :=
  let q := num / den
  let twice := 2 * (num % den)
  if den < twice ∨ (twice = den ∧ q % 2 = 1) then q + 1 else q

def bitLength (n : Nat) : Nat := if n = 0 then 0 else n.log2 + 1

/-- A number of 64 bits in binary floating point. `finite s m e` stands for `m * 2 ^ e`, negative if
`s`; there `m < 2 ^ 53` and `-1074 ≤ e ≤ 971`, and `2 ^ 52 ≤ m` unless `e = -1074`. -/
inductive Binary64
  | finite (negative : Bool) (significand : Nat) (exponent : Int)
  | infinity (negative : Bool)
  | notANumber
  deriving Repr, DecidableEq, Inhabited

namespace Binary64

def zero : Binary64 := .finite false 0 (-1074)

def scaleDown (num den : Nat) (e : Int) : Nat × Nat :=
  if e < 0 then (num * twoTo e.natAbs, den) else (num, den * twoTo e.natAbs)

def ofQuotient (negative : Bool) (num den : Nat) : Binary64 :=
  let guess : Int := max (-1074) ((bitLength num : Int) - bitLength den - 53)
  let (n, d) := scaleDown num den guess
  let e := if twoTo 53 ≤ n / d then guess + 1 else guess
  let (n, d) := scaleDown num den e
  let m := roundQuotient n d
  let (m, e) := if m = twoTo 53 then (twoTo 52, e + 1) else (m, e)
  if 971 < e then .infinity negative else .finite negative m e

def ofInt (n : Int) : Binary64 := ofQuotient (n < 0) n.natAbs 1

/-- The number nearest to `digits * 10 ^ exponent`, where `digits` is written with `length` digits.
Values that are too large or too small for any finite number are recognised by their size. -/
def ofDecimal (negative : Bool) (digits length : Nat) (exponent : Int) : Binary64 :=
  if digits = 0 then .finite negative 0 (-1074)
  else if exponent + length < -400 then .finite negative 0 (-1074)
  else if 400 < exponent then .infinity negative
  else if exponent < 0 then ofQuotient negative digits (tenTo exponent.natAbs)
  else ofQuotient negative (digits * tenTo exponent.natAbs) 1

def quotient (m : Nat) (e : Int) : Nat × Nat :=
  if e < 0 then (m, twoTo e.natAbs) else (m * twoTo e.natAbs, 1)

/-- The whole number that a finite number is a multiple of `2 ^ e` by, for an `e` that is at most
its own exponent. -/
def units (negative : Bool) (m : Nat) (exponent e : Int) : Int :=
  let n : Int := m * twoTo (exponent - e).natAbs
  if negative then -n else n

/-- Below, in the order of the numbers; no number is below or above `notANumber`. -/
def less : Binary64 → Binary64 → Bool
  | .notANumber, _ | _, .notANumber => false
  | .infinity s, .infinity t => s && !t
  | .infinity s, .finite .. => s
  | .finite .., .infinity t => !t
  | .finite s m e, .finite t n f =>
    let g := min e f
    units s m e g < units t n f g

instance : LT Binary64 := ⟨fun x y => less x y = true⟩

instance (x y : Binary64) : Decidable (x < y) := inferInstanceAs (Decidable (less x y = true))

protected def add : Binary64 → Binary64 → Binary64
  | .notANumber, _ | _, .notANumber => .notANumber
  | .infinity s, .infinity t => if s = t then .infinity s else .notANumber
  | .infinity s, .finite .. => .infinity s
  | .finite .., .infinity t => .infinity t
  | .finite s m e, .finite t n f =>
    let g := min e f
    let sum := units s m e g + units t n f g
    let (num, den) := quotient sum.natAbs g
    if sum = 0 then .finite (s && t) 0 (-1074) else ofQuotient (sum < 0) num den

instance : Add Binary64 := ⟨Binary64.add⟩

/-- A number that is below zero. The negative zero is not. -/
def isNegative (x : Binary64) : Bool := x.less zero

def isFinite : Binary64 → Bool
  | .finite .. => true
  | _ => false

end Binary64

end CategorySelection
