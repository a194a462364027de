import CategorySelection.Binary64.Decimal
import CategorySelection.Text.Casing
/-!
Numbers as templates write them: whole numbers in the bases eight, ten and sixteen, and the three
decimal forms of floating-point numbers. A written number comes in three parts, so that a filling of
zeros can go between its marks and its digits.
-/

namespace CategorySelection

namespace Template

/-- A written number: its sign, the mark of its base, and its digits. -/
structure Written where
  negative : Bool
  base : Text
  digits : Text
  deriving Repr, DecidableEq

/-- The digits of a number to a base of at most sixteen. A base below two has no digits. -/
def digitsIn (base n : Nat) : Text :=
  if n < base ∨ base < 2 then [CodePoint.ofHexDigit n]
  else digitsIn base (n / base) ++ [CodePoint.ofHexDigit (n % base)]
termination_by n
decreasing_by exact Nat.div_lt_self (by omega) (by omega)

inductive Base
  | eight
  | ten
  | sixteen
  deriving Repr, DecidableEq

def Base.size : Base → Nat
  | .eight => 8
  | .ten => 10
  | .sixteen => 16

def Base.mark : Base → Text
  | .eight => "0o"
  | .ten => []
  | .sixteen => "0x"

def writeWhole (base : Base) (marked large : Bool) (least : Nat) (n : Int) : Written :=
  let digits := Text.padLeft least '0' (digitsIn base.size n.natAbs)
  let mark := if marked then base.mark else []
  ⟨n < 0, if large then mark.toUpper else mark, if large then digits.toUpper else digits⟩

/-- A decimal form of floating-point numbers: with an exponent, without one, or with one only where
it makes the number shorter. -/
inductive Form
  | scientific
  | fixed
  | general
  deriving Repr, DecidableEq

def withoutTail (t : Text) : Text :=
  if 0x2e ∈ t then (t.withoutLast 0x30).withoutLast 0x2e else t

def withPoint (places : Nat) (t : Text) : Text := if places = 0 then t ++ "." else t

/-- The absolute value of a number in one of the forms. `pointed` keeps the point where nothing
follows it and, in the general form, the zeros at the end. -/
def writeMagnitude (form : Form) (pointed : Bool) (places m : Nat) (e : Int) : Text :=
  let filled (t : Text) (places : Nat) : Text :=
    t ++ Text.repeated (places - Binary64.enoughDigits) '0'
  let point (t : Text) : Text := if pointed then withPoint places t else t
  match form with
  | .fixed => point (filled (Binary64.fixedMagnitude (min places Binary64.enoughDigits) m e) places)
  | .scientific =>
    let some := min places Binary64.enoughDigits
    let (q, p) := Binary64.significant some m e
    point (filled (Binary64.fixedDigits some q) places) ++ Binary64.exponentText p
  | .general =>
    let behind := max 1 places - 1
    let some := min behind Binary64.enoughDigits
    let (q, p) := Binary64.significant some m e
    let finish (places : Nat) : Text :=
      let t := Binary64.fixedDigits places q
      if pointed then withPoint places (filled t behind) else withoutTail t
    if -4 ≤ p ∧ p ≤ behind then finish (some - p).toNat
    else finish some ++ Binary64.exponentText p

def writeReal (form : Form) (pointed large : Bool) (places : Nat) (x : Binary64) : Written :=
  let w : Written := match x with
    | .notANumber => ⟨false, [], "nan"⟩
    | .infinity s => ⟨s, [], "inf"⟩
    | .finite s m e => ⟨s, [], writeMagnitude form pointed places m e⟩
  if large then { w with digits := w.digits.toUpper } else w

end Template

end CategorySelection
