import CategorySelection.Text.Blank
import CategorySelection.Text.Casing
import CategorySelection.Text.DecimalDigit
import CategorySelection.Binary64
/-!
Numerals as people type them: blanks around them, a sign, digits of any script, and single
underscores between digits.
-/

namespace CategorySelection

namespace Numeral

def maxDigits : Nat := 4300

def ofDigits (digits : List Nat) : Nat := digits.foldl (fun n d => 10 * n + d) 0

def digits? (t : Text) : Option (List Nat) := t.mapM CodePoint.decimalDigit?

def grouped? (t : Text) : Option (List Nat) :=
  let groups := Text.split '_' t
  if groups.any List.isEmpty then none else List.flatten <$> groups.mapM digits?

/-- The blanks that may stand around a numeral: all but the separator controls of ASCII. -/
def isPadding (c : CodePoint) : Bool := c.isBlank && !c.isBetween 0x1c 0x1f

def unpadded (t : Text) : Text := ((t.dropWhile isPadding).reverse.dropWhile isPadding).reverse

def signed (t : Text) : Bool × Text :=
  match t with
  | [] => (false, [])
  | c :: rest => if c = '-' then (true, rest) else if c = '+' then (false, rest) else (false, t)

def int? (t : Text) : Option Int :=
  let (negative, t) := signed (unpadded t)
  match grouped? t with
  | none => none
  | some digits =>
    if maxDigits < digits.length then none
    else some (if negative then -(ofDigits digits : Int) else (ofDigits digits : Int))

def isDigit (c : CodePoint) : Bool := c.decimalDigit?.isSome

/-- A text without its underscores, each of which must stand between two digits. The flag tells
whether a digit precedes the text. -/
def ungrouped? (afterDigit : Bool) : Text → Option Text
  | [] => some []
  | c :: rest =>
    if c = '_' then
      match rest with
      | [] => none
      | d :: more => if afterDigit && isDigit d then (d :: ·) <$> ungrouped? true more else none
    else (c :: ·) <$> ungrouped? (isDigit c) rest

def leadingDigits : Text → List Nat × Text
  | [] => ([], [])
  | c :: rest =>
    match c.decimalDigit? with
    | none => ([], c :: rest)
    | some d => let (ds, after) := leadingDigits rest; (d :: ds, after)

/-- The exponent of ten behind the digits of a numeral; no text is the exponent zero. -/
def exponent? : Text → Option Int
  | [] => some 0
  | c :: rest =>
    if c = 'e' ∨ c = 'E' then
      let (negative, rest) := signed rest
      match leadingDigits rest with
      | ([], _) | (_, _ :: _) => none
      | (digits, []) =>
        some (if negative then -(ofDigits digits : Int) else (ofDigits digits : Int))
    else none

/-- The number of a numeral without a sign: digits with or without a point, and perhaps an
exponent. -/
def magnitude? (negative : Bool) (t : Text) : Option Binary64 :=
  let (whole, t) := leadingDigits t
  let (fraction, t) :=
    match t with
    | [] => ([], [])
    | c :: rest => if c = '.' then leadingDigits rest else ([], t)
  let digits := whole ++ fraction
  if digits.isEmpty then none
  else (exponent? t).map fun e =>
    Binary64.ofDecimal negative (ofDigits digits) digits.length (e - fraction.length)

/-- The floating-point number that a text is the numeral of. The infinite numbers and the number
that is none have names, in any case. -/
def real? (t : Text) : Option Binary64 :=
  match ungrouped? false (unpadded t) with
  | none => none
  | some t =>
    let (negative, t) := signed t
    let word := t.toLower
    if word = "inf" ∨ word = "infinity" then some (.infinity negative)
    else if word = "nan" then some .notANumber
    else magnitude? negative t

end Numeral

end CategorySelection
