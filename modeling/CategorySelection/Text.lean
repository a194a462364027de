/-!
Text as a list of code points. Stored values and request bodies may name single surrogates by an
escape, so the surrogates are code points of a text like any other; everything that must refuse
them (writing a file, answering a request) does so by itself.
-/

namespace CategorySelection

abbrev CodePoint := Fin 0x110000

instance CodePoint.size_ne_zero : @NeZero Nat Zero.ofOfNat0 0x110000 := ⟨by decide⟩

instance CodePoint.lawfulBEq : LawfulBEq CodePoint := inferInstance

abbrev Text := List CodePoint

instance Text.lawfulBEq : LawfulBEq Text := inferInstance

namespace CodePoint

def ofChar (c : Char) : CodePoint :=
  ⟨c.toNat, by
    have h := c.valid
    have e : c.toNat = c.val.toNat := rfl
    simp only [UInt32.isValidChar, Nat.isValidChar] at h
    omega⟩

instance : Coe Char CodePoint := ⟨ofChar⟩

def isBetween (c : CodePoint) (first last : Nat) : Bool := first ≤ c.val && c.val ≤ last

def isAsciiDigit (c : CodePoint) : Bool := c.isBetween 0x30 0x39

def isAsciiLetter (c : CodePoint) : Bool := c.isBetween 0x41 0x5a || c.isBetween 0x61 0x7a

def isSurrogate (c : CodePoint) : Bool := c.isBetween 0xd800 0xdfff

def isEscapedByte (c : CodePoint) : Bool := c.isBetween 0xdc80 0xdcff

def ofDigit (n : Nat) : CodePoint := ⟨0x30 + n % 10, by omega⟩

def ofHexDigit (n : Nat) : CodePoint :=
  ⟨if n % 16 < 10 then 0x30 + n % 16 else 0x57 + n % 16, by split <;> omega⟩

def hexDigit? (c : CodePoint) : Option Nat :=
  if c.isAsciiDigit then some (c.val - 0x30)
  else if c.isBetween 0x41 0x46 then some (c.val - 0x37)
  else if c.isBetween 0x61 0x66 then some (c.val - 0x57)
  else none

end CodePoint

namespace Text

def ofString (s : String) : Text := s.toList.map CodePoint.ofChar

instance : Coe String Text := ⟨ofString⟩

def ofNat (n : Nat) : Text :=
  if n < 10 then [CodePoint.ofDigit n] else ofNat (n / 10) ++ [CodePoint.ofDigit n]
termination_by n

def ofInt : Int → Text
  | .ofNat n => ofNat n
  | .negSucc n => '-' :: ofNat (n + 1)

def ofHex : (width : Nat) → Nat → Text
  | 0, _ => []
  | width + 1, n => ofHex width (n / 16) ++ [CodePoint.ofHexDigit n]

/-- The parts of a text between the occurrences of a separator; there is always one more part
than there are separators. -/
def split (separator : CodePoint) : Text → List Text
  | [] => [[]]
  | c :: rest =>
    match split separator rest with
    | part :: parts => if c = separator then [] :: part :: parts else (c :: part) :: parts
    | [] => [[c]]

def join (separator : Text) (parts : List Text) : Text := List.intercalate separator parts

def after? : (beginning : Text) → Text → Option Text
  | [], rest => some rest
  | _ :: _, [] => none
  | b :: beginning, c :: rest => if b = c then after? beginning rest else none

def replaced (f : CodePoint → Text) (t : Text) : Text := t.flatMap f

def repeated (n : Nat) (c : CodePoint) : Text := List.replicate n c

def first (n : Nat) (t : Text) : Text := t.take n

def rest (n : Nat) (t : Text) : Text := t.drop n

def padRight (width : Nat) (t : Text) : Text := t ++ repeated (width - t.length) ' '

def withoutLast (c : CodePoint) (t : Text) : Text := (t.reverse.dropWhile (· = c)).reverse

def padLeft (width : Nat) (filler : CodePoint) (t : Text) : Text :=
  repeated (width - t.length) filler ++ t

def ofNatPadded (width n : Nat) : Text := padLeft width '0' (ofNat n)

def insertSorted (t : Text) : List Text → List Text
  | [] => [t]
  | u :: rest =>
    if t < u then t :: u :: rest else if t = u then u :: rest else u :: insertSorted t rest

def sortedSet (ts : List Text) : List Text := ts.foldr insertSorted []

end Text

end CategorySelection
