import CategorySelection.Fault.Kind
import CategorySelection.Json.Display
import CategorySelection.Template
import CategorySelection.Template.Number
/-!
Filling in a template. Each directive takes the next value, or the one that its key names, and
writes it by its conversion. A fault of a piece shows only after all pieces before it have been
filled in.
-/

namespace CategorySelection

inductive TemplateFault
  | brokenOff
  | unclosedKey
  | tooWide
  | tooPrecise
  | widthBeyondWord
  | precisionBeyondWord
  | tooManyDigits
  | outOfMemory
  | extentNotWhole
  | noKeys
  | missingKey (name : Text)
  | tooFewValues
  | tooManyValues
  | unknownConversion (conversion : CodePoint) (position : Nat)
  | notWhole (conversion : CodePoint) (found : Text)
  | notNumber (conversion : CodePoint) (found : Text)
  | notReal (found : Text)
  | infiniteWhole
  | undefinedWhole
  | tooLargeReal
  | notCharacter
  | noSuchCharacter
  deriving Repr, DecidableEq

namespace TemplateFault

def kind : TemplateFault → FaultKind
  | .brokenOff | .unclosedKey | .tooWide | .tooPrecise | .unknownConversion .. | .undefinedWhole =>
    .value
  | .extentNotWhole | .noKeys | .tooFewValues | .tooManyValues | .notWhole .. | .notNumber ..
  | .notReal _ | .notCharacter => .type
  | .missingKey _ => .key
  | .outOfMemory => .memory
  | .widthBeyondWord | .precisionBeyondWord | .tooManyDigits | .infiniteWhole | .tooLargeReal
  | .noSuchCharacter => .overflow

/-- How a conversion that is not known is shown: only if it is printable ASCII. -/
def shownConversion (c : CodePoint) : CodePoint := if c.isBetween 31 126 then c else '?'

def message : TemplateFault → Text
  | .brokenOff => "incomplete format"
  | .unclosedKey => "incomplete format key"
  | .tooWide => "width too big"
  | .tooPrecise => "precision too big"
  | .widthBeyondWord => "Python int too large to convert to C ssize_t"
  | .precisionBeyondWord => "Python int too large to convert to C int"
  | .tooManyDigits => "precision too large"
  | .outOfMemory => []
  | .extentNotWhole => "* wants int"
  | .noKeys => "format requires a mapping"
  | .missingKey name => name.quoted
  | .tooFewValues => "not enough arguments for format string"
  | .tooManyValues => "not all arguments converted during string formatting"
  | .unknownConversion c position =>
    "unsupported format character '" ++ [shownConversion c] ++ "' (0x" ++
      Template.digitsIn 16 c.val ++ ") at index " ++ Text.ofNat position
  | .notWhole c found =>
    "%" ++ [c] ++ " format: an integer is required, not " ++ found
  | .notNumber c found =>
    "%" ++ [c] ++ " format: a real number is required, not " ++ found
  | .notReal found => "must be real number, not " ++ found
  | .infiniteWhole => "cannot convert float infinity to integer"
  | .undefinedWhole => "cannot convert float NaN to integer"
  | .tooLargeReal => "int too large to convert to float"
  | .notCharacter => "%c requires int or char"
  | .noSuchCharacter => "%c arg not in range(0x110000)"

end TemplateFault

namespace Template

def shownInAscii (value : Json) : Text :=
  value.shown.flatMap fun c =>
    if c.val < 0x80 then [c]
    else if c.val ≤ 0xff then "\\x" ++ Text.ofHex 2 c.val
    else if c.val ≤ 0xffff then "\\u" ++ Text.ofHex 4 c.val
    else "\\U" ++ Text.ofHex 8 c.val

def whole (conversion : CodePoint) : Json → Except TemplateFault Int
  | .int n => .ok n
  | .bool b => .ok (if b then 1 else 0)
  | .float (.infinity _) => .error .infiniteWhole
  | .float .notANumber => .error .undefinedWhole
  | .float (.finite s m e) =>
    let (num, den) := Binary64.quotient m e
    .ok (if s then -(num / den : Nat) else (num / den : Nat))
  | value => .error (.notNumber conversion value.kindName)

def strictlyWhole (conversion : CodePoint) : Json → Except TemplateFault Int
  | .int n => .ok n
  | .bool b => .ok (if b then 1 else 0)
  | value => .error (.notWhole conversion value.kindName)

def real : Json → Except TemplateFault Binary64
  | .float x => .ok x
  | .bool b => .ok (.ofInt (if b then 1 else 0))
  | .int n => match Binary64.ofInt n with
    | .infinity _ => .error .tooLargeReal
    | x => .ok x
  | value => .error (.notReal value.kindName)

def character : Json → Except TemplateFault CodePoint
  | .string [c] => .ok c
  | .bool b => .ok (if b then 1 else 0)
  | .int n => if h : n.toNat < 0x110000 ∧ 0 ≤ n then .ok ⟨n.toNat, h.1⟩ else .error .noSuchCharacter
  | _ => .error .notCharacter

def spread (left : Bool) (width : Nat) (t : Text) : Text :=
  if left then Text.padRight width t else Text.padLeft width ' ' t

def spreadNumber (d : Directive) (left : Bool) (width : Nat) (w : Written) : Text :=
  let sign : Text := if w.negative then "-" else if d.plus then "+" else if d.blank then " " else []
  let marks := sign ++ w.base
  if d.zeros ∧ ¬left then marks ++ Text.padLeft (width - marks.length) '0' w.digits
  else spread left width (marks ++ w.digits)

def maxLeast : Nat := twoTo 31 - 4

def memory : Nat := twoTo 26

def convert (d : Directive) (left : Bool) (width : Nat) (precision : Option Nat)
    (conversion : CodePoint) (position : Nat) (value : Json) : Except TemplateFault Text :=
  let text (t : Text) : Except TemplateFault Text :=
    .ok (spread left width (match precision with | some n => t.first n | none => t))
  let number (w : Written) : Text := spreadNumber d left width w
  let places := precision.getD 6
  let least := precision.getD 0
  let reading (form : Form) (large : Bool) : Except TemplateFault Text :=
    (real value).bind fun x =>
      if memory < places ∧ x.isFinite ∧ (form ≠ .general ∨ d.marked) then .error .outOfMemory
      else .ok (number (writeReal form d.marked large places x))
  let digits (base : Base) (marked large : Bool) (n : Int) : Except TemplateFault Text :=
    if maxLeast < least then .error .tooManyDigits
    else if memory < least then .error .outOfMemory
    else .ok (number (writeWhole base marked large least n))
  let based (base : Base) (large : Bool) : Except TemplateFault Text :=
    (strictlyWhole conversion value).bind (digits base d.marked large)
  if conversion = 's' then text value.display
  else if conversion = 'r' then text value.shown
  else if conversion = 'a' then text (shownInAscii value)
  else if conversion = 'd' ∨ conversion = 'i' ∨ conversion = 'u' then
    (whole conversion value).bind (digits .ten false false)
  else if conversion = 'o' then based .eight false
  else if conversion = 'x' then based .sixteen false
  else if conversion = 'X' then based .sixteen true
  else if conversion = 'e' then reading .scientific false
  else if conversion = 'E' then reading .scientific true
  else if conversion = 'f' then reading .fixed false
  else if conversion = 'F' then reading .fixed true
  else if conversion = 'g' then reading .general false
  else if conversion = 'G' then reading .general true
  else if conversion = 'c' then (character value).map fun c => spread left width [c]
  else .error (.unknownConversion conversion position)

/-- The values that a template is filled in with: an object whose values have keys, if there is one,
and the values that come next. -/
structure Values where
  keyed : Option (List (Text × Json))
  next : List Json

/-- The values of a list. A single object that is not empty gives its values by their keys. -/
def Values.ofList : List Json → Values
  | [.object (f :: fs)] => ⟨some (f :: fs), [.object (f :: fs)]⟩
  | values => ⟨none, values⟩

def Values.take (v : Values) : Except TemplateFault (Json × Values) :=
  match v.next with
  | [] => .error .tooFewValues
  | value :: next => .ok (value, { v with next })

def Values.select (v : Values) : Option Text → Except TemplateFault Values
  | none => .ok v
  | some name =>
    match v.keyed with
    | none => .error .noKeys
    | some fields =>
      match Assoc.get? name fields with
      | some value => .ok { v with next := [value] }
      | none => .error (.missingKey name)

/-- What an extent may be at most, and what is wrong with a larger one that is written in the
template or given as a value. -/
structure Limit where
  largest : Int
  written : TemplateFault
  given : TemplateFault

def widthLimit : Limit := ⟨twoTo 63 - 1, .tooWide, .widthBeyondWord⟩

def precisionLimit : Limit := ⟨twoTo 31 - 1, .tooPrecise, .precisionBeyondWord⟩

/-- A given number, unless the limit does not admit it. A limit admits as many negative numbers as
others. -/
def Limit.check (limit : Limit) (n : Int) : Except TemplateFault (Option Int) :=
  if limit.largest < n ∨ n < -limit.largest - 1 then .error limit.given else .ok (some n)

/-- The number that an extent stands for; it may be negative if it is a value. -/
def Extent.resolve (limit : Limit) (v : Values) : Extent →
    Except TemplateFault (Option Int × Values)
  | .unset => .ok (none, v)
  | .fixed n => if limit.largest < n then .error limit.written else .ok (some n, v)
  | .argument => do
    let (value, v) ← v.take
    match value with
    | .int n => return (← limit.check n, v)
    | .bool b => return (some (if b then 1 else 0), v)
    | _ => .error .extentNotWhole

/-- The key and the extents of a directive with the values that are left for it. A negative width
puts the filling behind the value. -/
def Directive.resolve (d : Directive) (v : Values) :
    Except TemplateFault (Bool × Nat × Option Nat × Values) := do
  let v ← v.select d.key
  let (width, v) ← d.width.resolve widthLimit v
  let width := width.getD 0
  let (precision, v) ← d.precision.resolve precisionLimit v
  return (d.left || width < 0, width.natAbs, precision.map Int.toNat, v)

/-- A value as a conversion writes it, unless there is no room for it. What is wrong with the value
itself is told first. -/
def convertWithin (d : Directive) (left : Bool) (width : Nat) (precision : Option Nat)
    (conversion : CodePoint) (position : Nat) (value : Json) : Except TemplateFault Text :=
  if width ≤ memory then convert d left width precision conversion position value
  else (convert d left 0 precision conversion position value).bind fun _ => .error .outOfMemory

def Piece.fill (v : Values) : Piece → Except TemplateFault (Text × Values)
  | .letter c => .ok ([c], v)
  | .unclosedKey => .error (if v.keyed.isSome then .unclosedKey else .noKeys)
  | .brokenOff d => do
    let _ ← d.resolve v
    throw .brokenOff
  | .directive d conversion position => do
    let (left, width, precision, v) ← d.resolve v
    let (value, v) ← v.take
    let t ← convertWithin d left width precision conversion position value
    if v.keyed.isSome ∧ v.next ≠ [] then throw .tooManyValues
    return (t, v)

/-- Pieces filled in one after the other. Values without keys must all be used. -/
def fillPieces (v : Values) : List Piece → Except TemplateFault Text
  | [] => if v.keyed.isNone ∧ v.next ≠ [] then .error .tooManyValues else .ok []
  | piece :: rest => do
    let (t, v) ← piece.fill v
    return t ++ (← fillPieces v rest)

/-- A template filled in with values. Without any value it stays as it is. -/
def fill (t : Text) (values : List Json) : Except TemplateFault Text :=
  if values.isEmpty then .ok t else fillPieces (Values.ofList values) (pieces t)

end Template

end CategorySelection
