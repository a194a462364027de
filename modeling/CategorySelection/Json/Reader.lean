import CategorySelection.Json
/-!
Reading JSON text. Strings may name single surrogates by escapes, and `NaN`, `Infinity` and
`-Infinity` are numbers. A text that is not JSON is refused with the reason and the place; a numeral
with too many digits and a text that is nested too deeply are refused for their size.
-/

namespace CategorySelection

namespace Json

inductive Reason
  | byteOrderMark
  | expectingValue
  | extraData
  | expectingName
  | expectingColon
  | expectingComma
  | unterminatedString
  | controlCharacter
  | invalidEscape
  | invalidHexEscape
  deriving Repr, DecidableEq

def Reason.message : Reason → Text
  | .byteOrderMark => "Unexpected UTF-8 BOM (decode using utf-8-sig)"
  | .expectingValue => "Expecting value"
  | .extraData => "Extra data"
  | .expectingName => "Expecting property name enclosed in double quotes"
  | .expectingColon => "Expecting ':' delimiter"
  | .expectingComma => "Expecting ',' delimiter"
  | .unterminatedString => "Unterminated string starting at"
  | .controlCharacter => "Invalid control character at"
  | .invalidEscape => "Invalid \\escape"
  | .invalidHexEscape => "Invalid \\uXXXX escape"

def maxDigits : Nat := 4300

/-- Arrays and objects may be nested this deeply. The program itself has no such number: it reads
with a stack of 1000 calls less those that led to the reader, and this one allows for ten of
them. -/
def maxNesting : Nat := 990

/-- What stopped the reading. A place is given by how many code points were left there. -/
inductive Trouble
  | malformed (reason : Reason) (left : Nat)
  | integerTooLong (digits : Nat)
  | tooDeep (inArray : Bool)
  deriving Repr, DecidableEq

inductive ReadFault
  | malformed (reason : Reason) (line column offset : Nat)
  | integerTooLong (digits : Nat)
  | tooDeep (inArray : Bool)
  deriving Repr, DecidableEq

def ReadFault.message : ReadFault → Text
  | .malformed reason line column offset =>
    reason.message ++ ": line " ++ Text.ofNat line ++ " column " ++
      Text.ofNat column ++ " (char " ++
      Text.ofNat offset ++ ")"
  | .integerTooLong digits =>
    "Exceeds the limit (" ++ Text.ofNat maxDigits ++
      " digits) for integer string conversion: value has " ++ Text.ofNat digits ++
      " digits; use sys.set_int_max_str_digits() to increase the limit"
  | .tooDeep inArray =>
    "maximum recursion depth exceeded while decoding a JSON " ++
      (if inArray then "array" else "object") ++ " from a unicode string"

def isSpace (c : CodePoint) : Bool := c == 0x20 || c == 0x09 || c == 0x0a || c == 0x0d

def skipSpace (t : Text) : Text := t.dropWhile isSpace

def simpleEscape? (c : CodePoint) : Option CodePoint :=
  if c = '"' ∨ c = '\\' ∨ c = '/' then some c
  else if c = 'b' then some 0x08
  else if c = 'f' then some 0x0c
  else if c = 'n' then some 0x0a
  else if c = 'r' then some 0x0d
  else if c = 't' then some 0x09
  else none

def hexValue? (a b c d : CodePoint) : Option (Fin 0x10000) :=
  match a.hexDigit?, b.hexDigit?, c.hexDigit?, d.hexDigit? with
  | some a, some b, some c, some d => some (Fin.ofNat 0x10000 (a * 4096 + b * 256 + c * 16 + d))
  | _, _, _, _ => none

def unit (n : Fin 0x10000) : CodePoint := ⟨n.val, by omega⟩

def isHighHalf (n : Fin 0x10000) : Bool := 0xd800 ≤ n.val && n.val ≤ 0xdbff

def isLowHalf (n : Fin 0x10000) : Bool := 0xdc00 ≤ n.val && n.val ≤ 0xdfff

def joinHalves (high low : Fin 0x10000) : CodePoint :=
  ⟨0x10000 + high.val % 0x400 * 0x400 + low.val % 0x400, by omega⟩

/-- A part of a string as it is written: a code point, or a number of sixteen bits that an escape
names. -/
inductive StringPart
  | plain (c : CodePoint)
  | escaped (n : Fin 0x10000)
  deriving Repr, DecidableEq

/-- The text that the parts of a string stand for. Two escapes that follow each other and name the
halves of a pair stand for one code point. -/
def joinParts : List StringPart → Text
  | [] => []
  | .plain c :: rest => c :: joinParts rest
  | .escaped n :: .escaped m :: rest =>
    if isHighHalf n && isLowHalf m then joinHalves n m :: joinParts rest
    else unit n :: joinParts (.escaped m :: rest)
  | .escaped n :: rest => unit n :: joinParts rest

/-- Reads the parts of a string behind its opening quote; `opened` is the text from that quote
on. -/
def readParts (opened : Text) : Text → Except Trouble (List StringPart × Text)
  | [] => .error (.malformed .unterminatedString opened.length)
  | c :: rest =>
    if c = '"' then .ok ([], rest)
    else if c = '\\' then
      match rest with
      | [] => .error (.malformed .unterminatedString opened.length)
      | e :: more =>
        if e = 'u' then
          match more with
          | h₁ :: h₂ :: h₃ :: h₄ :: next :: after =>
            match hexValue? h₁ h₂ h₃ h₄ with
            | none => .error (.malformed .invalidHexEscape (more.length + 1))
            | some n => (fun (p, r) => (.escaped n :: p, r)) <$> readParts opened (next :: after)
          | _ => .error (.malformed .invalidHexEscape (more.length + 1))
        else
          match simpleEscape? e with
          | none => .error (.malformed .invalidEscape (rest.length + 1))
          | some x => (fun (p, r) => (.plain x :: p, r)) <$> readParts opened more
    else if c.val ≤ 0x1f then .error (.malformed .controlCharacter (rest.length + 1))
    else (fun (p, r) => (.plain c :: p, r)) <$> readParts opened rest

/-- Reads a string behind its opening quote; `opened` is the text from that quote on. -/
def readString (opened t : Text) : Except Trouble (Text × Text) :=
  (fun (parts, r) => (joinParts parts, r)) <$> readParts opened t

def spanDigits (t : Text) : Text × Text := t.span CodePoint.isAsciiDigit

def digitsValue (digits : Text) : Nat := digits.foldl (fun n c => 10 * n + (c.val - 0x30)) 0

/-- The digits before the point: a zero alone, or digits that do not start with one. -/
def wholeDigits? : Text → Option (Text × Text)
  | [] => none
  | c :: rest =>
    if c = '0' then some (['0'], rest)
    else if c.isAsciiDigit then some (spanDigits (c :: rest))
    else none

/-- The digits behind a point. A point without a digit behind it is not read. -/
def fractionDigits : Text → Text × Text
  | c :: d :: rest =>
    if c = '.' ∧ d.isAsciiDigit then spanDigits (d :: rest) else ([], c :: d :: rest)
  | t => ([], t)

/-- The exponent of a numeral. The letter is not read unless digits follow it. -/
def exponent? (t : Text) : Option (Int × Text) :=
  match t with
  | [] => none
  | c :: rest =>
    if c = 'e' ∨ c = 'E' then
      let (negative, rest) :=
        match rest with
        | [] => (false, [])
        | s :: more =>
          if s = '-' then (true, more) else if s = '+' then (false, more) else (false, rest)
      match spanDigits rest with
      | ([], _) => none
      | (digits, rest) =>
        some (if negative then -(digitsValue digits : Int) else (digitsValue digits : Int), rest)
    else none

def readNumber (t : Text) : Except Trouble (Json × Text) :=
  let (negative, body) :=
    match t with
    | [] => (false, [])
    | c :: rest => if c = '-' then (true, rest) else (false, t)
  match wholeDigits? body with
  | none => .error (.malformed .expectingValue t.length)
  | some (whole, rest) =>
    let (fraction, rest) := fractionDigits rest
    match fraction, exponent? rest with
    | [], none =>
      if maxDigits < whole.length then .error (.integerTooLong whole.length)
      else
        let n : Int := digitsValue whole
        .ok (.int (if negative then -n else n), rest)
    | _, exponent =>
      let (e, rest) := exponent.getD (0, rest)
      let digits := whole ++ fraction
      .ok (.float (Binary64.ofDecimal negative (digitsValue digits) digits.length
        (e - fraction.length)), rest)

def words : List (Text × Json) :=
  [("null", .null), ("true", .bool true), ("false", .bool false), ("NaN", .float .notANumber),
    ("Infinity", .float (.infinity false)), ("-Infinity", .float (.infinity true))]

def readScalar (t : Text) : Except Trouble (Json × Text) :=
  match words.findSome? fun (word, value) => (Text.after? word t).map (value, ·) with
  | some result => .ok result
  | none => readNumber t

mutual

/-- Reads a value. Each call takes one unit of `fuel`, of which a text has enough in twice its
length; `depth` more arrays and objects may be opened. -/
def readValue : (fuel depth : Nat) → Text → Except Trouble (Json × Text)
  | 0, _, t => .error (.malformed .expectingValue t.length)
  | _, _, [] => .error (.malformed .expectingValue 0)
  | fuel + 1, depth, c :: rest =>
    if c = '"' then (fun (s, r) => (.string s, r)) <$> readString (c :: rest) rest
    else if c = '[' then
      match depth, skipSpace rest with
      | 0, _ => .error (.tooDeep true)
      | depth + 1, rest =>
        match rest with
        | [] => (fun (items, r) => (.array items, r)) <$> readItems fuel depth rest
        | d :: after =>
          if d = ']' then .ok (.array [], after)
          else (fun (items, r) => (.array items, r)) <$> readItems fuel depth rest
    else if c = '\x7b' then
      match depth, skipSpace rest with
      | 0, _ => .error (.tooDeep false)
      | depth + 1, rest =>
        match rest with
        | [] => .error (.malformed .expectingName 0)
        | d :: after =>
          if d = '\x7d' then .ok (.object [], after)
          else 
            (fun (fields, r) => (.object (Assoc.ofPairs fields), r)) <$>
              readFields fuel depth rest
    else readScalar (c :: rest)

def readItems : (fuel depth : Nat) → Text → Except Trouble (List Json × Text)
  | 0, _, t => .error (.malformed .expectingValue t.length)
  | fuel + 1, depth, t => do
    let (item, rest) ← readValue fuel depth t
    match skipSpace rest with
    | [] => .error (.malformed .expectingComma 0)
    | c :: rest =>
      if c = ']' then .ok ([item], rest)
      else if c = ',' then do
        let (items, rest) ← readItems fuel depth (skipSpace rest)
        .ok (item :: items, rest)
      else .error (.malformed .expectingComma (rest.length + 1))

def readFields : (fuel depth : Nat) → Text → Except Trouble (List (Text × Json) × Text)
  | 0, _, t => .error (.malformed .expectingValue t.length)
  | _, _, [] => .error (.malformed .expectingName 0)
  | fuel + 1, depth, c :: rest =>
    if c = '"' then do
      let (name, rest) ← readString (c :: rest) rest
      match skipSpace rest with
      | [] => .error (.malformed .expectingColon 0)
      | c :: rest =>
        if c = ':' then do
          let (value, rest) ← readValue fuel depth (skipSpace rest)
          match skipSpace rest with
          | [] => .error (.malformed .expectingComma 0)
          | c :: rest =>
            if c = '\x7d' then .ok ([(name, value)], rest)
            else if c = ',' then do
              let (fields, rest) ← readFields fuel depth (skipSpace rest)
              .ok ((name, value) :: fields, rest)
            else .error (.malformed .expectingComma (rest.length + 1))
        else .error (.malformed .expectingColon (rest.length + 1))
    else .error (.malformed .expectingName (rest.length + 1))

end

/-- Turns a place into a line, a column and an offset. Lines and columns count from one. -/
def locate (t : Text) : Trouble → ReadFault
  | .malformed reason left =>
    let before := t.take (t.length - left)
    .malformed reason (before.count 0x0a + 1) ((before.reverse.takeWhile (· ≠ 0x0a)).length + 1)
      before.length
  | .integerTooLong digits => .integerTooLong digits
  | .tooDeep inArray => .tooDeep inArray

def readAll (t : Text) : Except Trouble Json := do
  let (value, rest) ← readValue (2 * t.length + 2) maxNesting (skipSpace t)
  match skipSpace rest with
  | [] => .ok value
  | c :: rest => .error (.malformed .extraData (c :: rest).length)

/-- The value of a JSON text. A byte order mark is no part of it. -/
def read (t : Text) : Except ReadFault Json :=
  match t with
  | 0xfeff :: _ => .error (locate t (.malformed .byteOrderMark t.length))
  | _ => (readAll t).mapError (locate t)

end Json

end CategorySelection
