import CategorySelection.Binary64.Decimal
import CategorySelection.Json
/-!
Writing JSON text. The line form stands on one line, its separators and its alphabet given by a
`LineStyle`. The page form puts every entry on a line of its own, with the names of an object in
increasing order, and comes in the chunks in which it is sent to a file.
-/

namespace CategorySelection

namespace Json

def escapeLetter? (c : CodePoint) : Option CodePoint :=
  if c = '"' ∨ c = '\\' then some c
  else if c = 0x08 then some 'b'
  else if c = 0x0c then some 'f'
  else if c = 0x0a then some 'n'
  else if c = 0x0d then some 'r'
  else if c = 0x09 then some 't'
  else none

def unitEscape (n : Nat) : Text := "\\u" ++ Text.ofHex 4 n

/-- How a code point is written in a string of ASCII. A code point past the sixteen bits is written
as a pair of halves. -/
def escapeAscii (c : CodePoint) : Text :=
  match escapeLetter? c with
  | some letter => ['\\', letter]
  | none =>
    if c.isBetween 0x20 0x7e then [c]
    else if c.val ≤ 0xffff then unitEscape c.val
    else
      unitEscape (0xd800 + (c.val - 0x10000) / 0x400) ++
        unitEscape (0xdc00 + (c.val - 0x10000) % 0x400)

/-- How a code point is written in a string that may hold any code point but the ASCII controls. -/
def escapeControl (c : CodePoint) : Text :=
  match escapeLetter? c with
  | some letter => ['\\', letter]
  | none => if c.val ≤ 0x1f then unitEscape c.val else [c]

def writeString (ascii : Bool) (t : Text) : Text :=
  "\"" ++ Text.replaced (if ascii then escapeAscii else escapeControl) t ++ "\""

def writeFloat : Binary64 → Text
  | .notANumber => "NaN"
  | .infinity negative => if negative then "-Infinity" else "Infinity"
  | x => x.text

/-- How a value is written on one line: whether in ASCII only, and what stands between the entries
and behind a name. -/
structure LineStyle where
  ascii : Bool
  comma : Text
  colon : Text

def LineStyle.spaced : LineStyle := ⟨true, ", ", ": "⟩

def LineStyle.dense : LineStyle := ⟨false, ",", ":"⟩

mutual

def writeLine (style : LineStyle) : Json → Text
  | .null => "null"
  | .bool b => if b then "true" else "false"
  | .int n => Text.ofInt n
  | .float x => writeFloat x
  | .string t => writeString style.ascii t
  | .array items => "[" ++ writeLineItems style items ++ "]"
  | .object fields => "\x7b" ++ writeLineFields style fields ++ "\x7d"

def writeLineItems (style : LineStyle) : List Json → Text
  | [] => []
  | [item] => writeLine style item
  | item :: rest => writeLine style item ++ style.comma ++ writeLineItems style rest

def writeLineFields (style : LineStyle) : List (Text × Json) → Text
  | [] => []
  | [(name, value)] => writeString style.ascii name ++ style.colon ++ writeLine style value
  | (name, value) :: rest =>
    writeString style.ascii name ++ style.colon ++ writeLine style value ++ style.comma ++
      writeLineFields style rest

end

mutual

def sortNames : Json → Json
  | .array items => .array (sortNamesItems items)
  | .object fields => .object (Assoc.sorted (sortNamesFields fields))
  | value => value

def sortNamesItems : List Json → List Json
  | [] => []
  | item :: rest => sortNames item :: sortNamesItems rest

def sortNamesFields : List (Text × Json) → List (Text × Json)
  | [] => []
  | (name, value) :: rest => (name, sortNames value) :: sortNamesFields rest

end

def newLine (level : Nat) : Text := 0x0a :: Text.repeated (2 * level) ' '

def prepend (t : Text) : List Text → List Text
  | [] => [t]
  | chunk :: rest => (t ++ chunk) :: rest

mutual

def chunksAt (level : Nat) : Json → List Text
  | .null => ["null"]
  | .bool b => [if b then "true" else "false"]
  | .int n => [Text.ofInt n]
  | .float x => [writeFloat x]
  | .string t => [writeString false t]
  | .array [] => ["[]"]
  | .array items =>
    chunksOfItems (level + 1) ('[' :: newLine (level + 1)) items ++ [newLine level, "]"]
  | .object [] => ["\x7b\x7d"]
  | .object fields =>
    [("\x7b" : Text), newLine (level + 1)] ++ chunksOfFields (level + 1) none fields ++
      [newLine level, "\x7d"]

/-- The chunks of the values of an array; `lead` is written before the first of them. A value that
is no array or object is one chunk together with what stands before it. -/
def chunksOfItems (level : Nat) (lead : Text) : List Json → List Text
  | [] => []
  | item :: rest =>
    (match item with
      | .array _ | .object _ => lead :: chunksAt level item
      | _ => prepend lead (chunksAt level item)) ++
    chunksOfItems level (',' :: newLine level) rest

/-- The chunks of the names and values of an object; `lead` is written before the first of them. -/
def chunksOfFields (level : Nat) (lead : Option Text) : List (Text × Json) → List Text
  | [] => []
  | (name, value) :: rest =>
    lead.toList ++ [writeString false name, ": "] ++ chunksAt level value ++
      chunksOfFields level (some (',' :: newLine level)) rest

end

def pageChunks (value : Json) : List Text := chunksAt 0 (sortNames value)

def writePage (value : Json) : Text := (pageChunks value).flatten

end Json

end CategorySelection
