import CategorySelection.Text
/-!
Text as bytes. Files and answers are strict UTF-8: a surrogate has no bytes, and bytes that are not
the shortest form of a code point are refused with the place and the reason.
-/

namespace CategorySelection

namespace Utf8

/-- The surrogates that a text could not be written for: the first of them, and the places from
`start` to just before `stop` where they stand. -/
structure EncodeFault where
  first : CodePoint
  start : Nat
  stop : Nat
  deriving Repr, DecidableEq

inductive DecodeReason
  | invalidStart
  | invalidContinuation
  | unexpectedEnd
  deriving Repr, DecidableEq

/-- The bytes that could not be read: the first of them, and the places from `start` to just before
`stop`. -/
structure DecodeFault where
  reason : DecodeReason
  first : UInt8
  start : Nat
  stop : Nat
  deriving Repr, DecidableEq

def DecodeReason.message : DecodeReason → Text
  | .invalidStart => "invalid start byte"
  | .invalidContinuation => "invalid continuation byte"
  | .unexpectedEnd => "unexpected end of data"

def places (start stop : Nat) : Text :=
  if stop = start + 1 then Text.ofNat start
  else Text.ofNat start ++ "-" ++ Text.ofNat (stop - 1)

def EncodeFault.message (e : EncodeFault) : Text :=
  "'utf-8' codec can't encode " ++
    (if e.stop = e.start + 1
      then "character '\\u" ++ Text.ofHex 4 e.first.val ++ "'"
      else "characters") ++
    " in position " ++ places e.start e.stop ++ ": surrogates not allowed"

def DecodeFault.message (e : DecodeFault) : Text :=
  "'utf-8' codec can't decode " ++
    (if e.stop = e.start + 1 then "byte 0x" ++ Text.ofHex 2 e.first.toNat else "bytes") ++
    " in position " ++ places e.start e.stop ++ ": " ++ e.reason.message

def bytesOf (c : CodePoint) : List UInt8 :=
  let n := c.val
  if n < 0x80 then [UInt8.ofNat n]
  else if n < 0x800 then [UInt8.ofNat (0xc0 + n / 64), UInt8.ofNat (0x80 + n % 64)]
  else if n < 0x10000 then
    [UInt8.ofNat (0xe0 + n / 4096), UInt8.ofNat (0x80 + n / 64 % 64), UInt8.ofNat (0x80 + n % 64)]
  else
    [UInt8.ofNat (0xf0 + n / 262144), UInt8.ofNat (0x80 + n / 4096 % 64),
      UInt8.ofNat (0x80 + n / 64 % 64), UInt8.ofNat (0x80 + n % 64)]

def firstSurrogates (place : Nat) : Text → Option EncodeFault
  | [] => none
  | c :: rest =>
    if c.isSurrogate then
      some ⟨c, place, place + 1 + (rest.takeWhile CodePoint.isSurrogate).length⟩
    else firstSurrogates (place + 1) rest

/-- The first run of surrogates in a name of a file that starts at `place`; surrogates that stand
for bytes are none before it. -/
def firstUnescaped (place : Nat) : Text → Option EncodeFault
  | [] => none
  | c :: rest =>
    if c.isSurrogate && !c.isEscapedByte then
      some ⟨c, place, place + 1 + (rest.takeWhile CodePoint.isSurrogate).length⟩
    else firstUnescaped (place + 1) rest

def nameBytes (name : Text) : List UInt8 :=
  name.flatMap fun c => if c.isEscapedByte then [UInt8.ofNat (c.val % 256)] else bytesOf c

def encode (t : Text) : Except EncodeFault (List UInt8) :=
  match firstSurrogates 0 t with
  | some e => .error e
  | none => .ok (t.flatMap bytesOf)

def tailLength? (b : UInt8) : Option Nat :=
  if b < 0x80 then some 0
  else if b < 0xc2 then none
  else if b < 0xe0 then some 1
  else if b < 0xf0 then some 2
  else if b < 0xf5 then some 3
  else none

/-- Whether a byte may follow directly on a first byte: it must not make a code point that has a
shorter form, a surrogate, or a number past the last code point. -/
def isSecond (first b : UInt8) : Bool :=
  (if first = 0xe0 then 0xa0 else if first = 0xf0 then 0x90 else 0x80) ≤ b &&
    b ≤ (if first = 0xed then 0x9f else if first = 0xf4 then 0x8f else 0xbf)

def isTail (b : UInt8) : Bool := 0x80 ≤ b && b ≤ 0xbf

/-- The code point with a given number; every caller has one below the end of the code points. -/
def codePoint (n : Nat) : CodePoint := Fin.ofNat 0x110000 n

def tailValue (b : UInt8) : Nat := b.toNat % 64

def decodeFrom (place : Nat) : List UInt8 → Except DecodeFault Text
  | [] => .ok []
  | a :: rest =>
    match tailLength? a, rest with
    | none, _ => .error ⟨.invalidStart, a, place, place + 1⟩
    | some 0, rest => (codePoint a.toNat :: ·) <$> decodeFrom (place + 1) rest
    | some _, [] => .error ⟨.unexpectedEnd, a, place, place + 1⟩
    | some 1, b :: rest =>
      if isSecond a b then
        (codePoint (a.toNat % 32 * 64 + tailValue b) :: ·) <$> decodeFrom (place + 2) rest
      else .error ⟨.invalidContinuation, a, place, place + 1⟩
    | some 2, b :: rest =>
      if isSecond a b then
        match rest with
        | [] => .error ⟨.unexpectedEnd, a, place, place + 2⟩
        | c :: rest =>
          if isTail c then
            (codePoint (a.toNat % 16 * 4096 + tailValue b * 64 + tailValue c) :: ·) <$>
              decodeFrom (place + 3) rest
          else .error ⟨.invalidContinuation, a, place, place + 2⟩
      else .error ⟨.invalidContinuation, a, place, place + 1⟩
    | some _, b :: rest =>
      if isSecond a b then
        match rest with
        | [] => .error ⟨.unexpectedEnd, a, place, place + 2⟩
        | c :: rest =>
          if isTail c then
            match rest with
            | [] => .error ⟨.unexpectedEnd, a, place, place + 3⟩
            | d :: rest =>
              if isTail d then
                (codePoint (a.toNat % 8 * 262144 + tailValue b * 4096 +
                  tailValue c * 64 + tailValue d)
                  :: ·) <$> decodeFrom (place + 4) rest
              else .error ⟨.invalidContinuation, a, place, place + 3⟩
          else .error ⟨.invalidContinuation, a, place, place + 2⟩
      else .error ⟨.invalidContinuation, a, place, place + 1⟩

def decode (bytes : List UInt8) : Except DecodeFault Text := decodeFrom 0 bytes

end Utf8

def Text.byteOrderMark : CodePoint := 0xfeff

def Text.unmarked : Text → Text
  | [] => []
  | c :: rest => if c = byteOrderMark then rest else c :: rest

/-- A text in which every line ends with a line feed alone: a carriage return is one too, together
with the line feed behind it if there is one. -/
def Text.unifyLineEnds : Text → Text
  | [] => []
  | 0x0d :: 0x0a :: rest => 0x0a :: unifyLineEnds rest
  | c :: rest => (if c = 0x0d then 0x0a else c) :: unifyLineEnds rest

end CategorySelection
