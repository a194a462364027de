import CategorySelection.Json.Reader
import CategorySelection.Text.Utf8
/-!
JSON text as bytes. A JSON text starts with ASCII, so the zeros among its first bytes tell how wide
its units are and whether the highest byte of a unit comes first.
-/

namespace CategorySelection

namespace Json

inductive Encoding
  | bytes
  | halves (highFirst : Bool)
  | wholes (highFirst : Bool)
  deriving Repr, DecidableEq

namespace Encoding

def ofBytes : List UInt8 → Encoding
  | a :: b :: c :: d :: _ =>
    if a = 0 then if b = 0 then .wholes true else .halves true
    else if b = 0 then if c = 0 ∧ d = 0 then .wholes false else .halves false
    else .bytes
  | [a, b] => if a = 0 then .halves true else if b = 0 then .halves false else .bytes
  | _ => .bytes

def half (highFirst : Bool) (a b : UInt8) : Nat :=
  if highFirst then a.toNat * 256 + b.toNat else b.toNat * 256 + a.toNat

def halvesOf? (highFirst : Bool) : List UInt8 → Option (List StringPart)
  | [] => some []
  | [_] => none
  | a :: b :: rest =>
    (.escaped (Fin.ofNat 0x10000 (half highFirst a b)) :: ·) <$> halvesOf? highFirst rest

/-- The code points that groups of four bytes stand for, unless one of them stands for none or bytes
are left over. -/
def wholesOf? (highFirst : Bool) : List UInt8 → Option Text
  | [] => some []
  | a :: b :: c :: d :: rest =>
    let first := half highFirst a b
    let second := half highFirst c d
    let n := if highFirst then first * 65536 + second else second * 65536 + first
    if h : n < 0x110000 then (⟨n, h⟩ :: ·) <$> wholesOf? highFirst rest else none
  | _ => none

end Encoding

/-- The text that the body of a message stands for, which comes as the text that its bytes are in
UTF-8. A byte order mark before it does not count. -/
def ofBody? (body : Text) : Option Text :=
  let bytes := body.flatMap Utf8.bytesOf
  match Encoding.ofBytes bytes with
  | .bytes => some body.unmarked
  | .halves highFirst => joinParts <$> Encoding.halvesOf? highFirst bytes
  | .wholes highFirst => Encoding.wholesOf? highFirst bytes

end Json

end CategorySelection
