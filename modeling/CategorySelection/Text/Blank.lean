import CategorySelection.Text
/-!
Blank code points, and texts without the blanks at their ends.
-/

namespace CategorySelection

/-- The code points that separate words: the ASCII controls from tab to carriage return and from
`0x1c` to `0x1f`, the space, the next-line control and the space separators of Unicode. -/
def CodePoint.isBlank (c : CodePoint) : Bool :=
  c.isBetween 0x09 0x0d || c.isBetween 0x1c 0x20 || c == 0x85 || c == 0xa0 || c == 0x1680 ||
    c.isBetween 0x2000 0x200a || c == 0x2028 || c == 0x2029 || c == 0x202f || c == 0x205f ||
    c == 0x3000

namespace Text

def trimLeft (t : Text) : Text := t.dropWhile CodePoint.isBlank

def trimRight (t : Text) : Text := (t.reverse.dropWhile CodePoint.isBlank).reverse

def trim (t : Text) : Text := trimRight (trimLeft t)

def isBlank (t : Text) : Bool := t.all CodePoint.isBlank

end Text

end CategorySelection
