import CategorySelection.Text.Printable
/-!
Quoted text, the form in which messages show a name or a text of the user. It stands in single
quotes, or in double quotes if it has a single quote and no double one, and every code point that
is not printable is shown by an escape, so a quoted text is always one line.
-/

namespace CategorySelection

def CodePoint.quoted (quote c : CodePoint) : Text :=
  if c = quote ∨ c = '\\' then ['\\', c]
  else if c = 0x0a then "\\n"
  else if c = 0x0d then "\\r"
  else if c = 0x09 then "\\t"
  else if c.isPrintable then [c]
  else if c.val ≤ 0xff then "\\x" ++ Text.ofHex 2 c.val
  else if c.val ≤ 0xffff then "\\u" ++ Text.ofHex 4 c.val
  else "\\U" ++ Text.ofHex 8 c.val

namespace Text

def quoteOf (t : Text) : CodePoint := if 0x27 ∈ t ∧ 0x22 ∉ t then 0x22 else 0x27

def quoted (t : Text) : Text := t.quoteOf :: t.flatMap (CodePoint.quoted t.quoteOf) ++ [t.quoteOf]

def quotedList (ts : List Text) : Text := "[" ++ join ", " (ts.map quoted) ++ "]"

end Text

end CategorySelection
