import CategorySelection.Text
/-!
Letter case, as far as it matters for words written in ASCII letters. Three code points outside
ASCII have an ASCII letter as their other case: the dotless i and the long s are small forms of `I`
and `S`, and the Kelvin sign is a capital form of `k`. So a text has a given ASCII word as its upper
or lower case exactly if the functions here turn it into that word.
-/

namespace CategorySelection

namespace CodePoint

def toUpper (c : CodePoint) : CodePoint :=
  if h : 0x61 ≤ c.val ∧ c.val ≤ 0x7a then ⟨c.val - 0x20, by omega⟩
  else if c = 0x131 then 'I' else if c = 0x17f then 'S' else c

def toLower (c : CodePoint) : CodePoint :=
  if h : 0x41 ≤ c.val ∧ c.val ≤ 0x5a then ⟨c.val + 0x20, by omega⟩
  else if c = 0x212a then 'k' else c

def foldCase (c : CodePoint) : CodePoint := if c = 0x17f then 's' else c.toLower

end CodePoint

def Text.toUpper (t : Text) : Text := t.map CodePoint.toUpper

def Text.toLower (t : Text) : Text := t.map CodePoint.toLower

def Text.foldCase (t : Text) : Text := t.map CodePoint.foldCase

end CategorySelection
