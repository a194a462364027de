import CategorySelection.Fault
/-!
Categories of tests. A category has a name of ASCII letters and digits; in a selection it is
included, excluded or neutral.
-/

namespace CategorySelection

namespace Category

def isNameChar (c : CodePoint) : Bool := c.isAsciiLetter || c.isAsciiDigit

def isName (t : Text) : Bool := !t.isEmpty && t.all isNameChar

def checkName (name : Text) : Except Fault Unit :=
  if isName name then .ok () else .error (.invalidName name)

/-- Refuses a list in which something is no name; the first such is reported. -/
def checkNames : List Text → Except Fault Unit
  | [] => .ok ()
  | name :: rest => do checkName name; checkNames rest

end Category

inductive Mark
  | included
  | excluded
  | neutral
  deriving Repr, DecidableEq, Inhabited

namespace Mark

def all : List Mark := [.included, .excluded, .neutral]

def label : Mark → Text
  | .included => "included"
  | .excluded => "excluded"
  | .neutral => "neutral"

def ofLabel? (t : Text) : Option Mark := all.find? (·.label = t)

/-- The mark that a word stands for; another word is refused. -/
def ofLabel (t : Text) : Except Fault Mark :=
  match ofLabel? t with
  | some mark => .ok mark
  | none => .error (.unknownMark t)

def labels : List Text := Text.sortedSet (all.map label)

/-- The mark that two wishes make. Including goes before excluding. -/
def ofFlags (included excluded : Bool) : Mark :=
  if included then .included else if excluded then .excluded else .neutral

end Mark

inductive Direction
  | including
  | excluding
  deriving Repr, DecidableEq, Inhabited

namespace Direction

def all : List Direction := [.including, .excluding]

def label : Direction → Text
  | .including => "include"
  | .excluding => "exclude"

/-- The direction that a word stands for; another word is refused. -/
def ofLabel (t : Text) : Except Fault Direction :=
  match all.find? (·.label = t) with
  | some direction => .ok direction
  | none => .error (.unknownDirection t)

def mark : Direction → Mark
  | .including => .included
  | .excluding => .excluded

end Direction

end CategorySelection
