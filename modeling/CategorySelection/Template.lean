import CategorySelection.Text
/-!
Templates of messages. A template is text with directives in it; a directive starts with a percent
sign, says how wide and how precise a value is to be written, and ends with the letter of its
conversion. Reading a template splits it into pieces. Nothing is an error at this stage: a directive
that breaks off is a piece of its own, because the pieces before it are filled in first.
-/

namespace CategorySelection

namespace Template

inductive Extent
  | unset
  | fixed (n : Nat)
  | argument
  deriving Repr, DecidableEq, Inhabited

def Extent.push (e : Extent) (digit : Nat) : Extent :=
  match e with
  | .fixed n => .fixed (10 * n + digit)
  | _ => .fixed digit

/-- How a directive wants its value to be written. `left` puts the filling behind the value, `plus`
and `blank` give a number that is not negative a sign or a space, `marked` shows the base or the
point of a number, and `zeros` fills a number up with zeros. -/
structure Directive where
  key : Option Text := none
  left : Bool := false
  plus : Bool := false
  blank : Bool := false
  marked : Bool := false
  zeros : Bool := false
  width : Extent := .unset
  precision : Extent := .unset
  deriving Repr, DecidableEq, Inhabited

/-- A piece of a template: a code point that stands for itself, a directive with its conversion and
the position of that in the template, a directive that the end of the template breaks off, or a key
without its closing bracket. -/
inductive Piece
  | letter (c : CodePoint)
  | directive (d : Directive) (conversion : CodePoint) (position : Nat)
  | brokenOff (d : Directive)
  | unclosedKey
  deriving Repr, DecidableEq

/-- What of a template has been read last: text, the sign of a directive, a part of its key with the
brackets that are open, its flags, and so on in the order in which the parts come. -/
inductive Stage
  | text
  | opened
  | key (depth : Nat) (reversed : Text)
  | flags
  | width
  | anyWidth
  | point
  | precision
  | anyPrecision
  | size
  deriving Repr, DecidableEq

def Directive.flagged (d : Directive) (c : CodePoint) : Option Directive :=
  if c = '-' then some { d with left := true }
  else if c = '+' then some { d with plus := true }
  else if c = ' ' then some { d with blank := true }
  else if c = '#' then some { d with marked := true }
  else if c = '0' then some { d with zeros := true }
  else none

def digit? (c : CodePoint) : Option Nat := if c.isAsciiDigit then some (c.val - 0x30) else none

/-- Where the letter of a size may stand; it has no meaning. `none` is the conversion itself. -/
def stageAtSize (c : CodePoint) : Option Stage :=
  if c = 'h' ∨ c = 'l' ∨ c = 'L' then some .size else none

def stageAtPoint (d : Directive) (c : CodePoint) : Directive × Option Stage :=
  if c = '.' then ({ d with precision := .fixed 0 }, some .point) else (d, stageAtSize c)

def stageAtPrecision (d : Directive) (c : CodePoint) : Directive × Option Stage :=
  match digit? c with
  | some n => ({ d with precision := d.precision.push n }, some .precision)
  | none => (d, stageAtSize c)

def stageAtWidth (d : Directive) (c : CodePoint) : Directive × Option Stage :=
  match digit? c with
  | some n => ({ d with width := d.width.push n }, some .width)
  | none => stageAtPoint d c

def stageAtFlags (d : Directive) (c : CodePoint) : Directive × Option Stage :=
  match d.flagged c with
  | some d => (d, some .flags)
  | none => if c = '*' then ({ d with width := .argument }, some .anyWidth) else stageAtWidth d c

/-- What a code point makes of a directive that has been read up to a stage; without a next stage
the code point is the conversion. -/
def stageAfter (d : Directive) (c : CodePoint) : Stage → Directive × Option Stage
  | .text | .opened | .flags | .key .. => stageAtFlags d c
  | .width => stageAtWidth d c
  | .anyWidth => stageAtPoint d c
  | .point =>
    if c = '*' then ({ d with precision := .argument }, some .anyPrecision)
    else stageAtPrecision d c
  | .precision => stageAtPrecision d c
  | .anyPrecision => (d, stageAtSize c)
  | .size => (d, none)

def piecesFrom (position : Nat) (d : Directive) : Stage → Text → List Piece
  | .text, [] => []
  | .key .., [] => [.unclosedKey]
  | _, [] => [.brokenOff d]
  | .text, c :: rest =>
    if c = '%' then piecesFrom (position + 1) {} .opened rest
    else .letter c :: piecesFrom (position + 1) {} .text rest
  | .key depth name, c :: rest =>
    if c = ')' ∧ depth = 0 then piecesFrom (position + 1) { d with
      key := some name.reverse } .flags rest
    else
      let depth := if c = ')' then depth - 1 else if c = '(' then depth + 1 else depth
      piecesFrom (position + 1) d (.key depth (c :: name)) rest
  | stage, c :: rest =>
    if stage = .opened ∧ c = '%' then .letter c :: piecesFrom (position + 1) {} .text rest
    else if stage = .opened ∧ c = '(' then piecesFrom (position + 1) d (.key 0 []) rest
    else
      match stageAfter d c stage with
      | (d, some next) => piecesFrom (position + 1) d next rest
      | (d, none) => .directive d c position :: piecesFrom (position + 1) {} .text rest

def pieces (t : Text) : List Piece := piecesFrom 0 {} .text t

end Template

end CategorySelection
