import CategorySelection.Action
import CategorySelection.Category
import CategorySelection.Text.Blank
/-!
Filter expressions. An atom `Category=Name` includes a category and `Category!=Name` excludes it.
Reading looks for the atoms from left to right, each with the longest possible name, and does not
interpret what stands between them. Writing gives the canonical expression of a list of marked
categories: the included ones joined by `|`, the excluded ones by `&`.
-/

namespace CategorySelection

structure Atom where
  name : Text
  mark : Mark
  deriving Repr, DecidableEq

namespace Atom

/-- The atom of a name and the word for a mark. Neutral makes no atom; every word but the one for
including excludes. -/
def ofLabel (name label : Text) : Except Fault Atom := do
  Category.checkName name
  if label = Mark.neutral.label then .error .neutralAtom
  else .ok ⟨name, if label = Mark.included.label then .included else .excluded⟩

def write (a : Atom) : Text :=
  "Category" ++ (if a.mark = .included then "=" else "!=") ++ a.name

end Atom

namespace Expression

def readOperator? : Text → Option (Mark × Text)
  | [] => none
  | c :: rest =>
    if c = '=' then some (.included, rest)
    else if c = '!' then (Text.after? "=" rest).map (.excluded, ·)
    else none

def readAtom? (t : Text) : Option Atom :=
  match (Text.after? "Category" t).bind readOperator? with
  | none => none
  | some (mark, rest) =>
    let name := rest.takeWhile Category.isNameChar
    if name.isEmpty then none else some ⟨name, mark⟩

/-- A piece of an expression: an atom, or a code point that belongs to none. -/
inductive Piece
  | atom (a : Atom)
  | gap (c : CodePoint)
  deriving Repr, DecidableEq

def piecesAfter : (skip : Nat) → Text → List Piece
  | _, [] => []
  | skip + 1, _ :: rest => piecesAfter skip rest
  | 0, c :: rest =>
    match readAtom? (c :: rest) with
    | some a => .atom a :: piecesAfter (a.write.length - 1) rest
    | none => .gap c :: piecesAfter 0 rest

def pieces (t : Text) : List Piece := piecesAfter 0 t

def atoms (t : Text) : List Atom :=
  (pieces t).filterMap fun
    | .atom a => some a
    | .gap _ => none

def isSeparator (c : CodePoint) : Bool :=
  c = '&' || c = '|' || c = '(' || c = ')' || c.isBlank

def unrecognized (t : Text) : Text :=
  (pieces t).filterMap fun
    | .atom _ => none
    | .gap c => if isSeparator c then none else some c

def withoutAtomsAfter : (skip : Nat) → Text → Text
  | _, [] => []
  | skip + 1, _ :: rest => withoutAtomsAfter skip rest
  | 0, c :: rest =>
    match readAtom? (c :: rest) with
    | some a => withoutAtomsAfter (a.write.length - 1) rest
    | none => c :: withoutAtomsAfter 0 rest

def withoutAtoms (t : Text) : Text := withoutAtomsAfter 0 t

/-- Takes an atom into the marks found so far. A category that is both included and excluded is
included. -/
def merge (marks : Assoc Mark) (a : Atom) : Assoc Mark :=
  match marks.get? a.name with
  | none => marks.put a.name a.mark
  | some mark => if mark = a.mark then marks else marks.put a.name .included

def contradicts (marks : Assoc Mark) (a : Atom) : Bool :=
  match marks.get? a.name with
  | none => false
  | some mark => mark ≠ a.mark

def mergeAll (marks : Assoc Mark) (as : List Atom) : Assoc Mark := as.foldl merge marks

def contradictions (marks : Assoc Mark) : List Atom → List Atom
  | [] => []
  | a :: rest =>
    if contradicts marks a then a :: contradictions (merge marks a) rest
    else contradictions (merge marks a) rest

def parse (t : Text) : Assoc Mark := mergeAll [] (atoms t)

def readingRecord (message : Text) : Log.Record :=
  { Log.note "expression" Log.Level.debug message with tag := some (.string "parser") }

def leftRecords : Text → List Log.Record
  | [] => []
  | left => [readingRecord ("Ignoring unrecognized text in filter expression: " ++ left.quoted)]

def atomRecords (t : Text) : List Log.Record := leftRecords (unrecognized t)

def contradictionRecord (a : Atom) : Log.Record :=
  readingRecord ("Category " ++ a.name ++ " is both included and excluded, keeping include")

def parseRecords (t : Text) : List Log.Record :=
  atomRecords t ++ (contradictions [] (atoms t)).map contradictionRecord

def findAtoms {σ : Type} (t : Text) : Action σ (List Atom) := do
  Action.write (atomRecords t)
  return atoms t

def read {σ : Type} (t : Text) : Action σ (Assoc Mark) := do
  Action.write (parseRecords t)
  return parse t

/-- Looks for the atoms of an expression that may be missing. Without one, and in a blank one, there
is nothing to look for. Else each atom is made of its name and the word for its mark, and a second
pass takes out the atoms and then the separators to see what is left. -/
def scan {σ : Type} : Option Text → Action σ (List Atom)
  | none => return []
  | some t =>
    if t.isBlank then return []
    else do
      let found ← Action.ofExcept ((atoms t).mapM fun a => Atom.ofLabel a.name a.mark.label)
      Action.write (leftRecords ((withoutAtoms t).filter (!isSeparator ·)))
      return found

def collect {σ : Type} (given : Option Text) : Action σ (Assoc Mark) := do
  let found ← scan given
  Action.write ((contradictions [] found).map contradictionRecord)
  return mergeAll [] found

def namesMarked (mark : Mark) (marks : List (Text × Mark)) : List Text :=
  (marks.filter (·.2 = mark)).map (·.1)

/-- Atoms of one mark joined by an operator; several of them stand in parentheses where the clause
is one of two. -/
def writeClause (mark : Mark) (operator : Text) (grouped : Bool) (names : List Text) : Text :=
  let clause := Text.join operator (names.map fun name => Atom.write ⟨name, mark⟩)
  if grouped && 1 < names.length then "(" ++ clause ++ ")" else clause

def write (marks : List (Text × Mark)) : Text :=
  let included := namesMarked .included marks
  let excluded := namesMarked .excluded marks
  let both := !included.isEmpty && !excluded.isEmpty
  let including := writeClause .included "|" both included
  let excluding := writeClause .excluded "&" both excluded
  Text.join "&" ([including, excluding].filter (!·.isEmpty))

end Expression

end CategorySelection
