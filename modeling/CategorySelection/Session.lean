import CategorySelection.Catalog
import CategorySelection.Checklist
/-!
Sessions. A session is opened on the expression that its host has; it holds a checklist of the
categories of a catalog and of that expression. Commands change the checklist, and the draft is at
all times the canonical expression of it. A commit hands the draft, or a text in its place, to the
host.
-/

namespace CategorySelection

/-- A session: the name it goes by, its checklist, the names it takes for the catalog, and the
expression that the host has. -/
structure Session where
  id : Text
  checklist : Checklist
  known : List Text
  host : Text
  deriving Repr, DecidableEq

structure Session.Row where
  name : Text
  mark : Mark
  inCatalog : Bool
  deriving Repr, DecidableEq

namespace Session

variable {σ τ : Type}

def draft (s : Session) : Text := s.checklist.expression

def isModified (s : Session) : Bool := s.draft ≠ s.host

def rows (s : Session) : List Row :=
  s.checklist.rows.map fun (name, mark) => ⟨name, mark, name ∈ s.known⟩

def note (s : Session) (level : Log.Level) (t : Text) : Log.Record :=
  { Log.note "session" level t with context := .ofSession s.id }

structure Opening where
  checklist : Checklist
  known : List Text
  host : Text
  selected : Nat

/-- Gets ready a session on the expression of a host, which counts without the blanks at its
ends. -/
def prepare (catalog : Catalog σ) (host : Text) : Action σ Opening := do
  let host := host.trim
  let known ← catalog.load
  let marks ← Expression.read host
  let checklist ← Checklist.start known marks
  return ⟨checklist, known, host, marks.length⟩

def begin (id : Text) (opening : Opening) : Action σ Session := do
  let s : Session := ⟨id, opening.checklist, opening.known, opening.host⟩
  Action.record (s.note Log.Level.info
    ("Opened filter session with " ++ Text.ofNat s.checklist.rows.length ++ " categories (" ++
      Text.ofNat opening.selected ++ " selected)"))
  return s

def openAs (id : Text) (catalog : Catalog σ) (host : Text) : Action σ Session := do
  begin id (← prepare catalog host)

def numberedId (n : Nat) : Text := Text.ofHex 32 n

/-- Opens a session under the next number. No number is used up if there is no session. -/
def openNumbered (catalog : Catalog σ) (host : Text) : Action (Nat × σ) Session := do
  let opening ← (prepare catalog host).onSecond
  let n := (← Action.world).1 + 1
  (Action.setWorld n).onFirst
  begin (numberedId n) opening

def setChecklist (checklist : Checklist) : Action Session Unit :=
  Action.change ({ · with checklist })

def toggle (name : Text) (direction : Direction) : Action Session Text := do
  (Checklist.setMark name direction.mark).onPart checklist fun checklist s => { s with checklist }
  let s ← Action.world
  Action.record { s.note Log.Level.debug
    ("Toggled " ++ name ++ " to " ++ direction.label ++ ": " ++ s.draft) with
      context := (Log.Context.ofCategory name).extendedBy (.ofSession s.id) }
  return s.draft

def clear (name : Text) : Action Session Text := do
  setChecklist ((← Action.world).checklist.clear name)
  return (← Action.world).draft

def clearAll : Action Session Text := do
  setChecklist (← Action.world).checklist.clearAll
  return (← Action.world).draft

def addCategory (catalog : Catalog σ) (name : Text) :
    Action (Session × σ) (Option Catalog.Rejection) := do
  match ← (catalog.add name).onSecond with
  | some why => return some why
  | none =>
    let (s, _) ← Action.world
    let name := name.trim
    let checklist ← Action.ofExcept (s.checklist.add name)
    (Action.setWorld { s with checklist, known := Text.insertSorted name s.known }).onFirst
    return none

/-- The session without a name in its catalog; the row of a category goes too if it is neutral. -/
def forget (name : Text) (s : Session) : Session :=
  { s with
    checklist :=
      if s.checklist.mark? name = some .neutral then s.checklist.remove name else s.checklist
    known := s.known.filter (· ≠ name) }

/-- Takes a category out of the catalog. Its row goes too unless it is selected. -/
def deleteCategory (catalog : Catalog σ) (name : Text) : Action (Session × σ) Text := do
  (catalog.delete name).onSecond
  (Action.change (forget name)).onFirst
  return (← Action.world).1.draft

/-- Restores the catalog. The checklist shows its names and the selected categories. -/
def restore (catalog : Catalog σ) : Action (Session × σ) Text := do
  catalog.restore.onSecond
  let known ← catalog.load.onSecond
  let (s, _) ← Action.world
  let checklist ← Action.ofExcept (Checklist.ofMarks known s.checklist.selected)
  (Action.setWorld { s with checklist, known }).onFirst
  return (← Action.world).1.draft

/-- What is handed to the host: the draft, or a text in its place without the blanks at its ends. -/
def offer (s : Session) (override : Option Text) : Text :=
  match override with
  | none => s.draft
  | some t => t.trim

def commit (send : Text → Action τ Unit) (override : Option Text) : Action (Session × τ) Text := do
  let value := (← Action.world).1.offer override
  (send value).onSecond
  (Action.change ({ · with host := value })).onFirst
  let shown : Text := if value.isEmpty then "<empty>" else value
  Action.record ((← Action.world).1.note Log.Level.info ("Committed filter expression: " ++ shown))
  return value

end Session

end CategorySelection
