import CategorySelection.Program.Launch
import CategorySelection.Session
import CategorySelection.Session.Target
/-!
Running the program. A run reads its command line, sets the program up and does its command; it
works on the number of the last session and on the disk, and reports what it has written.
-/

namespace CategorySelection

structure Endpoint where
  title : Text := "Category Filter API"
  host : Text
  port : Int
  logLevel : Text := "warning"
  logsAccess : Bool := false
  deriving Repr, DecidableEq

/-- How a command ends: its status, the lines it prints, a complaint, and the service it starts. -/
structure Ending where
  status : Nat := 0
  lines : List Text := []
  complaint : Option Text := none
  service : Option Endpoint := none
  deriving Repr, DecidableEq

def Ending.refused (complaint : Text) : Ending := { status := 1, complaint := some complaint }

namespace Program

/-- What the program works on: the number of the last session, and the disk. -/
abbrev World := Nat × Disk

def parse (expression : Text) : Action World Ending := do
  let marks ← Expression.read expression
  return { lines := marks.map fun (name, mark) => name ++ "\t" ++ mark.label }

def needed {σ α : Type} (otherwise : Fault) : Arguments.Given α → Action σ α
  | .value a => pure a
  | .nothing => Action.fail otherwise

def withNames (f : Text → Action Session Text) (names : List (Arguments.Given Text)) :
    Action Session Unit :=
  Action.forEach (fun name => do let _ ← f (← needed (.unhashable "list") name)) names

def switch (e : Edit) : Action Session Unit := do
  if e.clearAll then
    let _ ← Session.clearAll
  withNames (Session.toggle · .including) e.includes
  withNames (Session.toggle · .excluding) e.excludes

def hand (e : Edit) : Action (Session × World) Unit :=
  match e.output with
  | none => pure ()
  | some output => do
    let send (value : Text) : Action World Unit := do
      let p ← needed (.unwritable "list") output
      (Session.sendToFile p value).onSecond
    let _ ← Session.commit send none

def change (e : Edit) : Action (Session × World) Ending := do
  match ← (switch e).onFirst.attempt with
  | .error why => if why.kind.isValue then return .refused why.message else Action.fail why
  | .ok () =>
    (withNames Session.clear e.clears).onFirst
    match ← (hand e).attempt with
    | .error why => if why.kind = .commit then return .refused why.message else Action.fail why
    | .ok () => return { lines := [(← Action.world).1.draft] }

def edit (catalog : Catalog Disk) (e : Edit) : Action World Ending := do
  let session ← Session.openNumbered catalog e.expression
  Action.alongside session (change e)

def manage {σ : Type} (catalog : Catalog σ) : CatalogTask → Action σ (Option Catalog.Rejection)
  | .list => pure none
  | .add name => catalog.add name
  | .delete name => do catalog.delete name; return none
  | .restore => do catalog.restore; return none

def categories {σ : Type} (catalog : Catalog σ) (task : CatalogTask) : Action σ Ending := do
  match ← manage catalog task with
  | some why => return .refused why.notice
  | none => return { lines := ← catalog.load }

def serve (s : Settings) : Action World Ending := do
  Action.record (Log.note "app" Log.Level.info
    ("Starting filter API on " ++ s.apiHost ++ ":" ++ Text.ofInt s.apiPort))
  return { service := some { host := s.apiHost, port := s.apiPort } }

def perform (s : Settings) (catalog : Catalog Disk) : Command → Action World Ending
  | .parse expression => parse expression
  | .edit e => edit catalog e
  | .categories task => (categories catalog task).onSecond
  | .serve .. => serve s

structure Report where
  result : Except Fault Nat
  printed : Text := []
  errors : Text := []
  service : Option Endpoint := none

def linesOf (ts : List Text) : Text := ts.flatMap (· ++ [0x0a])

def complaintLine (why : Text) : Text := "error: " ++ why

/-- The report of a run: what had been written before, what the log of the command has become, and
the complaint of its ending. -/
def report (before : Text) (shown : List Log.Record → Text) (o : Outcome World Ending) :
    Report × World :=
  let errors := before ++ shown o.log
  match o.result with
  | .error e => ({ result := .error e, errors }, o.world)
  | .ok ending =>
    let complaints := ending.complaint.toList.map complaintLine
    ({ result := .ok ending.status, printed := linesOf ending.lines
       errors := errors ++ linesOf complaints, service := ending.service }, o.world)

def bare (records : List Log.Record) : Text := records.flatMap Log.Record.bare

/-- Sets the program up and does its command. The log is written as of a given time. -/
def launch (around : Surroundings) (seconds : Json) (i : Invocation) (w : World) : Report × World :=
  let o := (Launch.settings around i).onSecond w
  match o.result with
  | .error e => ({ result := .error e, errors := bare o.log }, o.world)
  | .ok s =>
    match Launch.output s with
    | .error e => ({ result := .error e, errors := bare o.log }, o.world)
    | .ok output =>
      let command : Action World Ending := do perform s (← (Launch.catalog s).onSecond) i.command
      report (bare o.log) (output.writeAll seconds) (command o.world)

/-- Runs the program with its arguments. A command line that is refused leaves its complaint, and
the command `parse` needs no setting up. -/
def run (around : Surroundings) (seconds : Json) (arguments : List Text) (w : World) :
    Report × World :=
  match Invocation.ofArguments arguments with
  | .error refusal => ({ result := .ok refusal.status, errors := refusal.message }, w)
  | .ok i =>
    match i.command with
    | .parse expression => report [] bare (parse expression w)
    | _ => launch around seconds i w

end Program

end CategorySelection
