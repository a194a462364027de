import CategorySelection.Json
/-!
Log records. A record is made by a logger at a level; it may carry up to three context fields, a tag
that lets debugging output be switched on by topic, and the line of a fault.
-/

namespace CategorySelection

namespace Log

/-- How grave a record is; higher is graver. -/
abbrev Level := Int

namespace Level

def debug : Level := 10

def info : Level := 20

def warning : Level := 30

def error : Level := 40

def critical : Level := 50

def named : List (Level × Text) :=
  [(0, "NOTSET"), (debug, "DEBUG"), (info, "INFO"), (warning, "WARNING"), (error, "ERROR"),
    (critical, "CRITICAL")]

def name (level : Level) : Text :=
  match named.find? (·.1 = level) with
  | some (_, name) => name
  | none => "Level " ++ Text.ofInt level

end Level

/-- What a record says: a text, or a template together with what is filled into it. -/
inductive Message
  | text (t : Text)
  | template (t : Text) (arguments : List Json)
  deriving Repr, Inhabited

structure Context where
  sessionId : Option Json := none
  category : Option Json := none
  storageKey : Option Json := none
  deriving Repr, Inhabited

namespace Context

def fields : List Text := ["session_id", "category", "storage_key"]

def entries (c : Context) : List (Text × Json) :=
  (fields.zip [c.sessionId, c.category, c.storageKey]).filterMap fun (name, value) =>
    value.map (name, ·)

/-- The fields of both contexts; a field that both set is the one of the second. -/
def extendedBy (base c : Context) : Context :=
  ⟨c.sessionId <|> base.sessionId, c.category <|> base.category, c.storageKey <|> base.storageKey⟩

def ofSession (id : Text) : Context := { sessionId := some (.string id) }

def ofCategory (name : Text) : Context := { category := some (.string name) }

def ofCatalog (key : Text) : Context := { storageKey := some (.string key) }

end Context

structure Record where
  logger : Text
  level : Level
  message : Message
  context : Context := {}
  tag : Option Json := none
  trouble : Option Text := none
  deriving Repr, Inhabited

def logger (part : Text) : Text := "category_filter." ++ part

def rootLogger : Text := "root"

/-- The logger that a name stands for. The empty name stands for the logger above all others. -/
def loggerOf (name : Text) : Text := if name.isEmpty then rootLogger else name

def note (part : Text) (level : Level) (t : Text) : Record :=
  { logger := logger part, level := level, message := .text t }

end Log

end CategorySelection
