import CategorySelection.Log.Fields
import CategorySelection.Log.Line
import CategorySelection.Log.Tags
import CategorySelection.Text.Casing
/-!
Output of the log. What is written is decided by a threshold and by the tags that are switched on.
-/

namespace CategorySelection

namespace Log

namespace Level

def secondNames : Assoc Level := [("WARN", warning), ("FATAL", critical)]

def thresholds : Assoc Level := named.map (fun (level, name) => (name, level)) ++ secondNames

/-- The names that are set aside for the layouts of lines, each with the fault of taking what it
stands for as a threshold. -/
def reserved : Assoc Fault :=
  [("BASIC_FORMAT", .unknownLevel "%(levelname)s:%(name)s:%(message)s"),
    ("_STYLES", .unusableLevel
      ("\x7b'%': (<class 'logging.PercentStyle'>, '%(levelname)s:%(name)s:%(message)s'), " ++
        "'\x7b': (<class 'logging.StrFormatStyle'>, " ++
        "'\x7blevelname\x7d:\x7bname\x7d:\x7bmessage\x7d'), '$': " ++
        "(<class 'logging.StringTemplateStyle'>, " ++
        "'$\x7blevelname\x7d:$\x7bname\x7d:$\x7bmessage\x7d')\x7d"))]

/-- The threshold of a name in any case. A name that is not known stands for `info`, but the names
that are set aside are refused. -/
def ofName (name : Text) : Except Fault Level :=
  match reserved.get? name.toUpper with
  | some e => .error e
  | none => .ok ((Assoc.get? name.toUpper thresholds).getD info)

end Level

/-- What is written of a record before the output is set up. Only warnings and graver records show,
and only those of the logger `root` show more than their message. -/
def Record.bare (r : Record) : Text :=
  match r.message.filled with
  | .error _ => []
  | .ok t =>
    if r.level < .warning then []
    else if r.logger = rootLogger then
      Text.join ":" [r.level.name, r.logger, t] ++ [0x0a]
    else t ++ [0x0a]

inductive Layout
  | people
  | programs
  deriving Repr, DecidableEq, Inhabited

def Layout.write : Layout → Line → Text
  | .people => Line.text
  | .programs => Line.json

structure Output where
  threshold : Level
  layout : Layout
  tags : Tags
  deriving Repr, DecidableEq, Inhabited

namespace Output

def make (levelName : Text) (json : Bool) (tags : Text) : Except Fault Output := do
  let threshold ← Level.ofName levelName
  return ⟨threshold, if json then .programs else .people, Tags.ofText tags⟩

/-- Whether records of a level are made. The level zero is that of no record. -/
def admits (o : Output) (level : Level) : Bool := 0 < level && o.threshold ≤ level

def shows (o : Output) (r : Record) : Bool :=
  o.admits r.level && (o.tags.passes r.level r.tag).toOption = some true

def write (o : Output) (seconds : Json) (r : Record) : Except Fault Text := do
  return o.layout.write (← r.line seconds) ++ [0x0a]

/-- What is written of a record to which a caller attaches fields. They are only looked at if the
record is made at all. -/
def writeAttached (o : Output) (seconds : Json) (r : Record) (fields : Assoc Json) :
    Except Fault Text := do
  if !o.admits r.level then return []
  let r ← r.attach fields
  if ← o.tags.passes r.level r.tag then o.write seconds r else return []

/-- What is written of some records that are made at one time. A record that has no written form is
left out. -/
def writeAll (o : Output) (seconds : Json) (rs : List Record) : Text :=
  (rs.filter o.shows).flatMap fun r =>
    match o.write seconds r with
    | .ok t => t
    | .error _ => []

end Output

end Log

end CategorySelection
