import CategorySelection.Fault
import CategorySelection.Instant
import CategorySelection.Json.Display
import CategorySelection.Json.Printer
import CategorySelection.Log.Record
import CategorySelection.Template.Filling
/-!
Log lines. A line holds what is shown of a record, and has two layouts: one for people, in which the
parts stand one after the other, and one for programs, which is a JSON object in ASCII.
-/

namespace CategorySelection

namespace Log

/-- What a message says. A template is filled in with its arguments. -/
def Message.filled : Message → Except Fault Text
  | .text t => .ok t
  | .template t arguments => (Template.fill t arguments).mapError .template

structure Line where
  time : Moment
  level : Text
  logger : Text
  message : Text
  context : Context := {}
  trouble : Option Text := none
  deriving Repr, Inhabited

namespace Line

/-- The part of the program that a logger stands for: the last of the parts that dots separate. -/
def component (logger : Text) : Text := ((Text.split '.' logger).getLast?).getD []

def contextText (c : Context) : Text :=
  "[" ++ Text.join " " (c.entries.map fun (name, value) => name ++ "=" ++ value.display) ++ "]"

def parts (l : Line) : List Text :=
  [l.time.text, "[" ++ Text.padRight 8 l.level ++ "]",
    "[" ++ Text.padRight 10 (component l.logger) ++ "]"] ++
  (if l.context.entries.isEmpty then [] else [contextText l.context]) ++ [l.message] ++
  l.trouble.toList

def text (l : Line) : Text := Text.join " " l.parts

def fixedFields (l : Line) : List (Text × Json) :=
  [("timestamp", .string l.time.exact), ("level", .string l.level),
    ("component", .string (component l.logger)), ("message", .string l.message)]

def troubleField : Option Text → List (Text × Json)
  | none => []
  | some t => [("exception", .string t)]

def toJson (l : Line) : Json :=
  .object (l.fixedFields ++ l.context.entries ++ troubleField l.trouble)

def json (l : Line) : Text := l.toJson.writeLine .spaced

end Line

def Record.line (seconds : Json) (r : Record) : Except Fault Line := do
  let time ← (Moment.ofSeconds seconds).mapError Fault.instant
  let message ← r.message.filled
  return ⟨time, r.level.name, r.logger, message, r.context, r.trouble⟩

end Log

end CategorySelection
