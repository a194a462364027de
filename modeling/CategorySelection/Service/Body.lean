import CategorySelection.Category
import CategorySelection.Json.Encoding
/-!
Bodies of requests. A body is JSON text; what a request needs is read from its fields, and
everything that is wrong with them is told at once, in the order of the fields.
-/

namespace CategorySelection

namespace Service

inductive Flaw
  | missing
  | noObject
  | noTable
  | noText
  | noMark
  | noDirection
  | unknownField
  | noJson (reason : Text)
  deriving Repr, DecidableEq

namespace Flaw

def word : Flaw → Text
  | .missing => "missing"
  | .noObject => "model_attributes_type"
  | .noTable => "dict_type"
  | .noText => "string_type"
  | .noMark | .noDirection => "enum"
  | .unknownField => "extra_forbidden"
  | .noJson _ => "json_invalid"

def choices (labels : List Text) : Text :=
  match labels.getLast? with
  | none => []
  | some last =>
    let quote (t : Text) : Text := "'" ++ t ++ "'"
    Text.join ", " (labels.dropLast.map quote) ++ " or " ++ quote last

def markChoices : Text := choices (Mark.all.map Mark.label)

def directionChoices : Text := choices (Direction.all.map Direction.label)

def message : Flaw → Text
  | .missing => "Field required"
  | .noObject => "Input should be a valid dictionary or object to extract fields from"
  | .noTable => "Input should be a valid dictionary"
  | .noText => "Input should be a valid string"
  | .noMark => "Input should be " ++ markChoices
  | .noDirection => "Input should be " ++ directionChoices
  | .unknownField => "Extra inputs are not permitted"
  | .noJson _ => "JSON decode error"

def details : Flaw → List (Text × Json)
  | .noMark => [("expected", .string markChoices)]
  | .noDirection => [("expected", .string directionChoices)]
  | .noJson reason => [("error", .string reason)]
  | _ => []

end Flaw

structure Objection where
  flaw : Flaw
  place : List Json
  input : Json
  deriving Repr

namespace Objection

def detailsField (o : Objection) : List (Text × Json) :=
  if o.flaw.details.isEmpty then [] else [("ctx", .object o.flaw.details)]

def fixedFields (o : Objection) : List (Text × Json) :=
  [("type", .string o.flaw.word), ("loc", .array (.string "body" :: o.place)),
    ("msg", .string o.flaw.message), ("input", o.input)]

def toJson (o : Objection) : Json := .object (o.fixedFields ++ o.detailsField)

end Objection

abbrev Checked (α : Type) := Except (List Objection) α

namespace Checked

variable {α β : Type}

def both (a : Checked α) (b : Checked β) : Checked (α × β) :=
  match a, b with
  | .ok a, .ok b => .ok (a, b)
  | .error s, .ok _ => .error s
  | .ok _, .error t => .error t
  | .error s, .error t => .error (s ++ t)

def all : List (Checked α) → Checked (List α)
  | [] => .ok []
  | a :: rest => (both a (all rest)).map fun (a, rest) => a :: rest

end Checked

def fieldsOf : Json → Checked (Assoc Json)
  | .object fields => .ok fields
  | value => .error [⟨.noObject, [], value⟩]

def required {α : Type} (fields : Assoc Json) (name : Text) (read : List Json → Json → Checked α) :
    Checked α :=
  match fields.get? name with
  | none => .error [⟨.missing, [.string name], .object fields⟩]
  | some value => read [.string name] value

def textAt (place : List Json) : Json → Checked Text
  | .string t => .ok t
  | value => .error [⟨.noText, place, value⟩]

def labelledAt {α : Type} (flaw : Flaw) (ofLabel? : Text → Option α) (place : List Json)
    (value : Json) :
    Checked α :=
  match value.string?.bind ofLabel? with
  | some a => .ok a
  | none => .error [⟨flaw, place, value⟩]

def marksAt (place : List Json) : Json → Checked (Assoc Mark)
  | .object fields =>
    Checked.all (fields.map fun (name, value) =>
      (labelledAt .noMark Mark.ofLabel? (place ++ [.string name]) value).map
        fun mark => (name, mark))
  | value => .error [⟨.noTable, place, value⟩]

def readName (body : Json) : Checked Text := do
  required (← fieldsOf body) "name" textAt

def readExpression (body : Json) : Checked Text := do
  let fields ← fieldsOf body
  match fields.get? "expression" with
  | none => return []
  | some value => textAt [.string "expression"] value

def readToggle (body : Json) : Checked (Text × Direction) := do
  let fields ← fieldsOf body
  Checked.both (required fields "name" textAt)
    (required fields "direction" (labelledAt .noDirection fun t => (Direction.ofLabel t).toOption))

def readMarks (body : Json) : Checked (Assoc Mark) := do
  let fields ← fieldsOf body
  let unknown := (fields.filter (·.1 ≠ Text.ofString "categories")).map fun (name, value) =>
    (⟨.unknownField, [.string name], value⟩ : Objection)
  let known := required fields "categories" marksAt
  let nothing : Checked Unit := if unknown.isEmpty then .ok () else .error unknown
  (Checked.both known nothing).map (·.1)

inductive BodyFault
  | unreadable
  | objections (all : List Objection)
  deriving Repr

/-- Reads the body of a request. A text that is not JSON is told by its first bad place; bytes that
are no text and a text that is refused for its size are told to be unreadable. -/
def readBody {α : Type} (read : Json → Checked α) (body : Text) : Except BodyFault α :=
  if body.isEmpty then .error (.objections [⟨.missing, [], .null⟩])
  else
    match (Json.ofBody? body).map Json.read with
    | some (.error (.malformed reason _ _ offset)) =>
      .error (.objections [⟨.noJson reason.message, [.int offset], .object []⟩])
    | some (.ok value) => (read value).mapError .objections
    | none | some (.error _) => .error .unreadable

end Service

end CategorySelection
