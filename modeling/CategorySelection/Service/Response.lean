import CategorySelection.Json.Printer
import CategorySelection.Service.Body
import CategorySelection.Session
/-!
Responses. A response has a status and mostly a body, which is JSON. A body is only sent if it can
be written in UTF-8 and holds finite numbers only.
-/

namespace CategorySelection

namespace Service

structure Response where
  status : Nat
  body : Option Json := none
  deriving Repr

namespace Response

def done (body : Json) : Response := ⟨200, some body⟩

def created (body : Json) : Response := ⟨201, some body⟩

def ended : Response := ⟨204, none⟩

def moved : Response := ⟨307, none⟩

def refused (status : Nat) (detail : Json) : Response :=
  ⟨status, some (.object [("detail", detail)])⟩

def notice (status : Nat) (t : Text) : Response := refused status (.string t)

def notFound : Response := notice 404 "Not Found"

def wrongMethod : Response := notice 405 "Method Not Allowed"

def noSession (id : Text) : Response := notice 404 ("Session not found: " ++ id)

def badBody : BodyFault → Response
  | .unreadable => notice 400 "There was an error parsing the body"
  | .objections all => refused 422 (.array (all.map Objection.toJson))

def categories (names : List Text) : Json := .object [("categories", .array (names.map .string))]

def marks (table : Assoc Mark) : Json :=
  .object [("categories", .object (table.map fun (name, mark) => (name, .string mark.label)))]

def expression (t : Text) : Json := .object [("expression", .string t)]

def row (r : Session.Row) : Json :=
  .object [("name", .string r.name), ("state", .string r.mark.label),
    ("in_catalog", .bool r.inCatalog)]

def session (s : Session) : Json :=
  .object [("session_id", .string s.id), ("draft", .string s.draft),
    ("host_expression", .string s.host), ("modified", .bool s.isModified),
    ("rows", .array (s.rows.map row))]

mutual

def allFinite : Json → Bool
  | .float x => x.isFinite
  | .array items => allFiniteItems items
  | .object fields => allFiniteFields fields
  | _ => true

def allFiniteItems : List Json → Bool
  | [] => true
  | item :: rest => allFinite item && allFiniteItems rest

def allFiniteFields : List (Text × Json) → Bool
  | [] => true
  | (_, value) :: rest => allFinite value && allFiniteFields rest

end

def bytes (r : Response) : Except Fault (List UInt8) :=
  match r.body with
  | none => .ok []
  | some body =>
    if allFinite body then (Utf8.encode (body.writeLine .dense)).mapError .encoding
    else .error .infiniteNumber

end Response

end Service

end CategorySelection
