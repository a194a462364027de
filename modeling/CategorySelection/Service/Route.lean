import CategorySelection.Text
/-!
Routes. A route is a method and a pattern of paths; the parts of a path that fill the slots of the
pattern go into the call. Patterns of different methods may fit one path.
-/

namespace CategorySelection

namespace Service

inductive Method
  | get
  | post
  | delete
  | head
  | other
  deriving Repr, DecidableEq, Inhabited

def Method.ofName (name : Text) : Method :=
  if name = Text.ofString "GET" then .get
  else if name = Text.ofString "POST" then .post
  else if name = Text.ofString "DELETE" then .delete
  else if name = Text.ofString "HEAD" then .head
  else .other

inductive Call
  | tellLive
  | listCategories
  | addCategory
  | deleteCategory (name : Text)
  | restoreCategories
  | parseExpression
  | writeExpression
  | openSession
  | showSession (id : Text)
  | closeSession (id : Text)
  | toggle (id : Text)
  | clear (id : Text)
  | clearAll (id : Text)
  | addThrough (id : Text)
  | deleteThrough (id name : Text)
  | restoreThrough (id : Text)
  deriving Repr, DecidableEq

/-- A part of a pattern: a word, or a slot for any text that is not empty. -/
inductive Part
  | word (t : Text)
  | slot
  deriving Repr, DecidableEq

/-- The texts that fill the slots of a pattern in the parts of a path, if it fits. A line feed
behind the last word of a pattern does not count. -/
def fit : List Part → List Text → Option (List Text)
  | [], [] => some []
  | [.word w], [t] => if t = w ∨ t = w ++ [0x0a] then some [] else none
  | .word w :: pattern, t :: path => if t = w then fit pattern path else none
  | .slot :: pattern, t :: path => if t = [] then none else (t :: ·) <$> fit pattern path
  | _, _ => none

/-- A route: its method, its pattern, and the call that the texts in the slots make. -/
structure Route where
  method : Method
  pattern : List Part
  call : List Text → Option Call

namespace Route

def fixed (method : Method) (words : List Text) (call : Call) : Route :=
  ⟨method, words.map .word, fun _ => some call⟩

def sessionPattern (rest : List Part) : List Part :=
  [.word "api", .word "sessions", .slot] ++ rest

def onSession (method : Method) (words : List Text) (call : Text → Call) : Route :=
  ⟨method, sessionPattern (words.map .word), fun
    | [id] => some (call id)
    | _ => none⟩

def all : List Route :=
  [fixed .get ["health", "live"] .tellLive,
    fixed .get ["api", "categories"] .listCategories,
    fixed .post ["api", "categories"] .addCategory,
    ⟨.delete, [.word "api", .word "categories", .slot], fun
      | [name] => some (.deleteCategory name)
      | _ => none⟩,
    fixed .post ["api", "categories", "restore"] .restoreCategories,
    fixed .post ["api", "expression", "parse"] .parseExpression,
    fixed .post ["api", "expression", "serialize"] .writeExpression,
    fixed .post ["api", "sessions"] .openSession,
    onSession .get [] .showSession,
    onSession .delete [] .closeSession,
    onSession .post ["toggle"] .toggle,
    onSession .post ["clear"] .clear,
    onSession .post ["clear-all"] .clearAll,
    onSession .post ["categories"] .addThrough,
    ⟨.delete, sessionPattern [.word "categories", .slot], fun
      | [id, name] => some (.deleteThrough id name)
      | _ => none⟩,
    onSession .post ["restore"] .restoreThrough]

def partsOf : Text → Option (List Text)
  | [] => none
  | c :: rest => if c = '/' then some (Text.split '/' rest) else none

def callsAt (path : Text) : List (Method × Call) :=
  match partsOf path with
  | none => []
  | some parts => all.filterMap fun r => ((fit r.pattern parts).bind r.call).map (r.method, ·)

def withoutSlashes (path : Text) : Text := (path.reverse.dropWhile (· = 0x2f)).reverse

inductive Destination
  | call (c : Call)
  | wrongMethod
  | moved
  | nowhere
  deriving Repr, DecidableEq

/-- Where a method and a path lead. A path that would lead somewhere without the slashes at its end
has moved there. -/
def find (method : Method) (path : Text) : Destination :=
  match (callsAt path).find? (·.1 = method) with
  | some (_, call) => .call call
  | none =>
    if !(callsAt path).isEmpty then .wrongMethod
    else if path ≠ withoutSlashes path && !(callsAt (withoutSlashes path)).isEmpty then .moved
    else .nowhere

end Route

end Service

end CategorySelection
