import CategorySelection.Category
import CategorySelection.Json.Printer
import CategorySelection.Store
import CategorySelection.Text.Blank
/-!
Catalogs. A catalog is the user's own list of category names, kept in a store as a JSON array under
one key. While the store has none, or cannot be used, the default names stand in for it.
-/

namespace CategorySelection

/-- A catalog: where it is kept, and the names it starts with. -/
structure Catalog (σ : Type) where
  store : Store σ
  key : Text
  seeds : List Text

namespace Catalog

def defaultKey : Text := "category-filter.categories"

def defaultSeeds : List Text :=
  ["TrackAccreditation", "ProductionOnly", "Smoke", "PostLayoffReport", "Registration",
    "Production", "DbApi", "PublicApi", "VetsList"]

variable {σ : Type}

def note (key : Text) (level : Log.Level) (t : Text) : Log.Record :=
  { Log.note "catalog" level t with context := .ofCatalog key }

def noteOn (key name : Text) (level : Log.Level) (t : Text) : Log.Record :=
  { Log.note "catalog" level t with
    context := (Log.Context.ofCategory name).extendedBy (.ofCatalog key) }

def noteInvalid (key : Text) (notice : Text) (names : List Text) : List Log.Record :=
  match names.filter (!Category.isName ·) with
  | [] => []
  | invalid => [note key Log.Level.warning (notice ++ Text.quotedList invalid)]

/-- The catalog under a key of a store. What is no name is left out of its seeds. -/
def make (store : Store σ) (key : Text) (seeds : List Text) : Action σ (Catalog σ) := do
  Action.write (noteInvalid key "Ignoring invalid default category names: " seeds)
  return ⟨store, key, seeds.filter Category.isName⟩

def defaults (catalog : Catalog σ) : List Text := Text.sortedSet catalog.seeds

def encode (names : List Text) : Text :=
  (Json.array ((Text.sortedSet names).map .string)).writeLine .spaced

/-- Saves names. If the store cannot do it, that is noted and nothing else happens. -/
def save (catalog : Catalog σ) (names : List Text) : Action σ Unit :=
  (catalog.store.set catalog.key (encode names)).rescue (·.kind.isUnavailable) fun e =>
    Action.record { note catalog.key Log.Level.error "Failed to persist categories" with
      trouble := some e.line }

inductive Saved
  | names (all : List Text)
  | notJson (fault : Json.ReadFault)
  | notTexts (found : Text)
  deriving Repr

/-- Reads what was saved. A text that is not JSON, and JSON that is no array of strings, can be
dealt with; a text that is refused for its size cannot. -/
def decode (raw : Text) : Except Fault Saved :=
  match Json.read raw with
  | .error (.malformed reason line column offset) =>
    .ok (.notJson (.malformed reason line column offset))
  | .error e => .error (.json e)
  | .ok value =>
    match value.strings? with
    | some all => .ok (.names all)
    | none => .ok (.notTexts value.kindName)

def fromSaved (catalog : Catalog σ) : Saved → List Text × List Log.Record
  | .names all =>
    (Text.sortedSet (all.filter Category.isName),
      noteInvalid catalog.key "Skipping invalid saved category names: " all)
  | .notJson e =>
    (catalog.defaults, [note catalog.key Log.Level.warning
      ("Saved categories are not valid JSON, using defaults: " ++ e.message)])
  | .notTexts found =>
    (catalog.defaults, [note catalog.key Log.Level.warning
      ("Saved categories are not a list of strings, using defaults (got " ++ found ++ ")")])

def seed (catalog : Catalog σ) : Action σ Unit := do
  Action.record (note catalog.key Log.Level.info
    ("No saved categories, seeding " ++ Text.ofNat catalog.seeds.length ++ " defaults"))
  catalog.save catalog.seeds

/-- The names of the catalog, in increasing order. A catalog that was never saved is started. -/
def load (catalog : Catalog σ) : Action σ (List Text) := do
  match ← (catalog.store.get catalog.key).attempt with
  | .error e =>
    if e.kind.isUnavailable then
      Action.record (note catalog.key Log.Level.warning
        ("Category storage unavailable, using defaults: " ++ e.message))
      return catalog.defaults
    else Action.fail e
  | .ok none =>
    catalog.seed
    return catalog.defaults
  | .ok (some raw) =>
    let (names, records) := catalog.fromSaved (← Action.ofExcept (decode raw))
    Action.write records
    return names

def has (catalog : Catalog σ) (name : Text) : Action σ Bool := return name ∈ (← catalog.load)

inductive Rejection
  | empty
  | invalid (name : Text)
  | present (name : Text)
  deriving Repr, DecidableEq

def Rejection.notice : Rejection → Text
  | .empty => "Category name cannot be empty"
  | .invalid name => "Category name '" ++ name ++ "' must contain only letters and digits"
  | .present name => "Category '" ++ name ++ "' already exists"

def rejection? (name : Text) (names : List Text) : Option Rejection :=
  if name.isEmpty then some .empty
  else if !Category.isName name then some (.invalid name)
  else if name ∈ names then some (.present name)
  else none

/-- Why a text cannot be added to the catalog, if it cannot. Blanks at its ends do not count. -/
def rejection (catalog : Catalog σ) (name : Text) : Action σ (Option Rejection) :=
  return rejection? name.trim (← catalog.load)

def add (catalog : Catalog σ) (name : Text) : Action σ (Option Rejection) := do
  let name := name.trim
  let names ← catalog.load
  match rejection? name names with
  | some why =>
    Action.record (noteOn catalog.key name Log.Level.warning why.notice)
    return some why
  | none =>
    catalog.save (names ++ [name])
    Action.record (noteOn catalog.key name Log.Level.info ("Added category " ++ name))
    return none

def delete (catalog : Catalog σ) (name : Text) : Action σ Unit := do
  let names ← catalog.load
  if name ∈ names then
    catalog.save (names.erase name)
    Action.record (noteOn catalog.key name Log.Level.info ("Deleted category " ++ name))

def restore (catalog : Catalog σ) : Action σ Unit := do
  match ← (catalog.store.remove catalog.key).attempt with
  | .ok () =>
    Action.record (note catalog.key Log.Level.info "Category catalog restored to defaults")
  | .error e =>
    if e.kind.isUnavailable then
      Action.record { note catalog.key Log.Level.error "Failed to clear saved categories" with
        trouble := some e.line }
    else Action.fail e

end Catalog

end CategorySelection
