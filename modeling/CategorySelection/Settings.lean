import CategorySelection.Catalog
import CategorySelection.Disk
import CategorySelection.Settings.EnvFile
import CategorySelection.Store.File
import CategorySelection.Text.Numeral
/-!
Settings. Each setting is read from one variable of the surroundings. A value that is out of range
is noted, and the default stands in for it.
-/

namespace CategorySelection

structure Settings where
  storagePath : Path
  storageKey : Text := Catalog.defaultKey
  lockTimeout : Binary64 := Store.FileOptions.defaultPatience
  logLevel : Text := "INFO"
  logJson : Bool := false
  diagnosticTags : Text := []
  apiHost : Text := "127.0.0.1"
  apiPort : Int := 8080
  sessionTtl : Int := 3600
  maxSessions : Int := 256
  deriving Repr, DecidableEq

namespace Settings

/-- Where the home directories of users are; the user without a name is the one who runs the
program. -/
abbrev Homes := Assoc Text

def variableName (setting : Text) : Text := "CATEGORY_FILTER_" ++ setting

def variableNames : List Text :=
  List.map variableName
    ["STORAGE_PATH", "STORAGE_KEY", "LOCK_TIMEOUT", "LOG_LEVEL", "LOG_JSON", "DIAGNOSTIC_TAGS",
      "API_HOST", "API_PORT", "SESSION_TTL", "MAX_SESSIONS"]

def defaultPath (homes : Homes) : Path :=
  (Path.ofText ((homes.get? []).getD [])).under (Path.ofText ".category-filter/storage.json")

def default (homes : Homes) : Settings := { storagePath := defaultPath homes }

structure Noted (α : Type) where
  value : α
  records : List Log.Record := []

def warning (t : Text) : Log.Record :=
  { logger := Log.rootLogger, level := Log.Level.warning, message := .text t }

def refuse {α : Type} (default : α) (name complaint shown : Text) : Noted α :=
  ⟨default, [warning ("Invalid " ++ name ++ ": " ++ complaint ++ ", using default " ++ shown)]⟩

def readInt (fits : Int → Bool) (complaint : Text) (value name : Text)
    (default : Int) : Noted Int :=
  match Numeral.int? value with
  | none => refuse default name ("'" ++ value ++ "' is not a valid integer") (Text.ofInt default)
  | some n =>
    if fits n then ⟨n, []⟩
    else refuse default name (Text.ofInt n ++ complaint) (Text.ofInt default)

def readPositive (value name : Text) (default : Int) : Noted Int :=
  readInt (0 < ·) " is not positive" value name default

def portRange : Int × Int := (1, 65535)

def readPort (value name : Text) (default : Int) : Noted Int :=
  readInt (fun n => portRange.1 ≤ n && n ≤ portRange.2)
    (" is not a valid port (must be " ++ Text.ofInt portRange.1 ++ "-" ++
      Text.ofInt portRange.2 ++ ")")
    value name default

def readSeconds (value name : Text) (default : Binary64) : Noted Binary64 :=
  match Numeral.real? value with
  | none => refuse default name ("'" ++ value ++ "' is not a valid number") (default.fixed 6)
  | some x =>
    if x.isNegative then refuse default name (x.fixed 6 ++ " is negative") (default.fixed 6)
    else ⟨x, []⟩

def logLevels : List Text := ["CRITICAL", "DEBUG", "ERROR", "INFO", "WARNING"]

def defaultLogLevel : Text := "INFO"

def readLogLevel (value : Text) : Noted Text :=
  if value.toUpper ∈ logLevels then ⟨value.toUpper, []⟩
  else
    ⟨defaultLogLevel, [warning ("Invalid " ++ variableName "LOG_LEVEL" ++ ": '" ++ value ++
      "' is not valid, using default '" ++ defaultLogLevel ++ "'. Valid values: " ++
      Text.join ", " logLevels)]⟩

def readFlag (value : Text) : Bool :=
  value.toLower = Text.ofString "true" || value.toLower = Text.ofString "1" ||
    value.toLower = Text.ofString "yes"

def readStorageKey (value : Text) : Noted Text :=
  if value.trim.isEmpty then
    ⟨Catalog.defaultKey, [warning ("Invalid " ++ variableName "STORAGE_KEY" ++
      ": empty key, using default '" ++ Catalog.defaultKey ++ "'")]⟩
  else ⟨value.trim, []⟩

/-- The home directory of a user, without slashes at its end. For the user without a name the
variable `HOME` goes before what is known of the homes. -/
def home? (homes : Homes) (environment : Assoc Text) (user : Text) : Option Text :=
  let home := if user.isEmpty then environment.get? "HOME" <|> homes.get? user else homes.get? user
  home.map fun t =>
    let t := t.withoutLast '/'
    if t.isEmpty then "/" else t

/-- A path in which a tilde at the front stands for the home of a user. That home cannot start with
a tilde itself. -/
def expandHome (homes : Homes) (environment : Assoc Text) (p : Path) : Except Fault Path :=
  match p.root, p.parts with
  | [], first :: rest =>
    match Text.after? "~" first with
    | none => .ok p
    | some user =>
      match home? homes environment user with
      | none => .error .noHome
      | some home =>
        if (Text.after? "~" home).isSome then .error .noHome
        else .ok ((Path.ofText home).under ⟨[], rest⟩)
  | _, _ => .ok p

def readStoragePath (homes : Homes) (environment : Assoc Text) (value : Text) : Except Fault Path :=
  if value.isEmpty then .ok (defaultPath homes)
    else expandHome homes environment (Path.ofText value)

def read {σ : Type} (homes : Homes) (environment : Assoc Text) : Action σ Settings := do
  let get (setting default : Text) : Text := (environment.get? (variableName setting)).getD default
  let noted {α : Type} (n : Noted α) : Action σ α := do
    Action.write n.records
    return n.value
  let usual := default homes
  let storagePath ← Action.ofExcept (readStoragePath homes environment (get "STORAGE_PATH" []))
  let storageKey ← noted (readStorageKey (get "STORAGE_KEY" usual.storageKey))
  let lockTimeout ← noted
    (readSeconds (get "LOCK_TIMEOUT" "5.0") (variableName "LOCK_TIMEOUT") usual.lockTimeout)
  let logLevel ← noted (readLogLevel (get "LOG_LEVEL" usual.logLevel))
  let apiPort ← noted (readPort (get "API_PORT" "8080") (variableName "API_PORT") usual.apiPort)
  let sessionTtl ← noted
    (readPositive (get "SESSION_TTL" "3600") (variableName "SESSION_TTL") usual.sessionTtl)
  let maxSessions ← noted
    (readPositive (get "MAX_SESSIONS" "256") (variableName "MAX_SESSIONS") usual.maxSessions)
  return {
    storagePath, storageKey, lockTimeout, logLevel, apiPort, sessionTtl, maxSessions
    logJson := readFlag (get "LOG_JSON" [])
    diagnosticTags := get "DIAGNOSTIC_TAGS" []
    apiHost := get "API_HOST" usual.apiHost }

def unreadableRecord (line : Nat) : Log.Record :=
  { logger := "dotenv.main", level := Log.Level.warning
    message :=
    .text ("python-dotenv could not parse statement starting at line " ++ Text.ofNat line) }

def forbidsFiles (environment : Assoc Text) : Bool :=
  match environment.get? "PYTHON_DOTENV_DISABLED" with
  | none => false
  | some value => (["1", "true", "t", "yes", "y"] : List Text).contains value.foldCase

/-- The variables with those of a file that they do not have. What is no file has none. -/
def withFile (environment : Assoc Text) (file : Path) : Action Disk (Assoc Text) := do
  Action.ofExcept (Disk.checkPath file)
  let d ← Action.world
  match d.hasFile file with
  | .ok true =>
    let t ← Action.ofExcept ((d.readText file).mapError .unreadableSettings)
    let bs := EnvFile.bindings t
    Action.write ((EnvFile.unreadableLines bs).map unreadableRecord)
    Action.ofExcept (EnvFile.extend environment bs)
  | _ => return environment

def load (homes : Homes) (environment : Assoc Text)
    (file : Option Path) : Action Disk Settings := do
  let environment ← match file with
    | none => pure environment
    | some file => if forbidsFiles environment then pure environment else withFile environment file
  read homes environment

end Settings

end CategorySelection
