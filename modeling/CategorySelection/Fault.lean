import CategorySelection.Fault.System
import CategorySelection.Instant
import CategorySelection.Json.Reader
import CategorySelection.Template.Filling
import CategorySelection.Text.Utf8
/-!
The faults of the operations on categories, catalogs, stores and sessions. Each constructor is one
cause; its kind tells who may catch it, and its message is what the user sees.
-/

namespace CategorySelection

inductive ReadTrouble
  | system (fault : SystemFault)
  | bytes (fault : Utf8.DecodeFault)
  deriving Repr, DecidableEq

def ReadTrouble.message : ReadTrouble → Text
  | .system e => e.message
  | .bytes e => e.message

inductive StorageFault
  | unreadable (path : Text) (trouble : ReadTrouble)
  | notJson (path : Text) (fault : Json.ReadFault)
  | notObject (path : Text) (found : Text)
  | notText (key path : Text) (found : Text)
  | unlockable (path : Text) (fault : SystemFault)
  | lockHeld (path : Text) (seconds : Text)
  | unwritable (path : Text) (fault : SystemFault)
  deriving Repr, DecidableEq

namespace StorageFault

def message : StorageFault → Text
  | .unreadable path e => "Failed to read " ++ path ++ ": " ++ e.message
  | .notJson path e => "Failed to parse JSON in " ++ path ++ ": " ++ e.message
  | .notObject path found => "Expected a JSON object in " ++ path ++ ", got " ++ found
  | .notText key path found =>
    "Value for " ++ key.quoted ++ " in " ++ path ++ " is " ++ found ++ ", expected str"
  | .unlockable path e => "Failed to acquire lock for " ++ path ++ ": " ++ e.message
  | .lockHeld path seconds =>
    "Timed out waiting for lock on " ++ path ++ " after " ++ seconds ++ " seconds"
  | .unwritable path e => "Failed to write " ++ path ++ ": " ++ e.message

def kind : StorageFault → FaultKind
  | .lockHeld .. => .lockTimeout
  | _ => .storage

end StorageFault

inductive Fault
  | invalidName (name : Text)
  | neutralAtom
  | unknownMark (label : Text)
  | unknownDirection (label : Text)
  | missingRow (name : Text)
  | storage (fault : StorageFault)
  | system (fault : SystemFault)
  | emptyFileName (path : Text)
  | json (fault : Json.ReadFault)
  | encoding (fault : Utf8.EncodeFault)
  | uncommitted (path : Text) (fault : SystemFault)
  | negativeCapacity
  | noCapacity
  | infiniteNumber
  | noHome
  | illegalVariable
  | zeroInText
  | unreadableSettings (trouble : ReadTrouble)
  | template (fault : TemplateFault)
  | instant (fault : InstantFault)
  | unknownLevel (name : Text)
  | unusableLevel (shown : Text)
  | unknownContext (names : List Text)
  | contextNamesSelf
  | contextAtRoot
  | reservedField (name : Text)
  | unhashable (found : Text)
  | unwritable (found : Text)
  | foreign (kind : FaultKind) (matter : Text)
  deriving Repr, DecidableEq

namespace Fault

def kind : Fault → FaultKind
  | .missingRow _ => .key
  | .storage e => e.kind
  | .system e => e.cause.kind
  | .json (.tooDeep _) => .recursion
  | .encoding _ => .encoding
  | .uncommitted .. => .commit
  | .noHome => .runtime
  | .unreadableSettings (.system e) => e.cause.kind
  | .unreadableSettings (.bytes _) => .decoding
  | .template e => e.kind
  | .instant e => e.kind
  | .reservedField _ => .key
  | .unusableLevel _ | .contextNamesSelf | .unhashable _ => .type
  | .contextAtRoot | .unwritable _ => .attribute
  | .foreign kind _ => kind
  | .invalidName _ | .neutralAtom | .unknownMark _ | .unknownDirection _ | .emptyFileName _
  | .json (.malformed ..) | .json (.integerTooLong _) | .negativeCapacity | .noCapacity
  | .infiniteNumber | .illegalVariable | .zeroInText | .unknownLevel _ | .unknownContext _ => .value

def message : Fault → Text
  | .invalidName name => "Invalid category name: " ++ name.quoted
  | .neutralAtom => "Atom state must be included or excluded"
  | .unknownMark label => label.quoted ++ " is not a valid CategoryState"
  | .unknownDirection label => label.quoted ++ " is not a valid ToggleDirection"
  | .missingRow name => name.quoted
  | .storage e => e.message
  | .system e => e.message
  | .emptyFileName path => "PosixPath(" ++ path.quoted ++ ") has an empty name"
  | .json e => e.message
  | .encoding e => e.message
  | .uncommitted path e => "Failed to write filter to " ++ path ++ ": " ++ e.message
  | .negativeCapacity => "maxsize must be non-negative"
  | .noCapacity => "value too large"
  | .infiniteNumber => "Out of range float values are not JSON compliant"
  | .noHome => "Could not determine home directory."
  | .illegalVariable => "illegal environment variable name"
  | .zeroInText => "embedded null byte"
  | .unreadableSettings e => e.message
  | .template e => e.message
  | .instant e => e.message
  | .unknownLevel name => "Unknown level: " ++ name.quoted
  | .unusableLevel shown => "Level not an integer or a valid string: " ++ shown
  | .unknownContext names => "Unknown log context fields: " ++ Text.join ", " names
  | .contextNamesSelf =>
    "CategoryFilterLogger.with_context() got multiple values for argument 'self'"
  | .contextAtRoot => "'RootLogger' object has no attribute 'with_context'"
  | .reservedField name =>
    Text.quoted ("Attempt to overwrite " ++ name.quoted ++ " in LogRecord")
  | .unhashable found => "unhashable type: '" ++ found ++ "'"
  | .unwritable found => "'" ++ found ++ "' object has no attribute 'write_text'"
  | .foreign kind matter => kind.message matter

def line (e : Fault) : Text := e.kind.line e.message

end Fault

end CategorySelection
