import CategorySelection.Text.Quoted
/-!
The kinds of faults. Log lines show a fault by the label of its kind and its message.
-/

namespace CategorySelection

inductive FaultKind
  | value
  | encoding
  | decoding
  | type
  | key
  | overflow
  | runtime
  | recursion
  | storage
  | lockTimeout
  | commit
  | system
  | fileExists
  | fileMissing
  | notDirectory
  | isDirectory
  | permission
  | attribute
  | memory
  deriving Repr, DecidableEq, Inhabited

namespace FaultKind

def all : List FaultKind :=
  [.value, .encoding, .decoding, .type, .key, .overflow, .runtime, .recursion, .storage,
    .lockTimeout, .commit, .system, .fileExists, .fileMissing, .notDirectory, .isDirectory,
    .permission, .attribute, .memory]

def label : FaultKind → Text
  | .value => "ValueError"
  | .encoding => "UnicodeEncodeError"
  | .decoding => "UnicodeDecodeError"
  | .type => "TypeError"
  | .key => "KeyError"
  | .overflow => "OverflowError"
  | .runtime => "RuntimeError"
  | .recursion => "RecursionError"
  | .storage => "StorageError"
  | .lockTimeout => "StorageLockTimeoutError"
  | .commit => "CommitError"
  | .system => "OSError"
  | .fileExists => "FileExistsError"
  | .fileMissing => "FileNotFoundError"
  | .notDirectory => "NotADirectoryError"
  | .isDirectory => "IsADirectoryError"
  | .permission => "PermissionError"
  | .attribute => "AttributeError"
  | .memory => "MemoryError"

def ofLabel? (t : Text) : Option FaultKind := all.find? (·.label = t)

def isSystem : FaultKind → Bool
  | .system | .fileExists | .fileMissing | .notDirectory | .isDirectory | .permission => true
  | _ => false

def isValue : FaultKind → Bool
  | .value | .encoding | .decoding => true
  | _ => false

/-- The faults that a store may show when it cannot be used for the moment: its own, those of its
lock, and those of the operating system. -/
def isUnavailable (k : FaultKind) : Bool := k = .storage || k = .lockTimeout || k.isSystem

/-- The message of a fault of some kind about a given matter; a missing key is shown quoted. -/
def message (k : FaultKind) (matter : Text) : Text := if k = .key then matter.quoted else matter

def line (k : FaultKind) (message : Text) : Text := k.label ++ ": " ++ message

end FaultKind

end CategorySelection
