import CategorySelection.Fault.Kind
/-!
The faults that the operating system reports for files and directories.
-/

namespace CategorySelection

inductive SystemCause
  | missing
  | exists
  | notDirectory
  | isDirectory
  | noSpace
  | readOnly
  | nameTooLong
  deriving Repr, DecidableEq, Inhabited

namespace SystemCause

def number : SystemCause → Nat
  | .missing => 2
  | .exists => 17
  | .notDirectory => 20
  | .isDirectory => 21
  | .noSpace => 28
  | .readOnly => 30
  | .nameTooLong => 36

def text : SystemCause → Text
  | .missing => "No such file or directory"
  | .exists => "File exists"
  | .notDirectory => "Not a directory"
  | .isDirectory => "Is a directory"
  | .noSpace => "No space left on device"
  | .readOnly => "Read-only file system"
  | .nameTooLong => "File name too long"

def kind : SystemCause → FaultKind
  | .missing => .fileMissing
  | .exists => .fileExists
  | .notDirectory => .notDirectory
  | .isDirectory => .isDirectory
  | .noSpace | .readOnly | .nameTooLong => .system

end SystemCause

/-- A fault of the operating system: its cause, and the path it is about where it names one. A fault
of moving a file names two. -/
structure SystemFault where
  cause : SystemCause
  path : Option Text := none
  target : Option Text := none
  deriving Repr, DecidableEq

namespace SystemFault

def about (sign : Text) : Option Text → Text
  | none => []
  | some path => sign ++ path.quoted

def message (e : SystemFault) : Text :=
  "[Errno " ++ Text.ofNat e.cause.number ++ "] " ++ e.cause.text ++ about ": " e.path ++
    about " -> " e.target

end SystemFault

end CategorySelection
