import CategorySelection.Binary64.Decimal
import CategorySelection.Disk
import CategorySelection.Json.Printer
import CategorySelection.Store
import CategorySelection.Text.Blank
/-!
A store in a file. All entries are the fields of one JSON object. A change takes the lock beside the
file, reads the file, and puts a new file in its place that was written beside it, so that the file
itself is never half written.
-/

namespace CategorySelection

namespace Store

structure FileOptions where
  path : Path
  patience : Binary64

namespace FileOptions

def defaultPatience : Binary64 := .ofInt 5

/-- Whether a store waits for the lock until it is free, however long that takes: zero seconds stand
for no limit, and no time is as long as an infinite number of seconds or one that is no number. -/
def isEndless (options : FileOptions) : Bool :=
  match options.patience with
  | .finite _ m _ => m = 0
  | .infinity negative => !negative
  | .notANumber => true

end FileOptions

namespace File

/-- The entries of a file. A file that is missing or blank has none. -/
def entries (d : Disk) (p : Path) : Except Fault (Assoc Json) :=
  match d.readText p with
  | .error (.system e) =>
    if e.cause = .missing then .ok [] else .error (.storage (.unreadable p.text (.system e)))
  | .error e => .error (.storage (.unreadable p.text e))
  | .ok t =>
    if t.isBlank then .ok []
    else
      match Json.read t with
      | .ok (.object fields) => .ok fields
      | .ok value => .error (.storage (.notObject p.text value.kindName))
      | .error (.malformed reason line column offset) =>
        .error (.storage (.notJson p.text (.malformed reason line column offset)))
      | .error e => .error (.json e)

/-- The text of an entry. What is there must be a string or null, which counts as nothing. -/
def entry (d : Disk) (p : Path) (key : Text) : Except Fault (Option Text) := do
  match (← entries d p).get? key with
  | none | some .null => .ok none
  | some (.string t) => .ok (some t)
  | some value => .error (.storage (.notText key p.text value.kindName))

/-- The bytes of chunks up to the first that cannot be written, and what is wrong with that one. -/
def encodeChunks : List Text → List UInt8 × Option Utf8.EncodeFault
  | [] => ([], none)
  | chunk :: rest =>
    match Utf8.encode chunk with
    | .error e => ([], some e)
    | .ok bytes =>
      let (more, fault) := encodeChunks rest
      (bytes ++ more, fault)

def temporaryName (p : Path) (n : Nat) : Text :=
  "." ++ p.name ++ "." ++ Text.ofNatPadded 8 n ++ ".tmp"

/-- The first number from the given one on whose temporary file is not there; at most `tries` of
them are taken. -/
def freeStamp (d : Disk) (p : Path) : (tries n : Nat) → Nat
  | 0, n => n
  | tries + 1, n =>
    match d.find (p.sibling (temporaryName p n)) with
    | .ok _ => freeStamp d p tries (n + 1)
    | .error _ => n

/-- Opens a new file beside a file and tells its location. Messages show its absolute path. -/
def openTemporary (d : Disk) (p : Path) : Except SystemFault (Location × Disk) :=
  let n := freeStamp d p (d.entries.length + 1) d.stamp
  match d.openNew (p.sibling (temporaryName p n)) with
  | .ok (l, d) => .ok (l, { d with stamp := n + 1 })
  | .error e =>
    .error { e with path := some ((d.absolute p.parent).child (temporaryName p n)).text }

def leftoverRecord (l : Location) : Log.Record :=
  Log.note "storage" Log.Level.debug
    ("Could not remove temporary file: " ++ Location.text l)

/-- Gives a temporary file up after a fault of the system. It is taken away again, and stays only if
the system refuses that as well. -/
def giveUp (p : Path) (temporary : Location) (e : SystemFault) (d : Disk) : Action Disk Unit := do
  match d.remove temporary with
  | .ok d => Action.setWorld d
  | .error _ =>
    Action.setWorld d
    Action.record (leftoverRecord temporary)
  Action.fail (.storage (.unwritable p.text e))

/-- Puts a new file in the place of a file. If the system refuses to write it to its end or to move
it there it is given up; if its text has no bytes from some place on it stays. -/
def write (p : Path) (fields : Assoc Json) : Action Disk Unit := do
  let d ← Action.world
  match openTemporary d p with
  | .error e => Action.fail (.storage (.unlockable p.text e))
  | .ok (temporary, d) =>
    let (bytes, fault) := encodeChunks (Json.pageChunks (.object fields))
    let (d, filled) := d.fill temporary bytes
    match filled, fault with
    | .error e, _ => giveUp p temporary e d
    | .ok (), some e =>
      Action.setWorld d
      Action.fail (.encoding e)
    | .ok (), none =>
      match d.move temporary p with
      | .ok d => Action.setWorld d
      | .error e => giveUp p temporary e d

def lockPath (p : Path) : Path := p.sibling (p.name ++ ".lock")

/-- Does a thing while holding the lock on a file. Whoever waits without limit for a lock that is
held goes on once it is let go; a lock that is never let go gives such a call no end at all. -/
def locked {α : Type} (options : FileOptions) (x : Action Disk α) : Action Disk α := do
  let p := options.path
  if p.name.isEmpty then Action.fail (.emptyFileName p.text)
  else do
    Action.ofExcept (Disk.checkPath (lockPath p))
    match (← Action.world).openEmpty (lockPath p) with
    | .error e => Action.fail (.storage (.unlockable p.text e))
    | .ok (l, d) =>
      Action.setWorld d
      if !d.isHeld l then x
      else if options.isEndless then do
        Action.setWorld (d.letGo l)
        x
      else Action.fail (.storage (.lockHeld p.text (options.patience.fixed 1)))

def get (options : FileOptions) (key : Text) : Action Disk (Option Text) := do
  Action.ofExcept (Disk.checkPath options.path)
  Action.ofExcept (entry (← Action.world) options.path key)

/-- Writes an entry; the directories above the file are made if they are not there. -/
def set (options : FileOptions) (key value : Text) : Action Disk Unit := do
  Disk.ensure options.path.parent
  locked options do
    let fields ← Action.ofExcept (entries (← Action.world) options.path)
    write options.path (fields.put key (.string value))

def remove (options : FileOptions) (key : Text) : Action Disk Unit := do
  if ← Action.ofExcept (((← Action.world).has options.path).mapError .system) then
    locked options do
      let fields ← Action.ofExcept (entries (← Action.world) options.path)
      if fields.has key then write options.path (fields.erase key)

end File

def file (options : FileOptions) : Store Disk where
  get := File.get options
  set := File.set options
  remove := File.remove options

end Store

end CategorySelection
