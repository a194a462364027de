import CategorySelection.Action
import CategorySelection.Disk.Path
/-!
Disks. A disk is a tree of directories and files of bytes, together with the directory that relative
paths start at and the lock files that somebody else holds. Following a path, and every operation
on what it leads to, fails for the causes for which an operating system refuses it.
-/

namespace CategorySelection

inductive Entry
  | file (bytes : List UInt8)
  | directory
  deriving Repr, DecidableEq

/-- A location: the names that lead to it from the top of the tree. -/
abbrev Location := Array Text

def Location.text (l : Location) : Text := "/" ++ Text.join "/" l.toList

/-- A disk. `stamp` is the number of the next temporary file; the two flags tell whether the system
refuses to move and to take away files, and `room` how many of the bytes written to a file it takes,
if not all of them. -/
structure Disk where
  entries : List (Location × Entry) := []
  current : Location := #[]
  held : List Location := []
  stamp : Nat := 0
  refusesMoves : Bool := false
  refusesRemovals : Bool := false
  room : Option Nat := none
  deriving Repr, DecidableEq, Inhabited

namespace Disk

def maxNameBytes : Nat := 255

def maxPathBytes : Nat := 4095

/-- What is at a location. At the top there is always a directory. -/
def at? (d : Disk) (l : Location) : Option Entry :=
  if l.isEmpty then some .directory else (d.entries.find? (·.1 = l)).map (·.2)

def put (l : Location) (e : Entry) (d : Disk) : Disk :=
  { d with entries := (l, e) :: d.entries.filter (·.1 ≠ l) }

def erase (l : Location) (d : Disk) : Disk := { d with entries := d.entries.filter (·.1 ≠ l) }

/-- One name further: up for two dots, and else down. -/
def step (l : Location) (name : Text) : Location :=
  if name = Text.ofString ".." then l.pop else l.push name

def target (d : Disk) (p : Path) : Location :=
  p.parts.foldl step (if p.root.isEmpty then d.current else #[])

def absolute (d : Disk) (p : Path) : Path :=
  ⟨if p.root.isEmpty then "/" else p.root, (d.target p).toList⟩

/-- Where names lead from a location. All but the last must lead to directories. -/
def follow (d : Disk) (l : Location) : List Text → Except SystemCause Location
  | [] => .ok l
  | name :: rest =>
    match d.at? l with
    | none => .error .missing
    | some (.file _) => .error .notDirectory
    | some .directory =>
      if maxNameBytes < (Utf8.nameBytes name).length then .error .nameTooLong
      else if name = Text.ofString ".." then follow d l.pop rest
      else follow d (l.push name) rest

def locate (d : Disk) (p : Path) : Except SystemCause Location :=
  if maxPathBytes < (Utf8.nameBytes p.text).length then .error .nameTooLong
  else d.follow (if p.root.isEmpty then d.current else #[]) p.parts

/-- Refuses a path that the system cannot take: one with a surrogate that stands for no byte, and
one with a zero. -/
def checkPath (p : Path) : Except Fault Unit :=
  match Utf8.firstUnescaped 0 p.text with
  | some e => .error (.encoding e)
  | none => if 0 ∈ p.text then .error .zeroInText else .ok ()

def find (d : Disk) (p : Path) : Except SystemCause (Location × Entry) := do
  let l ← d.locate p
  match d.at? l with
  | none => .error .missing
  | some e => .ok (l, e)

def naming {α : Type} (p : Path) (r : Except SystemCause α) : Except SystemFault α :=
  r.mapError fun cause => ⟨cause, some p.text, none⟩

def readBytes (d : Disk) (p : Path) : Except SystemFault (List UInt8) :=
  naming p do
    match ← d.find p with
    | (_, .file bytes) => .ok bytes
    | (_, .directory) => .error .isDirectory

def readText (d : Disk) (p : Path) : Except ReadTrouble Text :=
  match d.readBytes p with
  | .error e => .error (.system e)
  | .ok bytes =>
    match Utf8.decode bytes with
    | .error e => .error (.bytes e)
    | .ok t => .ok t.unifyLineEnds

/-- What a path leads to, if anything. A path that breaks off leads nowhere, and so does one that
the system cannot take. -/
def look (d : Disk) (p : Path) : Except SystemFault (Option Entry) :=
  match checkPath p, d.find p with
  | .error _, _ => .ok none
  | .ok (), .ok (_, e) => .ok (some e)
  | .ok (), .error .missing | .ok (), .error .notDirectory => .ok none
  | .ok (), .error cause => .error ⟨cause, some p.text, none⟩

def has (d : Disk) (p : Path) : Except SystemFault Bool := Option.isSome <$> d.look p

def hasDirectory (d : Disk) (p : Path) : Except SystemFault Bool :=
  (· = some .directory) <$> d.look p

def hasFile (d : Disk) (p : Path) : Except SystemFault Bool :=
  (fun e => e.isSome && e ≠ some .directory) <$> d.look p

def makeDirectory (d : Disk) (p : Path) : Except SystemFault Disk :=
  naming p do
    let l ← d.locate p
    match d.at? l with
    | some _ => .error .exists
    | none => .ok (d.put l .directory)

def openEmpty (d : Disk) (p : Path) : Except SystemFault (Location × Disk) :=
  naming p do
    let l ← d.locate p
    match d.at? l with
    | some .directory => .error .isDirectory
    | _ => .ok (l, d.put l (.file []))

def taken (d : Disk) (bytes : List UInt8) : List UInt8 :=
  match d.room with
  | none => bytes
  | some n => bytes.take n

def hasRoom (d : Disk) (bytes : List UInt8) : Bool := d.taken bytes = bytes

/-- Writes bytes to a file that is open and empty. If the system does not take all of them, the file
holds those that it took. -/
def fill (d : Disk) (l : Location) (bytes : List UInt8) : Disk × Except SystemFault Unit :=
  (d.put l (.file (d.taken bytes)),
    if d.hasRoom bytes then .ok () else .error ⟨.noSpace, none, none⟩)

def openNew (d : Disk) (p : Path) : Except SystemFault (Location × Disk) :=
  naming p do
    let l ← d.locate p
    match d.at? l with
    | some _ => .error .exists
    | none => .ok (l, d.put l (.file []))

/-- Moves a file to where a path leads; a file that is there gives way. -/
def move (d : Disk) (source : Location) (p : Path) : Except SystemFault Disk :=
  let sourceText : Text := Location.text source
  if d.refusesMoves then .error ⟨.noSpace, none, none⟩
  else
    let refuse (cause : SystemCause) : Except SystemFault Disk :=
      .error ⟨cause, some sourceText, some p.text⟩
    match d.locate p, d.at? source with
    | .error cause, _ => refuse cause
    | .ok _, none => refuse .missing
    | .ok l, some e =>
      if d.at? l = some .directory then refuse .isDirectory else .ok ((d.erase source).put l e)

def remove (d : Disk) (l : Location) : Except SystemFault Disk :=
  if d.refusesRemovals then .error ⟨.readOnly, none, none⟩ else .ok (d.erase l)

def isHeld (d : Disk) (l : Location) : Bool := l ∈ d.held

def hold (d : Disk) (p : Path) : Except SystemFault Disk := do
  let (l, d) ← d.openEmpty p
  return { d with held := l :: d.held }

def letGo (l : Location) (d : Disk) : Disk := { d with held := d.held.filter (· ≠ l) }

def release (d : Disk) : Disk := { d with held := [] }

def below (d : Disk) (l : Location) : List (List Text × Entry) :=
  d.entries.filterMap fun (at', e) =>
    if l.isPrefixOf at' && l.size < at'.size then some (at'.toList.drop l.size, e) else none

def ensureDirectoryAt (p : Path) : Action Disk Unit := do
  let d ← Action.world
  match d.makeDirectory p with
  | .ok d => Action.setWorld d
  | .error e =>
    if e.cause = .missing then Action.fail (.system e)
    else if ← Action.ofExcept ((d.hasDirectory p).mapError .system) then return ()
    else Action.fail (.system e)

/-- Makes the directory whose path has the given parts in reverse order, and the directories above
it, unless they are there. -/
def ensureDirectory (root : Text) : (reversed : List Text) → Action Disk Unit
  | [] => ensureDirectoryAt ⟨root, []⟩
  | name :: above => do
    let p : Path := ⟨root, (name :: above).reverse⟩
    let d ← Action.world
    match d.makeDirectory p with
    | .ok d => Action.setWorld d
    | .error e =>
      if e.cause = .missing then
        ensureDirectory root above
        ensureDirectoryAt p
      else ensureDirectoryAt p

def ensure (p : Path) : Action Disk Unit := do
  Action.ofExcept (checkPath p)
  ensureDirectory p.root p.parts.reverse

end Disk

end CategorySelection
