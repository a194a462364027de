import CategorySelection.Program.Run
import CategorySelection.Service
import Std.Time.DateTime.Timestamp
/-!
The program on a real system. The files that a run may touch are taken into a disk, the run is made
on that disk, and what it has changed is put back. The service reads one request a line from
standard input and writes one response a line.
-/

namespace CategorySelection

namespace Host

/-- A text as a string; a surrogate, which no string can hold, becomes a question mark. -/
def stringOf (t : Text) : String :=
  String.ofList (t.map fun c => if c.isSurrogate then '?' else Char.ofNat c.val)

def nameOf (l : Location) : String := stringOf (Location.text l)

def takeAt (d : Disk) (l : Location) : IO Disk := do
  match ← (IO.FS.realPath (nameOf l)).toBaseIO with
  | .error _ => return d.erase l
  | .ok place =>
    if ← place.isDir then return d.put l .directory
    else return d.put l (.file (← IO.FS.readBinFile place).toList)

def take (d : Disk) (p : Path) : IO Disk := do
  let l := d.target p
  (List.range l.size).foldlM (fun d n => takeAt d (l.take (n + 1))) d

def giveBack (before after : Disk) : IO Unit := do
  for (l, e) in after.entries.reverse do
    if before.at? l ≠ some e then
      match e with
      | .directory => IO.FS.createDirAll (nameOf l)
      | .file bytes => IO.FS.writeBinFile (nameOf l) ⟨bytes.toArray⟩
  for (l, _) in before.entries do
    if (after.at? l).isNone then IO.FS.removeFile (nameOf l)

def now : IO Json := do
  let micros := (← Std.Time.Timestamp.now).toMillisecondsSinceUnixEpoch.val * 1000
  return .float (Binary64.ofQuotient (micros < 0) micros.natAbs 1000000)

def tryLock (lock : IO.FS.Handle) : (tries : Nat) → IO Bool
  | 0 => lock.tryLock
  | tries + 1 => do
    if ← lock.tryLock then return true
    IO.sleep 50
    tryLock lock tries

def triesIn : Binary64 → Nat
  | .finite false m e => let (num, den) := Binary64.quotient m e; 20 * num / den
  | _ => 0

/-- Takes a lock as the settings tell: once it is free, or within the time for it. -/
def takeLock (s : Settings) (lock : IO.FS.Handle) : IO Bool := do
  if (Store.FileOptions.mk s.storagePath s.lockTimeout).isEndless then
    lock.lock
    return true
  else tryLock lock (triesIn s.lockTimeout)

def withLock {α : Type} (s : Settings) (d : Disk) (run : Disk → IO α) : IO α := do
  let file := Store.File.lockPath s.storagePath
  match (d.find file).toOption with
  | none => run d
  | some (l, _) =>
    let lock ← IO.FS.Handle.mk (nameOf l) .append
    if ← takeLock s lock then
      let a ← run d
      lock.unlock
      return a
    else run { d with held := [l] }

def surroundings : IO Surroundings := do
  let home := (← IO.getEnv "HOME").map fun h => (([] : Text), Text.ofString h)
  let environment ← Settings.variableNames.filterMapM fun name => do
    return (← IO.getEnv (stringOf name)).map fun value => (name, Text.ofString value)
  return ⟨home.toList, environment⟩

def freshNumber : IO Nat := do
  return (← IO.getRandomBytes 16).toList.foldl (fun n b => 256 * n + b.toNat) 0

def diskFor (around : Surroundings) (i : Invocation) : IO (Disk × Option Settings) := do
  let current := (Path.ofText (Text.ofString (← IO.currentDir).toString)).parts.toArray
  let output := match i.command with
    | .edit e => (e.output.bind (·.toOption)).toList
    | _ => []
  let named := (i.envFile.bind (·.toOption)).toList ++ output
  let d ← (Path.ofText [] :: named).foldlM take { current }
  match (Launch.settings around i d).result with
  | .error _ => return (d, none)
  | .ok s => return (← [s.storagePath, Store.File.lockPath s.storagePath].foldlM take d, some s)

def requestOf (line : String) : Service.Request :=
  match Json.read (Text.ofString line) with
  | .ok (.object fields) =>
    let text (name : Text) : Text := (Assoc.get? name fields >>= Json.string?).getD []
    ⟨.ofName (text "method"), text "path", text "body"⟩
  | _ => ⟨.other, [], []⟩

partial def serve (s : Settings) (catalog : Catalog Disk) (output : Log.Output) (lastMs : Nat)
    (w : Service.World Disk) : IO Unit := do
  let line ← (← IO.getStdin).getLine
  if line.isEmpty then return
  let ms ← IO.monoMsNow
  let store ← take w.store s.storagePath
  let waited := (Service.wait (.ofQuotient false (ms - lastMs) 1000) { w with store }).world
  let o ← withLock s store fun d => do
    let o := Service.answer catalog (requestOf line) { waited with store := d }
    giveBack d o.world.store
    return o
  IO.eprint (stringOf (output.writeAll (← now) o.log))
  let response : Json := match o.result with
    | .ok r => .object [("status", .int r.status), ("body", r.body.getD .null)]
    | .error e => .object [("status", .int 500), ("body", .string e.line)]
  IO.println (stringOf (response.writeLine .spaced))
  serve s catalog output ms o.world

def start (s : Settings) (d : Disk) : IO UInt32 := do
  match Launch.output s, (Launch.catalog s d).result,
      Service.World.start s.maxSessions (.ofInt s.sessionTtl) d with
  | .ok output, .ok catalog, .ok w =>
    serve s catalog output (← IO.monoMsNow) { w with numbers := ← freshNumber }
    return 0
  | _, _, _ => return 1

def run (arguments : List Text) : IO UInt32 := do
  let around ← surroundings
  let number ← freshNumber
  let seconds ← now
  let make (d : Disk) : IO (Program.Report × Disk) := do
    let (report, (_, after)) := Program.run around seconds arguments (number, d)
    giveBack d after
    IO.print (stringOf report.printed)
    IO.eprint (stringOf report.errors)
    return (report, after)
  match Invocation.ofArguments arguments with
  | .error refusal =>
    if refusal.status ≠ 0 then IO.eprintln (stringOf refusal.message)
    return refusal.status.toUInt32
  | .ok i =>
    let (d, settings) ← diskFor around i
    let (report, d) ← match settings with
      | none => make d
      | some s => withLock s d make
    match report.result, report.service, settings with
    | .error e, _, _ => IO.eprintln (stringOf e.line); return 1
    | .ok _, some _, some s => start s d
    | .ok status, _, _ => return status.toUInt32

end Host

end CategorySelection

def main (arguments : List String) : IO UInt32 :=
  CategorySelection.Host.run (arguments.map CategorySelection.Text.ofString)
