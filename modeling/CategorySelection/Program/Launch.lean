import CategorySelection.Log.Output
import CategorySelection.Program.Invocation
import CategorySelection.Settings
/-!
Setting the program up. The settings come from the surroundings and, where the command line gives
one, from the command line; they decide how the log is written and where the catalog is kept.
-/

namespace CategorySelection

/-- What the program finds around it: the home directories and the variables. -/
structure Surroundings where
  homes : Settings.Homes
  environment : Assoc Text

namespace Launch

/-- The settings with those of the command line in their place. An empty text and the port zero set
nothing. -/
def override (i : Invocation) (s : Settings) : Settings :=
  let given (t : Option (Arguments.Given Text)) (usual : Text) : Text := match t with
    | some (.value (c :: rest)) => c :: rest
    | _ => usual
  let s := { s with
    logLevel := given i.logLevel s.logLevel
    storagePath := (i.storagePath.bind (·.toOption)).getD s.storagePath }
  match i.command with
  | .serve host port =>
    { s with
      apiHost := given host s.apiHost
      apiPort := match port with
        | some (.value n) => if n = 0 then s.apiPort else n
        | _ => s.apiPort }
  | _ => s

def settings (around : Surroundings) (i : Invocation) : Action Disk Settings := do
  return override i (← Settings.load around.homes around.environment (i.envFile.bind (·.toOption)))

def output (s : Settings) : Except Fault Log.Output :=
  Log.Output.make s.logLevel s.logJson s.diagnosticTags

def catalog (s : Settings) : Action Disk (Catalog Disk) := do
  Action.record (Log.note "bootstrap" Log.Level.debug
    ("Using category storage at " ++ s.storagePath.text))
  Catalog.make (Store.file ⟨s.storagePath, s.lockTimeout⟩) s.storageKey Catalog.defaultSeeds

end Launch

end CategorySelection
