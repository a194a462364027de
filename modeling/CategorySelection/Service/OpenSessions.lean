import CategorySelection.Registry
import CategorySelection.Session
/-!
The open sessions of the service. Whoever asks for a session keeps it open; one that nobody asks for
is closed after a while, and so is the one that was asked for longest ago when there are too many.
-/

namespace CategorySelection

namespace Service

/-- What the service works on: the open sessions, the number of the last session, and the world of
its store. -/
structure World (σ : Type) where
  registry : Registry Binary64 Session
  numbers : Nat
  store : σ

def defaultCapacity : Int := 256

def defaultLifetime : Binary64 := .ofInt 3600

def World.start {σ : Type} (capacity : Int) (lifetime : Binary64) (store : σ) :
    Except Fault (World σ) := do
  return ⟨← Registry.make capacity lifetime Binary64.zero, 0, store⟩

variable {σ α : Type}

def onStore (x : Action σ α) : Action (World σ) α :=
  x.onPart (·.store) fun store w => { w with store }

def keep (s : Session) : Action (World σ) Unit := do
  let w ← Action.world
  let registry ← Action.ofExcept (w.registry.put s.id s)
  Action.setWorld { w with registry }

def openSession (catalog : Catalog σ) (expression : Text) : Action (World σ) Session := do
  let s ← (Session.openNumbered catalog expression).onPart (fun w => (w.numbers, w.store))
    fun (numbers, store) w => { w with numbers, store }
  keep s
  return s

def useSession (id : Text) : Action (World σ) (Option Session) := do
  match (← Action.world).registry.find? id with
  | none => return none
  | some s =>
    keep s
    return some s

def closeSession (id : Text) : Action (World σ) Bool := do
  let w ← Action.world
  match w.registry.find? id with
  | none => return false
  | some _ =>
    Action.setWorld { w with registry := w.registry.remove id }
    Action.record { Log.note "api.sessions" Log.Level.info "Closed filter session" with
      context := .ofSession id }
    return true

def wait (seconds : Binary64) : Action (World σ) Unit :=
  Action.change fun w => { w with registry := w.registry.advance seconds }

def onSession (s : Session) (x : Action (Session × σ) α) : Action (World σ) α :=
  x.onPart (fun w => (s, w.store)) fun (s, store) w =>
    { w with store, registry := w.registry.replace s.id s }

end Service

end CategorySelection
