import CategorySelection.Fault
import CategorySelection.Log.Record
/-!
Actions. An action works on a world of some type, may end with a fault, and writes log records; what
it did to the world and the log before a fault remains.
-/

namespace CategorySelection

structure Outcome (σ α : Type) where
  result : Except Fault α
  world : σ
  log : List Log.Record

def Action (σ α : Type) := σ → Outcome σ α

namespace Action

variable {σ τ α β : Type}

protected def pure (a : α) : Action σ α := fun s => ⟨.ok a, s, []⟩

protected def bind (x : Action σ α) (f : α → Action σ β) : Action σ β := fun s =>
  match x s with
  | ⟨.error e, s, log⟩ => ⟨.error e, s, log⟩
  | ⟨.ok a, s, log⟩ =>
    let after := f a s
    ⟨after.result, after.world, log ++ after.log⟩

instance : Monad (Action σ) where
  pure := Action.pure
  bind := Action.bind

def fail (e : Fault) : Action σ α := fun s => ⟨.error e, s, []⟩

def ofExcept (r : Except Fault α) : Action σ α := fun s => ⟨r, s, []⟩

def world : Action σ σ := fun s => ⟨.ok s, s, []⟩

def setWorld (s : σ) : Action σ Unit := fun _ => ⟨.ok (), s, []⟩

def change (f : σ → σ) : Action σ Unit := fun s => ⟨.ok (), f s, []⟩

def write (records : List Log.Record) : Action σ Unit := fun s => ⟨.ok (), s, records⟩

def record (r : Log.Record) : Action σ Unit := write [r]

def attempt (x : Action σ α) : Action σ (Except Fault α) := fun s =>
  let after := x s
  ⟨.ok after.result, after.world, after.log⟩

/-- Does a thing; if it ends with a fault that is caught, goes on from there. -/
def rescue (caught : Fault → Bool) (x : Action σ α)
    (handler : Fault → Action σ α) : Action σ α := do
  match ← x.attempt with
  | .ok a => pure a
  | .error e => if caught e then handler e else fail e

def onPart (part : τ → σ) (replace : σ → τ → τ) (x : Action σ α) : Action τ α := fun t =>
  let after := x (part t)
  ⟨after.result, replace after.world t, after.log⟩

def onFirst (x : Action σ α) : Action (σ × τ) α := x.onPart Prod.fst fun s w => (s, w.2)

def onSecond (x : Action τ α) : Action (σ × τ) α := x.onPart Prod.snd fun t w => (w.1, t)

def alongside (s : σ) (x : Action (σ × τ) α) : Action τ α := fun t =>
  let after := x (s, t)
  ⟨after.result, after.world.2, after.log⟩

def forEach (f : α → Action σ Unit) : List α → Action σ Unit
  | [] => pure ()
  | a :: rest => do f a; forEach f rest

end Action

end CategorySelection
