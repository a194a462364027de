import CategorySelection.Action
/-!
Stores. A store keeps texts under keys in a world of some type. Any call may end with a fault.
-/

namespace CategorySelection

structure Store (σ : Type) where
  get : Text → Action σ (Option Text)
  set : Text → Text → Action σ Unit
  remove : Text → Action σ Unit

namespace Store

variable {σ τ : Type}

def memory : Store (Assoc Text) where
  get key := fun table => ⟨.ok (table.get? key), table, []⟩
  set key value := Action.change (·.put key value)
  remove key := Action.change (·.erase key)

def onPart (part : τ → σ) (replace : σ → τ → τ) (store : Store σ) : Store τ where
  get key := (store.get key).onPart part replace
  set key value := (store.set key value).onPart part replace
  remove key := (store.remove key).onPart part replace

structure Outage where
  get : Option Fault := none
  set : Option Fault := none
  remove : Option Fault := none
  deriving Repr, Inhabited

def guarded {α : Type} (fault : Outage → Option Fault)
    (x : Action σ α) : Action (σ × Outage) α := do
  match fault (← Action.world).2 with
  | some e => Action.fail e
  | none => x.onFirst

def withOutage (store : Store σ) : Store (σ × Outage) where
  get key := guarded (·.get) (store.get key)
  set key value := guarded (·.set) (store.set key value)
  remove key := guarded (·.remove) (store.remove key)

end Store

end CategorySelection
