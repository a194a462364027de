import CategorySelection.Catalog
import CategorySelection.Proofs.Action
/-!
A catalog beside another world. The operations of a catalog whose store is the first of two worlds
are its operations over that store, and leave the second world as it is.
-/

namespace CategorySelection

namespace Action

variable {σ τ α β : Type}

theorem onFirst_bind (x : Action σ α) (f : α → Action σ β) :
    ((x >>= f).onFirst : Action (σ × τ) β) = x.onFirst >>= fun a => (f a).onFirst := by
  funext w
  rw [onFirst_apply, bind_apply, bind_apply, onFirst_apply]
  rcases x w.1 with ⟨_ | _,_,_⟩ <;> rfl

/-- An action on the first of two worlds is rescued there. -/
theorem onFirst_rescue (caught : Fault → Bool) (x : Action σ α) (handler : Fault → Action σ α) :
    ((x.rescue caught handler).onFirst : Action (σ × τ) α) =
      x.onFirst.rescue caught fun e => (handler e).onFirst := by
  rw [rescue, rescue, onFirst_bind]
  congr 1
  funext r
  cases r with
  | error e =>
    dsimp only
    split <;> rfl
  | ok a => rfl

end Action

namespace Catalog

variable {σ τ : Type}

def beside (catalog : Catalog σ) : Catalog (σ × τ) :=
  ⟨catalog.store.onPart Prod.fst fun s w => (s, w.2), catalog.key, catalog.seeds⟩

/-- Beside something else, names are saved as they are saved alone. -/
theorem save_beside (catalog : Catalog σ) (names : List Text) :
    (catalog.beside : Catalog (σ × τ)).save names = (catalog.save names).onFirst := by
  rw [save, save, Action.onFirst_rescue]
  rfl

/-- Beside something else, the catalog is loaded as it is loaded alone. -/
theorem load_beside (catalog : Catalog σ) :
    (catalog.beside : Catalog (σ × τ)).load = catalog.load.onFirst := by
  rw [load, load, Action.onFirst_bind]
  congr 1
  funext r
  rcases r with e | _ | raw
  · dsimp only
    split <;> rfl
  · dsimp only
    rw [seed, seed, save_beside, Action.onFirst_bind, Action.onFirst_bind]
    rfl
  · dsimp only
    rw [Action.onFirst_bind]
    rfl

/-- Beside something else, a name is added as it is added alone. -/
theorem add_beside (catalog : Catalog σ) (name : Text) :
    (catalog.beside : Catalog (σ × τ)).add name = (catalog.add name).onFirst := by
  rw [add, add, load_beside, Action.onFirst_bind]
  congr 1
  funext names
  cases rejection? name.trim names with
  | none =>
    dsimp only
    rw [save_beside, Action.onFirst_bind]
    rfl
  | some why => rfl

/-- Beside something else, a name is deleted as it is deleted alone. -/
theorem delete_beside (catalog : Catalog σ) (name : Text) :
    (catalog.beside : Catalog (σ × τ)).delete name = (catalog.delete name).onFirst := by
  rw [delete, delete, load_beside, Action.onFirst_bind]
  congr 1
  funext names
  split
  · rw [save_beside, Action.onFirst_bind]
    rfl
  · rfl

theorem restore_beside (catalog : Catalog σ) :
    (catalog.beside : Catalog (σ × τ)).restore = catalog.restore.onFirst := by
  rw [restore, restore, Action.onFirst_bind]
  congr 1
  funext r
  rcases r with e | u
  · dsimp only
    split <;> rfl
  · rfl

end Catalog

end CategorySelection
