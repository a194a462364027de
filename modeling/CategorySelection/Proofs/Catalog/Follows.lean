import CategorySelection.Proofs.Catalog.Returns
import Mathlib.Order.Monotone.Defs
/-!
Catalogs over two stores. If the calls of one store end as those of another one, in worlds that are
related before and after each of them, then so do the operations of catalogs over them.
-/

namespace CategorySelection

namespace Action

variable {σ τ α β : Type}

/-- One action follows another: in related worlds they end with the same, and leave related
worlds. The relation may have room for a number of changes, of which the two make no more than
their cost. -/
def Follows (R : Nat → σ → τ → Prop) (cost : Nat) (x : Action σ α) (y : Action τ α) : Prop :=
  ∀ room s t, R (room+cost) s t → (x s).result = (y t).result ∧ R room (x s).world (y t).world

namespace Follows

variable {R : Nat → σ → τ → Prop} {c k : Nat} {x : Action σ α} {y : Action τ α}

theorem pure (a : α) : Follows R 0 (pure a) (pure a) := fun _ _ _ h => ⟨rfl,h⟩

theorem ofExcept (r : Except Fault α) :
    Follows R 0 (ofExcept r) (ofExcept r) := fun _ _ _ h => ⟨rfl,h⟩

theorem fail (e : Fault) :
    Follows R 0 (fail e : Action σ α) (Action.fail e) := fun _ _ _ h => ⟨rfl,h⟩

theorem write (records others : List Log.Record) :
    Follows R 0 (write records) (Action.write others) :=
  fun _ _ _ h => ⟨rfl,h⟩

theorem record (r r' : Log.Record) : Follows R 0 (record r) (Action.record r') := write [r] [r']

theorem raise (hR : Antitone R) (h : Follows R c x y) (hle : c ≤ k) : Follows R k x y :=
  fun room s t hst => h room s t (hR (Nat.add_le_add_left hle room) s t hst)

/-- Two steps one after the other follow two others at the sum of their costs: what the second step
would have used up is left after the first. -/
theorem bind (hR : Antitone R) {f : α → Action σ β} {g : α → Action τ β} (h : Follows R c x y)
    (hf : ∀ a, Follows R k (f a) (g a)) : Follows R (c+k) (x >>= f) (y >>= g) := by
  intro room s t hst
  rw [Nat.add_comm c, ← Nat.add_assoc] at hst
  obtain ⟨hresult,hrest⟩ := h (room+k) s t hst
  rw [bind_apply, bind_apply]
  rcases hx : x s with ⟨_ | a,s',log⟩ <;> rcases hy : y t with ⟨_ | a',t',log'⟩ <;>
    rw [hx, hy] at hresult hrest <;> cases hresult
  · exact ⟨rfl,hR (Nat.le_add_right room k) s' t' hrest⟩
  · exact hf a room s' t' hrest

theorem attempt (h : Follows R c x y) : Follows R c x.attempt y.attempt := by
  intro room s t hst
  obtain ⟨hresult,hrest⟩ := h room s t hst
  exact ⟨congrArg Except.ok hresult,hrest⟩

/-- What is rescued follows if the rescue, which costs nothing, does. -/
theorem rescue (hR : Antitone R) (caught : Fault → Bool) {f : Fault → Action σ α}
    {g : Fault → Action τ α} (h : Follows R c x y) (hf : ∀ e, Follows R 0 (f e) (g e)) :
    Follows R c (x.rescue caught f) (y.rescue caught g) := by
  refine h.attempt.bind (k := 0) hR fun r => ?_
  rcases r with e | a
  · dsimp only
    split
    · exact hf e
    · exact fail e
  · exact pure a

end Follows

end Action

/-- The calls that a catalog makes of one store follow those of another one. Only setting and
removing the entry are changes. -/
structure Store.Follows {σ τ : Type} (R : Nat → σ → τ → Prop) (key : Text) (store : Store σ)
    (other : Store τ) : Prop where
  room : Antitone R
  get : Action.Follows R 0 (store.get key) (other.get key)
  set : ∀ names, Action.Follows R 1 (store.set key (Catalog.encode names))
    (other.set key (Catalog.encode names))
  remove : Action.Follows R 1 (store.remove key) (other.remove key)

namespace Store.Follows

open Catalog

variable {σ τ : Type} {R : Nat → σ → τ → Prop} {key : Text} {store : Store σ} {other : Store τ}

theorem save (h : store.Follows R key other) (seeds names : List Text) :
    Action.Follows R 1 (Catalog.save ⟨store,key,seeds⟩ names)
      (Catalog.save ⟨other,key,seeds⟩ names) :=
  (h.set names).rescue h.room _ fun _ => .record _ _

/-- Loading costs at most one change, as it may have to start the catalog. -/
theorem load (h : store.Follows R key other) (seeds : List Text) :
    Action.Follows R 1 (Catalog.load ⟨store,key,seeds⟩) (Catalog.load ⟨other,key,seeds⟩) := by
  refine h.get.attempt.bind (k := 1) h.room fun r => ?_
  rcases r with e | _ | raw
  · dsimp only
    split
    · exact ((Action.Follows.record _ _).bind h.room fun _ => .pure _).raise h.room (Nat.zero_le 1)
    · exact (Action.Follows.fail e).raise h.room (Nat.zero_le 1)
  · have hseed : Action.Follows R 1 (seed ⟨store,key,seeds⟩) (seed ⟨other,key,seeds⟩) :=
      (Action.Follows.record _ _).bind h.room fun _ => h.save seeds seeds
    exact hseed.bind h.room fun _ => .pure _
  · have hread : Action.Follows R 0 (Action.ofExcept (decode raw)) (Action.ofExcept (decode raw)) :=
      .ofExcept _
    refine (hread.bind (k := 0) h.room fun saved => ?_).raise h.room (Nat.zero_le 1)
    exact (Action.Follows.write _ _).bind h.room fun _ => .pure _

/-- Adding a name may start the catalog before it saves it with the name. -/
theorem add (h : store.Follows R key other) (seeds : List Text) (name : Text) :
    Action.Follows R 2 (Catalog.add ⟨store,key,seeds⟩ name)
      (Catalog.add ⟨other,key,seeds⟩ name) := by
  refine (h.load seeds).bind (k := 1) h.room fun names => ?_
  cases rejection? name.trim names with
  | some why =>
    exact ((Action.Follows.record _ _).bind h.room fun _ => .pure _).raise h.room (Nat.zero_le 1)
  | none =>
    refine (h.save seeds (names ++ [name.trim])).bind (k := 0) h.room fun _ => ?_
    exact (Action.Follows.record _ _).bind h.room fun _ => .pure _

/-- Deleting costs at most two changes: it loads the catalog and saves it. -/
theorem delete (h : store.Follows R key other) (seeds : List Text) (name : Text) :
    Action.Follows R 2 (Catalog.delete ⟨store,key,seeds⟩ name)
      (Catalog.delete ⟨other,key,seeds⟩ name) := by
  refine (h.load seeds).bind (k := 1) h.room fun names => ?_
  split_ifs
  · exact (h.save seeds (names.erase name)).bind h.room fun _ => .record _ _
  · exact (Action.Follows.pure ()).raise h.room (Nat.zero_le 1)

theorem restore (h : store.Follows R key other) (seeds : List Text) :
    Action.Follows R 1 (Catalog.restore ⟨store,key,seeds⟩) (Catalog.restore ⟨other,key,seeds⟩) := by
  refine h.remove.attempt.bind (k := 0) h.room fun r => ?_
  rcases r with e | u
  · dsimp only
    split
    · exact .record _ _
    · exact .fail e
  · exact .record _ _

/-- One step: an operation ends the same over both stores, and makes at most two changes. -/
theorem perform (h : store.Follows R key other) (seeds : List Text) (o : Operation) :
    Action.Follows R 2 (o.perform ⟨store,key,seeds⟩) (o.perform ⟨other,key,seeds⟩) := by
  have hload := (h.load seeds).raise h.room (Nat.le_succ 1)
  cases o with
  | save names =>
    exact ((h.save seeds names).raise h.room (Nat.le_succ 1)).bind h.room fun _ => .pure _
  | request r =>
    cases r with
    | load => exact hload.bind h.room fun _ => .pure _
    | has name => exact (hload.bind h.room fun _ => .pure _).bind h.room fun _ => .pure _
    | rejection name => exact (hload.bind h.room fun _ => .pure _).bind h.room fun _ => .pure _
    | tryAdd name => exact (h.add seeds name).bind h.room fun _ => .pure _
    | add name => exact (h.add seeds name).bind h.room fun _ => .pure _
    | delete name => exact (h.delete seeds name).bind h.room fun _ => .pure _
    | restore => exact ((h.restore seeds).raise h.room (Nat.le_succ 1)).bind h.room fun _ => .pure _

/-- By induction on the operations: a whole run ends the same. -/
theorem performAll (h : store.Follows R key other) (seeds : List Text)
    {operations : List Operation} {s : σ} {t : τ} (hst : R (2*operations.length) s t) :
    (Operation.performAll ⟨store,key,seeds⟩ operations s).1 =
      (Operation.performAll ⟨other,key,seeds⟩ operations t).1 := by
  induction operations generalizing s t with
  | nil => rfl
  | cons o rest ih =>
    obtain ⟨hresult,hrest⟩ := h.perform seeds o (2*rest.length) s t hst
    rw [Operation.performAll, Operation.performAll]
    dsimp only
    rw [hresult, ih hrest]

end Store.Follows

end CategorySelection
