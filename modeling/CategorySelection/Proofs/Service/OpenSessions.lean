import CategorySelection.Proofs.Registry.Live
import CategorySelection.Proofs.Session.Command
import CategorySelection.Proofs.Session.Outcome
import CategorySelection.Service.OpenSessions
/-!
The open sessions in order. Whatever is done with sessions, each of them stays under its own id, and
the registry of them stays in order while the clock does not go back.
-/

namespace CategorySelection

namespace Registry

variable {κ α : Type} [LT κ] [DecidableLT κ] [Add κ] {r : Registry κ α}

/-- Putting an item in is refused only if there is no room at all. -/
theorem put_cases (h : r.Orderly) (id : Text) (item : α) :
    r.put id item = .error .noCapacity ∨
      (r.capacity ≠ 0 ∧ r.put id item = .ok (r.putting id item)) := by
  by_cases hc : r.capacity = 0
  · refine Or.inl ?_
    rw [put, if_pos (show r.expire.capacity = 0 from hc)]
  · exact Or.inr ⟨hc,put_eq h hc id item⟩

theorem capacity_ne_zero (h : r.Orderly) {id : Text} {item : α} (hitem : r.find? id = some item) :
    r.capacity ≠ 0 := by
  obtain ⟨e,he,_⟩ := (find?_eq_some_iff h.distinct).mp hitem
  have hpos := List.length_pos_of_mem he
  have hle := h.length_live_le
  omega

end Registry

namespace Session

variable {σ : Type}

theorem id_perform_change (c : Change) (s : Session) : (c.perform s).world.id = s.id := by
  cases c with
  | toggle name direction =>
    rw [Change.perform, Action.bind_apply, Action.ofExcept_apply]
    cases Direction.ofLabel direction with
    | error e => rfl
    | ok d =>
      dsimp only
      rw [toggle_apply]
      cases s.checklist.set name d.mark <;> rfl
  | clear name => rfl
  | clearAll => rfl

/-- A session keeps its id whatever command is done, also where the command fails part of the
way. -/
theorem Command.id_perform (catalog : Catalog σ) (command : Command σ) (s : Session) (w : σ) :
    (command.perform catalog (s, w)).world.1.id = s.id := by
  cases command <;> rw [Command.perform, Action.world_bind_pure]
  case change c => exact id_perform_change c s
  case add name =>
    rw [addCategory_apply]
    rcases catalog.add name w with ⟨_ | _ | why,w,log⟩
    · rfl
    · dsimp only
      cases s.checklist.add name.trim <;> rfl
    · rfl
  case delete name =>
    rw [deleteCategory_apply]
    rcases catalog.delete name w with ⟨_ | _,w,log⟩ <;> rfl
  case restore =>
    rw [restore_apply]
    rcases catalog.restore w with ⟨_ | _,w,log⟩
    · rfl
    dsimp only
    rcases catalog.load w with ⟨_ | known,w,log'⟩
    · rfl
    · dsimp only
      cases Checklist.ofMarks known s.checklist.selected <;> rfl
  case commit send override =>
    rw [commit_apply]
    rcases send (s.offer override) w with ⟨_ | _,w,log⟩ <;> rfl

end Session

namespace Service

variable {σ α : Type}

/-- What opening a session does: without a session the number and the catalog are all that may have
changed. -/
theorem openSession_apply (catalog : Catalog σ) (expression : Text) (w : World σ) :
    openSession catalog expression w =
      match Session.openNumbered catalog expression (w.numbers, w.store) with
      | ⟨.error e, (numbers, store), log⟩ => ⟨.error e, { w with numbers, store }, log⟩
      | ⟨.ok s, (numbers, store), log⟩ =>
        match w.registry.put s.id s with
        | .error e => ⟨.error e, { w with numbers, store }, log⟩
        | .ok registry => ⟨.ok s, { registry, numbers, store }, log⟩ := by
  rw [openSession, Action.bind_apply, Action.onPart]
  rcases Session.openNumbered catalog expression (w.numbers, w.store)
    with ⟨_ | s,⟨numbers,store⟩,log⟩
  · rfl
  · cases hput : w.registry.put s.id s <;> simp [keep, Action.bind_apply, hput]

/-- What using a session does: one that is open is put in again. -/
theorem useSession_apply (id : Text) (w : World σ) :
    useSession id w = match w.registry.find? id with
      | none => ⟨.ok none, w, []⟩
      | some s =>
        match w.registry.put s.id s with
        | .error e => ⟨.error e, w, []⟩
        | .ok registry => ⟨.ok (some s), { w with registry }, []⟩ := by
  rw [useSession, Action.bind_apply, Action.world_apply]
  dsimp only
  cases hfind : w.registry.find? id with
  | none => rfl
  | some s => cases hput : w.registry.put s.id s <;> simp [keep, Action.bind_apply, hput]

theorem closeSession_of_none {id : Text} {w : World σ} (h : w.registry.find? id = none) :
    closeSession id w = ⟨.ok false, w, []⟩ := by
  rw [closeSession, Action.bind_apply, Action.world_apply]
  simp only [h, Action.pure_apply, List.append_nil]

theorem closeSession_of_some {id : Text} {w : World σ} {s : Session}
    (h : w.registry.find? id = some s) :
    (closeSession id w).result = .ok true ∧
      (closeSession id w).world = { w with registry := w.registry.remove id } := by
  rw [closeSession, Action.bind_apply, Action.world_apply]
  simp [h, Action.bind_apply]

theorem world_onSession (s : Session) (x : Action (Session × σ) α) (w : World σ) :
    (onSession s x w).world = { w with
      registry := w.registry.replace (x (s, w.store)).world.1.id (x (s, w.store)).world.1
      store := (x (s, w.store)).world.2 } := rfl

/-- A service starts with nothing open, and with no negative capacity. -/
theorem World.start_cases {capacity : Int} {lifetime : Binary64} {store : σ} {w : World σ}
    (h : World.start capacity lifetime store = .ok w) :
    0 ≤ capacity ∧ w = ⟨⟨capacity.toNat, lifetime, .zero, []⟩, 0, store⟩ := by
  rw [World.start, Registry.make] at h
  split at h
  · cases h
  · cases h
    exact ⟨by omega,rfl⟩

def World.IsOpen (w : World σ) (id : Text) : Prop := (w.registry.find? id).isSome = true

instance (w : World σ) (id : Text) : Decidable (w.IsOpen id) :=
  inferInstanceAs (Decidable (_ = true))

theorem World.isOpen_of_some {w : World σ} {id : Text} {s : Session}
    (h : w.registry.find? id = some s) :
    w.IsOpen id := by rw [IsOpen, h, Option.isSome_some]

theorem World.not_isOpen_of_none {w : World σ} {id : Text} (h : w.registry.find? id = none) :
    ¬w.IsOpen id := by
  rw [IsOpen, h, Option.isSome_none]
  exact Bool.false_ne_true

/-- A world in order: so is the registry, the clock shows a time, and sessions are under their own
ids. -/
structure World.Orderly (w : World σ) : Prop where
  registry : w.registry.Orderly
  time : w.registry.now.IsTime
  named : ∀ e ∈ w.registry.entries, e.item.id = e.id

namespace World.Orderly

variable {w : World σ}

theorem id_of_find? (h : w.Orderly) {id : Text} {s : Session} (hs : w.registry.find? id = some s) :
    s.id = id := by
  obtain ⟨e,he,hid,hitem⟩ := (Registry.find?_eq_some_iff h.registry.distinct).mp hs
  rw [← hitem, h.named e (Registry.mem_live.mp he).1, hid]

theorem start {capacity : Int} {lifetime : Binary64} {store : σ}
    (h : World.start capacity lifetime store = .ok w) : w.Orderly := by
  obtain ⟨_,rfl⟩ := start_cases h
  exact ⟨⟨List.nodup_nil,List.Pairwise.nil,nofun,Nat.zero_le _⟩,.zero,nofun⟩

theorem setStore (h : w.Orderly) (numbers : Nat) (store : σ) :
    World.Orderly { w with numbers, store } :=
  ⟨h.registry,h.time,h.named⟩

theorem putting (h : w.Orderly) (hc : w.registry.capacity ≠ 0) (s : Session) :
    World.Orderly { w with registry := w.registry.putting s.id s } := by
  refine ⟨h.registry.putting hc s.id s,h.time,?_⟩
  intro e he
  rcases List.mem_append.mp he with he | he
  · exact h.named e (((Registry.staying_sublist _ _).trans (Registry.live_sublist _)).subset he)
  · rw [List.mem_singleton.mp he]

/-- Using an open session puts it in again under its id. -/
theorem useSession_of_some (h : w.Orderly) {id : Text} {s : Session}
    (hs : w.registry.find? id = some s) :
    useSession id w = ⟨.ok (some s), { w with registry := w.registry.putting id s }, []⟩ := by
  have hid := h.id_of_find? hs
  have hc := Registry.capacity_ne_zero h.registry hs
  rw [useSession_apply, hs]
  dsimp only
  rw [hid, Registry.put_eq h.registry hc]

/-- A session is put in, or there is none and the registry is as it was. -/
theorem openSession_cases (h : w.Orderly) (catalog : Catalog σ) (expression : Text) :
    (∃ e, (openSession catalog expression w).result = .error e ∧
      (openSession catalog expression w).world.registry = w.registry) ∨
    ∃ s, (openSession catalog expression w).result = .ok s ∧ w.registry.capacity ≠ 0 ∧
      (openSession catalog expression w).world.registry = w.registry.putting s.id s := by
  rw [openSession_apply]
  rcases Session.openNumbered catalog expression (w.numbers, w.store)
    with ⟨e | s,⟨numbers,store⟩,log⟩
  · exact Or.inl ⟨e,rfl,rfl⟩
  · dsimp only
    rcases Registry.put_cases h.registry s.id s with hput | ⟨hc,hput⟩
    · rw [hput]
      exact Or.inl ⟨_,rfl,rfl⟩
    · rw [hput]
      exact Or.inr ⟨s,rfl,hc,rfl⟩

theorem replacing (h : w.Orderly) (s : Session) (store : σ) :
    World.Orderly { w with registry := w.registry.replace s.id s, store } := by
  refine ⟨h.registry.replace _ _,h.time,?_⟩
  intro e he
  obtain ⟨before,hbefore,rfl⟩ := List.mem_map.mp he
  split_ifs with hid
  · exact hid.symm
  · exact h.named before hbefore

theorem removing (h : w.Orderly) (id : Text) :
    World.Orderly { w with registry := w.registry.remove id } :=
  ⟨h.registry.remove id,h.time,fun e he => h.named e (List.mem_of_mem_filter he)⟩

/-- Time that passes keeps a world in order: the clock does not go back, so what was due is still
due before what may be put in now. -/
theorem wait (h : w.Orderly) {seconds : Binary64} (hnumber : seconds ≠ .notANumber)
    (hsign : seconds.isNegative = false) : (wait seconds w).world.Orderly := by
  obtain ⟨htime,hle⟩ := h.time.add hnumber hsign
  exact ⟨h.registry.advance (h.time.noLater_add htime hle _),htime,h.named⟩

end World.Orderly

end Service

end CategorySelection
