import CategorySelection.Proofs.Service.OpenSessions
import Mathlib.Logic.Function.Basic
/-!
Visits to the open sessions. A history notes which sessions were opened, what commands made of them,
and when each of them was last touched. Nothing is ever taken out of it; which sessions are open
follows from it and from the rules by which a session is closed.
-/

namespace CategorySelection

namespace Service

variable {σ α : Type}

/-- What is done with open sessions: one is opened, used, worked on or closed; or time passes, or
something else happens to the store. -/
inductive Visit (σ : Type)
  | begin (expression : Text)
  | use (id : Text)
  | work (id : Text) (command : Session.Command σ)
  | close (id : Text)
  | wait (seconds : Binary64)
  | aside (x : Action σ Unit)

namespace Visit

/-- Pays a visit. A session that is not open is not worked on. -/
def perform (catalog : Catalog σ) : Visit σ → Action (World σ) Unit
  | begin expression => do let _ ← openSession catalog expression
  | use id => do let _ ← useSession id
  | work id command => do
    match (← Action.world).registry.find? id with
    | none => return ()
    | some s => let _ ← onSession s (command.perform catalog)
  | close id => do let _ ← closeSession id
  | wait seconds => Service.wait seconds
  | aside x => onStore x

/-- Working with a session that is not open does nothing. -/
theorem perform_work_of_none (catalog : Catalog σ) {id : Text} {w : World σ}
    (command : Session.Command σ) (h : w.registry.find? id = none) :
    ((work id command).perform catalog w).world = w := by
  rw [perform, Action.bind_apply, Action.world_apply]
  simp only [h, Action.pure_apply]

/-- Working with an open session does the command and puts the session back. -/
theorem perform_work_of_some (catalog : Catalog σ) {id : Text} {w : World σ} {s : Session}
    (command : Session.Command σ) (h : w.registry.find? id = some s) :
    ((work id command).perform catalog w).world =
    (onSession s (command.perform catalog) w).world := by
  rw [perform, Action.bind_apply, Action.world_apply]
  simp only [h, Action.world_bind_pure]

def Passes : Visit σ → Prop
  | wait seconds => seconds ≠ .notANumber ∧ seconds.isNegative = false
  | _ => True

end Visit

/-- What is known of all sessions from the visits so far: what is in the session that was opened
under an id, and at which time and as which one of all touches it was last touched. -/
structure History where
  touches : Nat
  session : Text → Option Session
  since : Text → Binary64
  turn : Text → Nat

namespace History

def empty : History := ⟨0, fun _ => none, fun _ => .zero, fun _ => 0⟩

def touch (h : History) (id : Text) (now : Binary64) : History :=
  { h with
    touches := h.touches+1
    since := Function.update h.since id now
    turn := Function.update h.turn id (h.touches+1) }

def setSession (h : History) (id : Text) (s : Session) : History :=
  { h with session := Function.update h.session id (some s) }

variable (h : History) {id other : Text} (now : Binary64) (s : Session)

@[simp] theorem touches_touch : (h.touch id now).touches = h.touches+1 := rfl

@[simp] theorem session_touch : (h.touch id now).session = h.session := rfl

@[simp] theorem since_touch_self : (h.touch id now).since id = now := Function.update_self ..

@[simp] theorem turn_touch_self : (h.touch id now).turn id = h.touches+1 := Function.update_self ..

theorem since_touch_of_ne (hne : other ≠ id) : (h.touch id now).since other = h.since other :=
  Function.update_of_ne hne ..

theorem turn_touch_of_ne (hne : other ≠ id) : (h.touch id now).turn other = h.turn other :=
  Function.update_of_ne hne ..

@[simp] theorem session_setSession_self : (h.setSession id s).session id = some s :=
  Function.update_self ..

theorem session_setSession_of_ne (hne : other ≠ id) :
    (h.setSession id s).session other = h.session other :=
  Function.update_of_ne hne ..

theorem setSession_of_session {h : History} {s : Session} (hs : h.session id = some s) :
    h.setSession id s = h := by
  rw [setSession, ← hs, Function.update_eq_self]

def note (catalog : Catalog σ) (w : World σ) (h : History) : Visit σ → History
  | .begin expression =>
    match (openSession catalog expression w).result with
    | .ok s => (h.setSession s.id s).touch s.id w.registry.now
    | .error _ => h
  | .use id =>
    match (useSession id w).result with
    | .ok (some _) => h.touch id w.registry.now
    | _ => h
  | .work id command =>
    match h.session id with
    | some s =>
      if w.IsOpen id then h.setSession id (command.perform catalog (s, w.store)).world.1 else h
    | none => h
  | _ => h

end History

namespace Visit

def after (catalog : Catalog σ) : List (Visit σ) → World σ × History → World σ × History
  | [], reached => reached
  | v :: rest, (w, h) => after catalog rest ((v.perform catalog w).world, h.note catalog w v)

def IsFresh (catalog : Catalog σ) (w : World σ) : Visit σ → Prop
  | begin expression => ∀ s, (openSession catalog expression w).result = .ok s → ¬w.IsOpen s.id
  | _ => True

def Opens (catalog : Catalog σ) (w : World σ) (id : Text) : Visit σ → Prop
  | begin expression => ∃ s, (openSession catalog expression w).result = .ok s ∧ s.id = id ∧
      w.registry.now < w.registry.now+w.registry.lifetime
  | _ => False

/-- Whether a visit ends the open session with an id: it closes it, or the clock reaches its last
touch and the lifetime of sessions, or another one is opened while there is no room and all others
were touched later. -/
def Ends (catalog : Catalog σ) (w : World σ) (h : History) (id : Text) : Visit σ → Prop
  | close closed => closed = id
  | wait seconds => ¬w.registry.now+seconds < h.since id+w.registry.lifetime
  | begin expression => (openSession catalog expression w).result.isOk = true ∧
      w.registry.size = w.registry.capacity ∧
      ∀ other, w.IsOpen other → other ≠ id → h.turn id < h.turn other
  | _ => False

end Visit

/-- A history that agrees with a registry of given limits: each entry has the session and the time
that are noted, and the entries are in the order of their last touches. -/
structure History.Tracks (h : History) (limits : Nat × Binary64) (w : World σ) : Prop where
  orderly : w.Orderly
  limits : (w.registry.capacity, w.registry.lifetime) = limits
  room : w.registry.capacity ≠ 0
  session : ∀ e ∈ w.registry.entries, h.session e.id = some e.item
  expires : ∀ e ∈ w.registry.entries, e.expires = h.since e.id+w.registry.lifetime
  turn : ∀ e ∈ w.registry.entries, h.turn e.id ≤ h.touches
  ordered : w.registry.entries.Pairwise fun a b => h.turn a.id < h.turn b.id

namespace History.Tracks

variable {h : History} {limits : Nat × Binary64} {w : World σ}

/-- A service that starts is known with nothing that has happened. -/
theorem start {capacity : Int} {lifetime : Binary64} {store : σ}
    (hstart : World.start capacity lifetime store = .ok w) (hcapacity : 1 ≤ capacity) :
    empty.Tracks (capacity.toNat, lifetime) w := by
  have horderly := World.Orderly.start hstart
  obtain ⟨_,rfl⟩ := World.start_cases hstart
  refine ⟨horderly,rfl,?_,nofun,nofun,nofun,List.Pairwise.nil⟩
  dsimp only
  omega

theorem setStore (ht : h.Tracks limits w) (numbers : Nat) (store : σ) :
    h.Tracks limits { w with numbers, store } :=
  ⟨ht.orderly.setStore numbers store,ht.limits,ht.room,ht.session,ht.expires,ht.turn,ht.ordered⟩

/-- A session that is put in is known as touched last; what stays has other ids, so what is known of
it stays. -/
theorem putting (ht : h.Tracks limits w) (s : Session) :
    ((h.setSession s.id s).touch s.id w.registry.now).Tracks limits
      { w with registry := w.registry.putting s.id s } := by
  have hsub : (w.registry.staying s.id).Sublist w.registry.entries :=
    (Registry.staying_sublist _ _).trans (Registry.live_sublist _)
  have hother : ∀ e ∈ w.registry.staying s.id, e.id ≠ s.id :=
    fun e he => Registry.ne_of_mem_staying he
  refine ⟨ht.orderly.putting ht.room s,ht.limits,ht.room,?_,?_,?_,?_⟩
  · intro e he
    rcases List.mem_append.mp he with he | he
    · rw [session_touch, session_setSession_of_ne h s (hother e he)]
      exact ht.session e (hsub.subset he)
    · rw [List.mem_singleton.mp he, session_touch, session_setSession_self]
  · intro e he
    rcases List.mem_append.mp he with he | he
    · rw [since_touch_of_ne _ _ (hother e he)]
      exact ht.expires e (hsub.subset he)
    · rw [List.mem_singleton.mp he, since_touch_self]
      rfl
  · intro e he
    rcases List.mem_append.mp he with he | he
    · rw [turn_touch_of_ne _ _ (hother e he)]
      exact (ht.turn e (hsub.subset he)).trans (Nat.le_succ _)
    · rw [List.mem_singleton.mp he, turn_touch_self, touches_touch]
  · rw [Registry.putting, List.pairwise_append]
    refine ⟨(ht.ordered.sublist hsub).imp_of_mem ?_,List.pairwise_singleton _ _,?_⟩
    · intro a b ha hb hab
      rwa [turn_touch_of_ne _ _ (hother a ha), turn_touch_of_ne _ _ (hother b hb)]
    · intro a ha b hb
      rw [List.mem_singleton.mp hb, turn_touch_of_ne _ _ (hother a ha), turn_touch_self]
      exact Nat.lt_succ_of_le (ht.turn a (hsub.subset ha))

theorem session_of_find? (ht : h.Tracks limits w) {id : Text} {s : Session}
    (hs : w.registry.find? id = some s) : h.session id = some s := by
  obtain ⟨e,he,hid,hitem⟩ := (Registry.find?_eq_some_iff ht.orderly.registry.distinct).mp hs
  have hsession := ht.session e (Registry.mem_live.mp he).1
  rwa [hid, hitem] at hsession

/-- A session that is used is known as before and touched last. -/
theorem touching (ht : h.Tracks limits w) {id : Text} {s : Session}
    (hs : w.registry.find? id = some s) :
    (h.touch id w.registry.now).Tracks limits { w with registry := w.registry.putting id s } := by
  have hput := ht.putting s
  rwa [ht.orderly.id_of_find? hs, setSession_of_session (ht.session_of_find? hs)] at hput

/-- A session that is replaced is known with what it is now, and the order of touches, which the ids
tell, stays. -/
theorem replacing (ht : h.Tracks limits w) (s : Session) (store : σ) :
    (h.setSession s.id s).Tracks limits
    { w with registry := w.registry.replace s.id s, store } := by
  refine ⟨ht.orderly.replacing s store,ht.limits,ht.room,?_,?_,?_,?_⟩
  · intro e he
    obtain ⟨before,hbefore,rfl⟩ := List.mem_map.mp he
    split_ifs with hid
    · rw [hid, session_setSession_self]
    · rw [session_setSession_of_ne h _ hid]
      exact ht.session before hbefore
  · intro e he
    obtain ⟨before,hbefore,rfl⟩ := List.mem_map.mp he
    have hexpires := ht.expires before hbefore
    split_ifs <;> exact hexpires
  · intro e he
    obtain ⟨before,hbefore,rfl⟩ := List.mem_map.mp he
    have hturn := ht.turn before hbefore
    split_ifs <;> exact hturn
  · rw [Registry.entries_replace, List.pairwise_map]
    refine ht.ordered.imp ?_
    intro a b hab
    rwa [Registry.Entry.replaced_id, Registry.Entry.replaced_id]

/-- Closing a session changes nothing that is known of the others. -/
theorem closing (ht : h.Tracks limits w) (id : Text) :
    h.Tracks limits { w with registry := w.registry.remove id } := by
  have hsub : (w.registry.remove id).entries.Sublist w.registry.entries := List.filter_sublist
  exact ⟨ht.orderly.removing id,ht.limits,ht.room,fun e he => ht.session e (hsub.subset he),
    fun e he => ht.expires e (hsub.subset he),fun e he => ht.turn e (hsub.subset he),
    ht.ordered.sublist hsub⟩

/-- One visit: what it does to the world is noted under the id of the session that it changes. A
command leaves the session its id, so it is put back where it was found. -/
theorem note (ht : h.Tracks limits w) (catalog : Catalog σ) {v : Visit σ} (hv : v.Passes) :
    (h.note catalog w v).Tracks limits (v.perform catalog w).world := by
  cases v with
  | begin expression =>
    rw [Visit.perform, Action.world_bind_pure, History.note, openSession_apply]
    rcases Session.openNumbered catalog expression (w.numbers, w.store)
      with ⟨_ | s,⟨numbers,store⟩,log⟩
    · exact ht.setStore numbers store
    · dsimp only
      rw [Registry.put_eq ht.orderly.registry ht.room]
      exact (ht.putting s).setStore numbers store
  | use id =>
    rw [Visit.perform, Action.world_bind_pure, History.note]
    cases hs : w.registry.find? id with
    | none =>
      rw [useSession_apply, hs]
      exact ht
    | some s =>
      rw [ht.orderly.useSession_of_some hs]
      exact ht.touching hs
  | work id command =>
    cases hs : w.registry.find? id with
    | none =>
      rw [Visit.perform_work_of_none catalog command hs, History.note]
      split
      · rwa [if_neg (World.not_isOpen_of_none hs)]
      · exact ht
    | some s =>
      have hid := command.id_perform catalog s w.store
      rw [ht.orderly.id_of_find? hs] at hid
      have hleft := ht.replacing (command.perform catalog (s, w.store)).world.1
        (command.perform catalog (s, w.store)).world.2
      rw [Visit.perform_work_of_some catalog command hs, world_onSession, History.note,
        ht.session_of_find? hs]
      dsimp only
      rw [if_pos (World.isOpen_of_some hs)]
      rwa [hid] at hleft ⊢
  | close id =>
    rw [Visit.perform, Action.world_bind_pure]
    cases hs : w.registry.find? id with
    | none =>
      rw [closeSession_of_none hs]
      exact ht
    | some s =>
      rw [(closeSession_of_some hs).2]
      exact ht.closing id
  | wait seconds =>
    exact ⟨ht.orderly.wait hv.1 hv.2,ht.limits,ht.room,ht.session,ht.expires,ht.turn,ht.ordered⟩
  | aside x => exact ht.setStore w.numbers (x w.store).world

/-- By induction on the visits: the world is known at every time. -/
theorem after (ht : h.Tracks limits w) (catalog : Catalog σ) {visits : List (Visit σ)}
    (hvisits : ∀ v ∈ visits, v.Passes) :
    (Visit.after catalog visits (w, h)).2.Tracks limits (Visit.after catalog visits (w, h)).1 := by
  induction visits generalizing w h with
  | nil => exact ht
  | cons v rest ih =>
    obtain ⟨hv,hrest⟩ := List.forall_mem_cons.mp hvisits
    exact ih (ht.note catalog hv) hrest

end History.Tracks

end Service

end CategorySelection
