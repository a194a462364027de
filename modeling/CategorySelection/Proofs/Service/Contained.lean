import CategorySelection.Proofs.Catalog.Refinement
import CategorySelection.Proofs.Service.OpenSessions
import CategorySelection.Proofs.Service.Paths
import CategorySelection.Proofs.Session.Command
import CategorySelection.Service
/-!
What answers do. An answer to a request on one session leaves the other ones as they are, and an
answer that refuses the request leaves all sessions and the names of the catalog as they are.
-/

namespace CategorySelection

namespace Session

variable {σ : Type}

/-- Getting a session ready changes the world as loading the catalog does. -/
theorem world_prepare (catalog : Catalog σ) (host : Text) (w : σ) :
    (prepare catalog host w).world = (catalog.load w).world := by
  rw [prepare_apply]
  rcases catalog.load w with ⟨_ | known,w,log⟩
  · rfl
  · dsimp only
    cases Checklist.ofMarks known (Expression.parse host.trim) <;> rfl

/-- Opening a session changes the store as loading the catalog does. -/
theorem world_openNumbered (catalog : Catalog σ) (host : Text) (n : Nat) (w : σ) :
    (openNumbered catalog host (n, w)).world.2 = (catalog.load w).world := by
  rw [← world_prepare catalog host w, openNumbered, Action.bind_apply, Action.onSecond_apply]
  rcases prepare catalog host w with ⟨_ | opening,w,log⟩ <;> rfl

end Session

namespace Service

def IsPlain (id : Text) : Prop := id ≠ [] ∧ CodePoint.ofChar '/' ∉ id

/-- Ids are made of hexadecimal digits, and none of these is a slash. -/
theorem isPlain_numberedId (n : Nat) : IsPlain (Session.numberedId n) := by
  have hdigit : ∀ k, CodePoint.ofHexDigit k ≠ CodePoint.ofChar '/' := by
    intro k heq
    have hval : (if k % 16 < 10 then 0x30+k % 16 else 0x57+k % 16) = 0x2f := congrArg Fin.val heq
    split at hval <;> omega
  have hslash : ∀ width k, CodePoint.ofChar '/' ∉ Text.ofHex width k := by
    intro width
    induction width with
    | zero => exact fun _ => List.not_mem_nil
    | succ width ih =>
      intro k hmem
      rcases List.mem_append.mp hmem with hmem | hmem
      · exact ih _ hmem
      · exact hdigit k (List.mem_singleton.mp hmem).symm
  exact ⟨List.append_ne_nil_of_right_ne_nil _ nofun,hslash 32 n⟩

def Response.IsRefusal (r : Response) : Prop := r.status = 404 ∨ r.status = 409 ∨ r.status = 422

structure World.Ready {σ : Type} (w : World σ) : Prop where
  orderly : w.Orderly
  plain : ∀ e ∈ w.registry.entries, IsPlain e.id

namespace World.Ready

variable {σ : Type} {w : World σ}

theorem setStore (h : w.Ready) (numbers : Nat) (store : σ) :
    World.Ready { w with numbers, store } :=
  ⟨h.orderly.setStore numbers store,h.plain⟩

theorem putting (h : w.Ready) (hc : w.registry.capacity ≠ 0) {s : Session} (hs : IsPlain s.id) :
    World.Ready { w with registry := w.registry.putting s.id s } := by
  refine ⟨h.orderly.putting hc s,?_⟩
  intro e he
  rcases List.mem_append.mp he with he | he
  · exact h.plain e (((Registry.staying_sublist _ _).trans (Registry.live_sublist _)).subset he)
  · rwa [List.mem_singleton.mp he]

theorem replacing (h : w.Ready) (s : Session) (store : σ) :
    World.Ready { w with registry := w.registry.replace s.id s, store } := by
  refine ⟨h.orderly.replacing s store,?_⟩
  intro e he
  obtain ⟨before,hbefore,rfl⟩ := List.mem_map.mp he
  split_ifs <;> exact h.plain before hbefore

theorem of_registry_eq (h : w.Ready) {after : World σ} (heq : after.registry = w.registry) :
    after.Ready := by
  obtain ⟨registry,numbers,store⟩ := after
  subst heq
  exact h.setStore numbers store

theorem removing (h : w.Ready) (id : Text) :
    World.Ready { w with registry := w.registry.remove id } :=
  ⟨h.orderly.removing id,fun e he => h.plain e (List.mem_of_mem_filter he)⟩

theorem isPlain_of_find? (h : w.Ready) {id : Text} {s : Session}
    (hs : w.registry.find? id = some s) :
    IsPlain id := by
  obtain ⟨e,he,rfl,_⟩ := (Registry.find?_eq_some_iff h.orderly.registry.distinct).mp hs
  exact h.plain e (Registry.mem_live.mp he).1

end World.Ready

/-- What an answer to a request on some session, or on none, leaves of a world whose catalog holds a
set of names: a world in order whose catalog holds a set of names, no other session changed or new,
and the same set and sessions after a refusal. -/
structure Contained (catalog : Catalog (Assoc Text)) (on : Option Text) (w : World (Assoc Text))
    (S : Finset Text) (after : Outcome (World (Assoc Text)) Response) (T : Finset Text) : Prop where
  ready : after.world.Ready
  holds : catalog.Holds after.world.store T
  others : ∀ id s, on ≠ some id → after.world.registry.find? id = some s →
    w.registry.find? id = some s
  refused : ∀ response, after.result = .ok response → response.IsRefusal →
    T = S ∧ ∀ id, after.world.registry.find? id = w.registry.find? id

/-- What is done with a session and the store of a catalog without giving the session another name.
What is refused is not done. -/
structure Proper (catalog : Catalog (Assoc Text)) (act : Action (Session × Assoc Text) Response) :
    Prop where
  id : ∀ s table, (act (s, table)).world.1.id = s.id
  holds : ∀ s table S, catalog.Holds table S → ∃ T, catalog.Holds (act (s, table)).world.2 T ∧
    ∀ response, (act (s, table)).result = .ok response → response.IsRefusal →
      T = S ∧ (act (s, table)).world.1 = s

theorem Response.not_isRefusal_of_lt {r : Response} (h : r.status < 300) : ¬r.IsRefusal := by
  rw [IsRefusal]
  omega

theorem Response.not_isRefusal_done (body : Json) : ¬(Response.done body).IsRefusal :=
  not_isRefusal_of_lt (show 200 < 300 by decide)

theorem Response.not_isRefusal_created (body : Json) : ¬(Response.created body).IsRefusal :=
  not_isRefusal_of_lt (show 201 < 300 by decide)

section Opening

variable {σ : Type} {catalog : Catalog σ} {expression : Text} {w : World σ}

/-- Opening a session changes the store as loading the catalog does. -/
theorem store_openSession (catalog : Catalog σ) (expression : Text) (w : World σ) :
    (openSession catalog expression w).world.store = (catalog.load w.store).world := by
  rw [← Session.world_openNumbered catalog expression w.numbers, openSession_apply]
  rcases Session.openNumbered catalog expression (w.numbers, w.store)
    with ⟨_ | s,⟨numbers,store⟩,log⟩
  · rfl
  · dsimp only
    cases w.registry.put s.id s <;> rfl

theorem id_of_openSession {s : Session} (h : (openSession catalog expression w).result = .ok s) :
    s.id = Session.numberedId (w.numbers+1) := by
  rw [openSession_apply] at h
  rcases hopen : Session.openNumbered catalog expression (w.numbers, w.store) with
    ⟨_ | opened,⟨numbers,store⟩,log⟩
  · rw [hopen] at h
    cases h
  · rw [hopen] at h
    dsimp only at h
    obtain ⟨_,_,_,hopened,_⟩ := Session.openNumbered_cases hopen
    have hid : opened.id = Session.numberedId (w.numbers+1) := by rw [hopened]
    cases hput : w.registry.put opened.id opened <;> rw [hput] at h
    · cases h
    · rw [← Except.ok.inj h, hid]

end Opening

section Blocks

variable {catalog : Catalog (Assoc Text)} {on : Option Text} {w : World (Assoc Text)}
    {S : Finset Text}

theorem contained_pure (hw : w.Ready) (hS : catalog.Holds w.store S) (response : Response) :
    Contained catalog on w S ((pure response : Action (World (Assoc Text)) Response) w) S :=
  ⟨hw,hS,fun _ _ _ hs => hs,fun _ _ _ => ⟨rfl,fun _ => rfl⟩⟩

theorem contained_onStore (hw : w.Ready) {x : Action (Assoc Text) Response} {T : Finset Text}
    (hT : catalog.Holds (x w.store).world T)
    (hrefused : ∀ response, (x w.store).result = .ok response → response.IsRefusal → T = S) :
    Contained catalog on w S (onStore x w) T :=
  ⟨hw.setStore w.numbers (x w.store).world,hT,fun _ _ _ hs => hs,
    fun response hr href => ⟨hrefused response hr href,fun _ => rfl⟩⟩

/-- A proper thing done with a session touches that session alone. Using the session puts it in
again, which changes nothing that is found; then it is replaced. -/
theorem contained_withSession (hw : w.Ready) (hS : catalog.Holds w.store S) (id : Text)
    {act : Action (Session × Assoc Text) Response} (hact : Proper catalog act) :
    ∃ T, Contained catalog (some id) w S (withSession id act w) T := by
  cases hs : w.registry.find? id with
  | none =>
    have huse : useSession id w = ⟨.ok none, w, []⟩ := by rw [useSession_apply, hs]
    rw [withSession, Action.bind_of_ok huse]
    exact ⟨S,hw,hS,fun _ _ _ hs => hs,fun _ _ _ => ⟨rfl,fun _ => rfl⟩⟩
  | some s =>
    have hid := hw.orderly.id_of_find? hs
    have hregistry := hw.orderly.registry
    have hc := Registry.capacity_ne_zero hregistry hs
    have hput := hw.putting hc (hid ▸ hw.isPlain_of_find? hs)
    have hkept := hact.id s w.store
    obtain ⟨T,hT,hrefused⟩ := hact.holds s w.store S hS
    rw [withSession, Action.bind_of_ok (hw.orderly.useSession_of_some hs)]
    rw [hid] at hput hkept
    generalize hleft : (act (s, w.store)).world = left at hkept hT hrefused
    have hworld : (onSession s act { w with registry := w.registry.putting id s }).world =
        { w with registry := (w.registry.putting id s).replace id left.1, store := left.2 } := by
      rw [world_onSession, hleft, hkept]
    have hready := hput.replacing left.1 left.2
    rw [hkept] at hready
    have hfind : ∀ other, ((w.registry.putting id s).replace id left.1).find? other =
        if other = id then some left.1 else w.registry.find? other := by
      intro other
      rw [Registry.find?_replace, Registry.find?_putting_again hregistry hc hs,
        Registry.find?_putting_again hregistry hc hs, hs]
      rfl
    dsimp only
    refine ⟨T,hworld ▸ hready,hworld ▸ hT,?_,?_⟩
    · intro other found hne hfound
      dsimp only at hfound
      rw [hworld, hfind, if_neg fun heq => hne (congrArg some heq.symm)] at hfound
      exact hfound
    · intro response hr href
      obtain ⟨hsame,hsession⟩ := hrefused response hr href
      refine ⟨hsame,?_⟩
      intro other
      dsimp only
      rw [hworld, hfind, hsession]
      split_ifs with heq
      · rw [heq, hs]
      · rfl

/-- Opening a session is about the session that is new; another one may have had to go. -/
theorem contained_openSession (hw : w.Ready) (hc : catalog.InMemory) (hS : catalog.Holds w.store S)
    (expression : Text) :
    Contained catalog (some (Session.numberedId (w.numbers+1))) w S
      ((do return .created (Response.session (← openSession catalog expression)) :
        Action (World (Assoc Text)) Response) w) S := by
  have hstore : catalog.Holds (openSession catalog expression w).world.store S := by
    obtain ⟨log,hload⟩ := hS.load hc
    rw [store_openSession, hload]
    exact hS.started hc
  have hnone : ∀ response : Response,
      ((openSession catalog expression w).result.map fun s => .created (Response.session s)) =
        .ok response → ¬response.IsRefusal := by
    intro response hr
    cases hresult : (openSession catalog expression w).result <;> rw [hresult] at hr <;> cases hr
    exact Response.not_isRefusal_created _
  refine ⟨?_,?_,?_,?_⟩
  · rw [Action.world_bind_pure]
    rcases hw.orderly.openSession_cases catalog expression with
      ⟨_,_,hregistry⟩ | ⟨s,hresult,hroom,hregistry⟩
    · exact hw.of_registry_eq hregistry
    · have hid := id_of_openSession hresult
      have hput := hw.putting hroom (s := s) (hid ▸ isPlain_numberedId _)
      exact hput.of_registry_eq hregistry
  · rw [Action.world_bind_pure]
    exact hstore
  · intro other found hne hfound
    rw [Action.world_bind_pure] at hfound
    rcases hw.orderly.openSession_cases catalog expression with
      ⟨_,_,hregistry⟩ | ⟨s,hresult,hroom,hregistry⟩
    · rwa [hregistry] at hfound
    · rw [hregistry] at hfound
      have hother : other ≠ s.id := by
        rw [id_of_openSession hresult]
        exact fun heq => hne (congrArg some heq.symm)
      exact Registry.find?_of_putting hw.orderly.registry hroom hother hfound
  · intro response hr href
    rw [Action.result_bind_pure] at hr
    exact absurd href (hnone response hr)

theorem contained_closeSession (hw : w.Ready) (hS : catalog.Holds w.store S) (id : Text) :
    Contained catalog (some id) w S
      ((do if ← closeSession id then return .ended else return .noSession id :
        Action (World (Assoc Text)) Response) w) S := by
  cases hs : w.registry.find? id with
  | none =>
    rw [Action.bind_of_ok (closeSession_of_none hs)]
    exact contained_pure hw hS _
  | some s =>
    obtain ⟨hresult,hworld⟩ := closeSession_of_some hs
    rcases hclose : closeSession id w with ⟨result,after,log⟩
    rw [hclose] at hresult hworld
    dsimp only at hresult hworld
    subst hresult hworld
    rw [Action.bind_of_ok hclose, if_pos rfl]
    refine ⟨hw.removing id,hS,?_,?_⟩
    · intro other found hne hfound
      change (w.registry.remove id).find? other = some found at hfound
      rw [Registry.find?_remove hw.orderly.registry.distinct] at hfound
      split_ifs at hfound
      exact hfound
    · rintro response hr href
      cases hr
      exact absurd href (Response.not_isRefusal_of_lt (show 204 < 300 by decide))

end Blocks

end Service

end CategorySelection
