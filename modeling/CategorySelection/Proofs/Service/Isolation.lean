import CategorySelection.Proofs.Service.Calls
/-!
Requests are isolated from each other. Sessions share a catalog but each has its own copy of it, so
what is asked of one session shows in no other one, and a request that is refused shows nowhere.
-/

namespace CategorySelection

namespace Service

section Shown

variable {σ : Type} {catalog : Catalog σ}

/-- The bytes that are sent depend on the response alone. -/
theorem result_answer_congr {r : Request} {w after : World σ}
    (h : (respond catalog r after).result = (respond catalog r w).result) :
    (answer catalog r after).result = (answer catalog r w).result := by
  have hresult : ∀ w : World σ, (answer catalog r w).result = do
      let response ← (respond catalog r w).result
      let _ ← response.bytes
      return if r.method = .head then { response with body := none } else response := by
    intro w
    rw [answer, Action.bind_apply]
    rcases respond catalog r w with ⟨_ | sent,w,log⟩
    · rfl
    · dsimp only
      rw [Action.bind_apply, Action.ofExcept_apply]
      cases hbytes : sent.bytes <;> simp [bind, Except.bind, hbytes, pure, Except.pure, Action.pure]
  rw [hresult, hresult, h]

def asking (id : Text) : Request := ⟨.get, sessionPath id, []⟩

theorem result_showSession {w : World σ} (hw : w.Orderly) (id : Text) :
    (withSession id showSession w).result = .ok (match w.registry.find? id with
      | none => .noSession id
      | some s => .done (Response.session s)) := by
  cases hs : w.registry.find? id with
  | none =>
    have huse : useSession id w = ⟨.ok none, w, []⟩ := by rw [useSession_apply, hs]
    rw [withSession, Action.bind_of_ok huse]
    rfl
  | some s =>
    rw [withSession, Action.bind_of_ok (hw.useSession_of_some hs)]
    rfl

theorem result_asking {w : World σ} (hw : w.Ready) {id : Text} {s : Session}
    (hs : w.registry.find? id = some s) :
    (respond catalog (asking id) w).result = .ok (.done (Response.session s)) := by
  obtain ⟨hne,hslash⟩ := hw.isPlain_of_find? hs
  rw [respond, asking, Route.find_sessionPath_of_plain hne hslash]
  refine (result_showSession hw.orderly id).trans ?_
  rw [hs]

/-- What is shown for an id is told by what is found under it, also where its path leads elsewhere
or nowhere. -/
theorem result_asking_congr {w after : World σ} (hw : w.Orderly)
    (hafter : after.Orderly) {id : Text} (h : after.registry.find? id = w.registry.find? id) :
    (answer catalog (asking id) after).result = (answer catalog (asking id) w).result := by
  apply result_answer_congr
  rw [respond, asking]
  cases hfind : Route.find .get (sessionPath id) with
  | call call =>
    rw [Route.find_sessionPath hfind]
    refine (result_showSession hafter id).trans ?_
    rw [h]
    exact (result_showSession hw id).symm
  | wrongMethod => rfl
  | moved => rfl
  | nowhere => rfl

end Shown

/-- What happens to the service: a request, or time passes. -/
inductive Event
  | request (r : Request)
  | wait (seconds : Binary64)

namespace Event

variable {σ : Type}

def perform (catalog : Catalog σ) : Event → Action (World σ) Unit
  | request r => do let _ ← answer catalog r
  | wait seconds => Service.wait seconds

def after (catalog : Catalog σ) : List Event → World σ → World σ
  | [], w => w
  | e :: rest, w => after catalog rest (e.perform catalog w).world

def Passes : Event → Prop
  | wait seconds => seconds ≠ .notANumber ∧ seconds.isNegative = false
  | _ => True

-- one step, which may end with a fault: the world stays ready, and its catalog holds a set of names
/-- Each event leaves a world ready and the table with a set of names. -/
theorem ready_perform {catalog : Catalog (Assoc Text)} (hc : catalog.InMemory)
    {w : World (Assoc Text)} (hw : w.Ready) {S : Finset Text} (hS : catalog.Holds w.store S)
    {e : Event} (he : e.Passes) :
    (e.perform catalog w).world.Ready ∧ ∃ T, catalog.Holds (e.perform catalog w).world.store T := by
  cases e with
  | request r =>
    obtain ⟨T,hT⟩ := contained_answer hc hw hS r
    rw [perform, Action.world_bind_pure]
    exact ⟨hT.ready,T,hT.holds⟩
  | wait seconds => exact ⟨⟨hw.orderly.wait he.1 he.2,hw.plain⟩,S,hS⟩

/-- By induction on the events: the world stays ready, and the set of names that the catalog holds
changes with each of them. -/
theorem ready_after {catalog : Catalog (Assoc Text)} (hc : catalog.InMemory) {events : List Event}
    (hevents : ∀ e ∈ events, e.Passes) {w : World (Assoc Text)} (hw : w.Ready) {S : Finset Text}
    (hS : catalog.Holds w.store S) :
    (after catalog events w).Ready ∧ ∃ T, catalog.Holds (after catalog events w).store T := by
  induction events generalizing w S with
  | nil => exact ⟨hw,S,hS⟩
  | cons e rest ih =>
    obtain ⟨he,hrest⟩ := List.forall_mem_cons.mp hevents
    obtain ⟨hready,T,hT⟩ := ready_perform hc hw hS he
    exact ih hrest hready hT

end Event

/-- Over a catalog whose table never fails, after any requests and at any times: an open session is
shown when it is asked for; a request that is not on this session leaves it as it is shown, if it
stays open; and a request that is refused because of what it asks for, because there is no such
thing or because it conflicts with the catalog closes and opens no session, and leaves all of them
and the list of the catalog as they are shown. -/
theorem requests_isolated (key : Text) (seeds : List Text) (s table : Assoc Text)
    (catalog : Catalog (Assoc Text))
    (hmake : (Catalog.make Store.memory key seeds s).result = .ok catalog)
    (hread : ∀ raw, table.get? key = some raw → ∃ saved, Catalog.decode raw = .ok saved)
    {capacity : Int} {lifetime : Binary64} {start : World (Assoc Text)}
    (hstart : World.start capacity lifetime table = .ok start)
    (events : List Event) (hevents : ∀ e ∈ events, e.Passes) (r : Request) :
    let w := Event.after catalog events start
    let next := (answer catalog r w).world
    let shown := fun (id : Text) (w : World (Assoc Text)) => (answer catalog (asking id) w).result
    let listed := fun (w : World (Assoc Text)) =>
      (answer catalog ⟨.get, "/api/categories", []⟩ w).result
    (∀ id s, w.registry.find? id = some s →
      (respond catalog (asking id) w).result = .ok (.done (Response.session s))) ∧
    (∀ id, w.IsOpen id → next.IsOpen id → r.session? w ≠ some id → shown id next = shown id w) ∧
    ∀ response, (answer catalog r w).result = .ok response → response.IsRefusal →
      (∀ id, next.IsOpen id ↔ w.IsOpen id) ∧ (∀ id, shown id next = shown id w) ∧
        listed next = listed w := by
  intro w next shown listed
  rw [Catalog.make_apply, Except.ok.injEq] at hmake
  have hc : catalog.InMemory := hmake ▸ Catalog.inMemory_make key seeds
  have hkey : catalog.key = key := by rw [← hmake]
  rw [← hkey] at hread
  obtain ⟨S₀,hS₀⟩ := hc.exists_holds hread
  have hfirst : start.Ready := ⟨.start hstart,by obtain ⟨_,rfl⟩ := World.start_cases hstart; nofun⟩
  have hstore : catalog.Holds start.store S₀ := by
    obtain ⟨_,rfl⟩ := World.start_cases hstart
    exact hS₀
  obtain ⟨hw,S,hS⟩ := Event.ready_after hc hevents hfirst hstore
  obtain ⟨T,hT⟩ := contained_answer hc hw hS r
  refine ⟨fun id s hs => result_asking hw hs,?_,?_⟩
  · intro id hopen hstays hne
    obtain ⟨found,hfound⟩ := Option.isSome_iff_exists.mp hstays
    have hbefore := hT.others id found hne hfound
    exact result_asking_congr hw.orderly hT.ready.orderly (hfound.trans hbefore.symm)
  · intro response hr href
    obtain ⟨hsame,hfind⟩ := hT.refused response hr href
    refine ⟨fun id => ?_,fun id => result_asking_congr hw.orderly hT.ready.orderly (hfind id),?_⟩
    · rw [World.IsOpen, World.IsOpen, hfind]
    · apply result_answer_congr
      have hlisted : ∀ {w : World (Assoc Text)}, catalog.Holds w.store S →
          (respond catalog ⟨.get, "/api/categories", []⟩ w).result =
            .ok (.done (Response.categories (S.sort (· ≤ ·)))) := by
        intro w hw
        exact (showCatalog_cases hc hw Response.done).2
      rw [hlisted hS, hlisted (hsame ▸ hT.holds)]

/-- What is done with one session does not show in another one, and what cannot be done does not
show in the session itself. -/
theorem requests_isolated_toggle :
    let catalog : Catalog (Assoc Text) := ⟨Store.memory, "k", ["b", "a"]⟩
    let first := Session.numberedId 1
    let second := Session.numberedId 2
    let opening : Event := .request ⟨.post, "/api/sessions", "\x7b\x7d"⟩
    let toggle (name : Text) : Request :=
      ⟨.post, sessionPath first ++ "/toggle",
        "\x7b\"direction\":\"include\",\"name\":\"" ++ name ++ "\"\x7d"⟩
    ∃ start : World (Assoc Text), World.start 2 (.ofInt 10) [] = .ok start ∧
      let w := Event.after catalog [opening, opening, .wait (.ofInt 4)] start
      let next := fun name => (answer catalog (toggle name) w).world
      let shown := fun (id : Text) (w : World (Assoc Text)) => (answer catalog (asking id) w).result
      w.IsOpen first ∧ shown second (next "a") = shown second w ∧
        shown first (next "?") = shown first w := by
  intro catalog first second opening toggle
  have hstart : World.start 2 (.ofInt 10) ([] : Assoc Text) =
      .ok ⟨⟨2, .ofInt 10, .zero, []⟩, 0, []⟩ := rfl
  refine ⟨_,hstart,?_⟩
  intro w next shown
  have hpasses : ∀ e ∈ [opening, opening, .wait (.ofInt 4)], e.Passes := by
    simp only [opening, List.forall_mem_cons, List.not_mem_nil, IsEmpty.forall_iff, implies_true,
      and_true, Event.Passes, true_and]
    exact ⟨by decide +kernel,by decide +kernel⟩
  have hisolated := requests_isolated "k" ["b", "a"] [] [] catalog rfl nofun hstart _ hpasses
  have hsecond : w.IsOpen second := by decide +kernel
  have hstays : (next "a").IsOpen second := by decide +kernel
  have hother : (toggle "a").session? w ≠ some second := by decide +kernel
  have hstatus : (answer catalog (toggle "?") w).result.toOption.map Response.status =
      some 422 := by
    decide +kernel
  refine ⟨by decide +kernel,(hisolated (toggle "a")).2.1 second hsecond hstays hother,?_⟩
  cases hresult : (answer catalog (toggle "?") w).result with
  | error e =>
    rw [hresult] at hstatus
    cases hstatus
  | ok response =>
    rw [hresult] at hstatus
    have href : response.IsRefusal := Or.inr (Or.inr (Option.some.inj hstatus))
    exact ((hisolated (toggle "?")).2.2 response hresult href).2.1 first

end Service

end CategorySelection
