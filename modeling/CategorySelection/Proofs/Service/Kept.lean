import CategorySelection.Proofs.Service.Visits
/-!
Which sessions are open. After any visits the open sessions are found as the history has them, and
the next visit ends exactly those that a rule ends: one is closed, its time is over, or it has to
make room because all others were touched later.
-/

namespace CategorySelection.Service

variable {σ : Type}

theorem World.isOpen_iff {w : World σ} {id : Text} :
    w.IsOpen id ↔ ∃ e ∈ w.registry.live, e.id = id :=
  Registry.isSome_find?_iff.trans List.mem_map

namespace History.Tracks

variable {h : History} {limits : Nat × Binary64} {w : World σ} {id : Text}

/-- The first live entry is the one whose session was touched before all others. -/
theorem head?_eq_iff (ht : h.Tracks limits w) {e : Registry.Entry Binary64 Session}
    (he : e ∈ w.registry.live) :
    w.registry.live.head? = some e ↔
      ∀ other, w.IsOpen other → other ≠ e.id → h.turn e.id < h.turn other := by
  have hordered : w.registry.live.Pairwise fun a b => h.turn a.id < h.turn b.id :=
    ht.ordered.sublist (Registry.live_sublist _)
  simp only [World.isOpen_iff]
  cases hlive : w.registry.live with
  | nil =>
    rw [hlive] at he
    cases he
  | cons first rest =>
    rw [hlive, List.pairwise_cons] at hordered
    rw [List.head?_cons, Option.some_inj]
    constructor
    · rintro rfl other ⟨e',he',rfl⟩ hne
      have hrest : e' ∈ rest := (List.mem_cons.mp he').resolve_left fun heq => hne (congrArg _ heq)
      exact hordered.1 e' hrest
    · intro holdest
      rw [hlive] at he
      by_contra hne
      have hrest : e ∈ rest := (List.mem_cons.mp he).resolve_left fun heq => hne heq.symm
      have hids : first.id ≠ e.id := by
        intro hids
        refine hne (ht.orderly.registry.eq_of_id_eq ?_ ?_ hids)
        · rw [hlive]
          exact List.mem_cons_self
        · rw [hlive]
          exact he
      have hlt := holdest first.id ⟨first,List.mem_cons_self,rfl⟩ hids
      have hgt := hordered.1 e hrest
      omega

/-- A new session takes the place of the one that was touched first, if there is no other place. -/
theorem isOpen_putting_iff (ht : h.Tracks limits w) {s : Session} (id : Text)
    (hfresh : ¬w.IsOpen s.id) :
    World.IsOpen { w with registry := w.registry.putting s.id s } id ↔
      (w.IsOpen id ∧ ¬(w.registry.size = w.registry.capacity ∧
        ∀ other, w.IsOpen other → other ≠ id → h.turn id < h.turn other)) ∨
      (s.id = id ∧ w.registry.now < w.registry.now+w.registry.lifetime) := by
  have hnew : s.id ∉ w.registry.live.map Registry.Entry.id :=
    mt Registry.isSome_find?_iff.mpr hfresh
  have hstay : (∃ e ∈ w.registry.staying s.id, e.id = id) ↔ w.IsOpen id ∧
      ¬(w.registry.size = w.registry.capacity ∧
        ∀ other, w.IsOpen other → other ≠ id → h.turn id < h.turn other) := by
    rw [World.isOpen_iff, ht.orderly.registry.size_eq]
    constructor
    · rintro ⟨e,he,rfl⟩
      have hlive := (Registry.staying_sublist _ _).subset he
      have hout := ((Registry.mem_staying_iff ht.orderly.registry ht.room hlive).mp he).2
      rw [ht.head?_eq_iff hlive] at hout
      exact ⟨⟨e,hlive,rfl⟩,fun hends => hout ⟨hnew,hends⟩⟩
    · rintro ⟨⟨e,hlive,rfl⟩,hout⟩
      refine ⟨e,(Registry.mem_staying_iff ht.orderly.registry ht.room hlive).mpr ⟨?_,?_⟩,rfl⟩
      · exact fun heq => hnew (heq ▸ List.mem_map_of_mem hlive)
      · rw [ht.head?_eq_iff hlive]
        exact fun hends => hout hends.2
  rw [← hstay, World.isOpen_iff]
  simp only [Registry.mem_live_putting]
  constructor
  · rintro ⟨e,he | ⟨rfl,hnow⟩,hid⟩
    · exact Or.inl ⟨e,he,hid⟩
    · exact Or.inr ⟨hid,hnow⟩
  · rintro (⟨e,he,hid⟩ | ⟨hid,hnow⟩)
    · exact ⟨e,Or.inl he,hid⟩
    · exact ⟨_,Or.inr ⟨rfl,hnow⟩,hid⟩

/-- While time passes, a session stays open until its lifetime is over, and none is open again. -/
theorem isOpen_wait_iff (ht : h.Tracks limits w) {seconds : Binary64}
    (hnumber : seconds ≠ .notANumber) (hsign : seconds.isNegative = false) :
    (wait seconds w).world.IsOpen id ↔
      w.IsOpen id ∧ w.registry.now+seconds < h.since id+w.registry.lifetime := by
  obtain ⟨htime,hle⟩ := ht.orderly.time.add hnumber hsign
  have hlater := ht.orderly.time.noLater htime hle
  have hmem : ∀ e, e ∈ (w.registry.advance seconds).live ↔
      e ∈ w.registry.live ∧ w.registry.now+seconds < h.since e.id+w.registry.lifetime := by
    intro e
    rw [Registry.mem_live, Registry.mem_live]
    constructor
    · rintro ⟨he,hlive⟩
      rw [← ht.expires e he]
      exact ⟨⟨he,hlater.2 _ hlive⟩,hlive⟩
    · rintro ⟨⟨he,_⟩,hlive⟩
      rw [← ht.expires e he] at hlive
      exact ⟨he,hlive⟩
  rw [World.isOpen_iff, World.isOpen_iff]
  change (∃ e ∈ (w.registry.advance seconds).live, e.id = id) ↔ _
  simp only [hmem]
  constructor
  · rintro ⟨e,⟨he,hlive⟩,rfl⟩
    exact ⟨⟨e,he,rfl⟩,hlive⟩
  · rintro ⟨⟨e,he,rfl⟩,hlive⟩
    exact ⟨e,⟨he,hlive⟩,rfl⟩

/-- Opening a session ends just the visit that the rules tell. -/
theorem isOpen_begin_iff (ht : h.Tracks limits w) (catalog : Catalog σ) (expression : Text)
    (hfresh : Visit.IsFresh catalog w (.begin expression)) :
    (openSession catalog expression w).world.IsOpen id ↔
      (w.IsOpen id ∧ ¬Visit.Ends catalog w h id (.begin expression)) ∨
        Visit.Opens catalog w id (.begin expression) := by
  rcases ht.orderly.openSession_cases catalog expression with
    ⟨e,hresult,hregistry⟩ | ⟨s,hresult,_,hregistry⟩
  · rw [Visit.Ends, Visit.Opens, hresult, World.IsOpen, hregistry]
    simp [Except.isOk, Except.toBool, World.IsOpen]
  · have hput := ht.isOpen_putting_iff id (hfresh s hresult)
    rw [Visit.Ends, Visit.Opens, hresult, World.IsOpen, hregistry]
    simpa [Except.isOk, Except.toBool, World.IsOpen] using hput

/-- One step: the next visit ends and opens just the sessions that the rules tell. -/
theorem isOpen_perform_iff (ht : h.Tracks limits w) (catalog : Catalog σ) {v : Visit σ}
    (hv : v.Passes) (hfresh : v.IsFresh catalog w) :
    (v.perform catalog w).world.IsOpen id ↔
      (w.IsOpen id ∧ ¬v.Ends catalog w h id) ∨ v.Opens catalog w id := by
  have hkept : ∀ {p : Prop}, (p ↔ w.IsOpen id) → (p ↔ (w.IsOpen id ∧ ¬False) ∨ False) := by
    intro p hp
    rw [hp, not_false_eq_true, and_true, or_false]
  cases v with
  | begin expression =>
    rw [Visit.perform, Action.world_bind_pure]
    exact ht.isOpen_begin_iff catalog expression hfresh
  | use used =>
    rw [Visit.perform, Action.world_bind_pure]
    apply hkept
    cases hs : w.registry.find? used with
    | none => rw [useSession_apply, hs]
    | some s =>
      rw [ht.orderly.useSession_of_some hs, World.IsOpen, World.IsOpen,
        Registry.find?_putting_again ht.orderly.registry ht.room hs]
  | work worked command =>
    apply hkept
    cases hs : w.registry.find? worked with
    | none => rw [Visit.perform_work_of_none catalog command hs]
    | some s =>
      have hid := (command.id_perform catalog s w.store).trans (ht.orderly.id_of_find? hs)
      rw [Visit.perform_work_of_some catalog command hs, world_onSession, hid, World.IsOpen,
        World.IsOpen, Registry.find?_replace]
      split_ifs with heq
      · rw [heq, Option.isSome_map]
      · rfl
  | close closed =>
    change _ ↔ (w.IsOpen id ∧ ¬closed = id) ∨ False
    rw [Visit.perform, Action.world_bind_pure, or_false]
    cases hs : w.registry.find? closed with
    | none =>
      rw [closeSession_of_none hs]
      have hne : w.IsOpen id → ¬closed = id := by
        rintro hopen rfl
        exact World.not_isOpen_of_none hs hopen
      exact (and_iff_left_of_imp hne).symm
    | some s =>
      rw [(closeSession_of_some hs).2, World.IsOpen, World.IsOpen,
        Registry.find?_remove ht.orderly.registry.distinct]
      split_ifs with heq
      · exact iff_of_false Bool.false_ne_true fun hopen => hopen.2 heq.symm
      · exact (and_iff_left (Ne.symm heq)).symm
  | wait seconds =>
    change _ ↔ (w.IsOpen id ∧ ¬¬w.registry.now+seconds < h.since id+w.registry.lifetime) ∨ False
    rw [not_not, or_false]
    exact ht.isOpen_wait_iff hv.1 hv.2
  | aside x => exact hkept Iff.rfl

end History.Tracks

/-- After any visits over any catalog and store, with any fault of these:  * the registry counts the
open sessions, and there are at most as many as it has room for; * an open session is found under
its id, as it was opened and with what commands made of it since; and only an open session is found
or can be closed; * the clock has not reached the time of the last touch of an open session plus the
lifetime of sessions; * the next visit ends exactly the open sessions that it closes, those whose
time it lets run out, and, if it opens a session while there is no room, the one whose last touch is
the oldest; and no session but the one that it opens becomes open. -/
theorem open_sessions_kept (catalog : Catalog σ) {capacity : Int} {lifetime : Binary64} {store : σ}
    {start : World σ} (hstart : World.start capacity lifetime store = .ok start)
    (hcapacity : 1 ≤ capacity) (visits : List (Visit σ)) (hvisits : ∀ v ∈ visits, v.Passes) :
    let reached := Visit.after catalog visits (start, .empty)
    let w := reached.1
    let h := reached.2
    (∃ ids : List Text, ids.Nodup ∧ (∀ id, id ∈ ids ↔ w.IsOpen id) ∧ w.registry.size = ids.length) ∧
    (w.registry.size : Int) ≤ capacity ∧
    (∀ id, (useSession id w).result = .ok (if w.IsOpen id then h.session id else none)) ∧
    (∀ id, w.IsOpen id → (h.session id).map Session.id = some id ∧
      w.registry.now < h.since id+lifetime) ∧
    (∀ id, (closeSession id w).result = .ok (decide (w.IsOpen id))) ∧
    ∀ next : Visit σ, next.Passes → next.IsFresh catalog w → ∀ id,
      ((next.perform catalog w).world.IsOpen id ↔
        (w.IsOpen id ∧ ¬next.Ends catalog w h id) ∨ next.Opens catalog w id) := by
  intro reached w h
  have ht : h.Tracks (capacity.toNat, lifetime) w :=
    (History.Tracks.start hstart hcapacity).after catalog hvisits
  obtain ⟨hroom,hlifetime⟩ := Prod.mk.inj ht.limits
  have hregistry := ht.orderly.registry
  refine ⟨⟨w.registry.live.map Registry.Entry.id,hregistry.distinct_live,?_,?_⟩,?_,?_,?_,?_,?_⟩
  · exact fun id => Registry.isSome_find?_iff.symm
  · rw [hregistry.size_eq, List.length_map]
  · have hle := hregistry.length_live_le
    rw [hregistry.size_eq]
    omega
  · intro id
    cases hs : w.registry.find? id with
    | none => rw [useSession_apply, hs, if_neg (World.not_isOpen_of_none hs)]
    | some s =>
      rw [ht.orderly.useSession_of_some hs, if_pos (World.isOpen_of_some hs),
        ht.session_of_find? hs]
  · intro id hopen
    obtain ⟨s,hs⟩ := Option.isSome_iff_exists.mp hopen
    obtain ⟨e,he,rfl,_⟩ := (Registry.find?_eq_some_iff hregistry.distinct).mp hs
    obtain ⟨hentry,hlive⟩ := Registry.mem_live.mp he
    rw [ht.session_of_find? hs, Option.map_some, ht.orderly.id_of_find? hs, ← hlifetime,
      ← ht.expires e hentry]
    exact ⟨rfl,hlive⟩
  · intro id
    cases hs : w.registry.find? id with
    | none => rw [closeSession_of_none hs, decide_eq_false (World.not_isOpen_of_none hs)]
    | some s => rw [(closeSession_of_some hs).1, decide_eq_true (World.isOpen_of_some hs)]
  · exact fun next hnext hfresh id => ht.isOpen_perform_iff catalog hnext hfresh

/-- A session that was used while another one was not stays when there is no room for a third. -/
theorem open_sessions_kept_full :
    let catalog : Catalog (Assoc Text) := ⟨Store.memory, "k", ["b", "a"]⟩
    let first := Session.numberedId 1
    let second := Session.numberedId 2
    let visits : List (Visit (Assoc Text)) :=
      [.begin "Category=b", .begin [], .wait (.ofInt 4), .use first,
        .work first (.change (.toggle "a" "include"))]
    ∃ start : World (Assoc Text), World.start 2 (.ofInt 10) [] = .ok start ∧
      let reached := Visit.after catalog visits (start, .empty)
      let next := ((Visit.begin "x").perform catalog reached.1).world
      (∀ v ∈ visits, v.Passes) ∧ (Visit.begin "x").IsFresh catalog reached.1 ∧
      (useSession first reached.1).result = .ok (reached.2.session first) ∧
      next.IsOpen first ∧ ¬next.IsOpen second := by
  intro catalog first second visits
  have hstart : World.start 2 (.ofInt 10) ([] : Assoc Text) =
      .ok ⟨⟨2, .ofInt 10, .zero, []⟩, 0, []⟩ := rfl
  refine ⟨_,hstart,?_⟩
  intro reached next
  have hpasses : ∀ v ∈ visits, v.Passes := by
    simp only [visits, List.forall_mem_cons, List.not_mem_nil, IsEmpty.forall_iff, implies_true,
      and_true, Visit.Passes, true_and]
    exact ⟨by decide +kernel,by decide +kernel⟩
  have hfirst : reached.1.IsOpen first := by decide +kernel
  have hsecond : reached.1.IsOpen second := by decide +kernel
  have hfresh : (Visit.begin "x").IsFresh catalog reached.1 := by
    intro s hs
    have hid : (openSession catalog "x" reached.1).result.toOption.map Session.id =
        some (Session.numberedId 3) := by decide +kernel
    rw [hs, Except.toOption, Option.map_some, Option.some_inj] at hid
    rw [hid]
    decide +kernel
  obtain ⟨_,_,hfound,_,_,hnext⟩ := open_sessions_kept catalog hstart (by decide) visits hpasses
  refine ⟨hpasses,hfresh,?_,?_,by decide +kernel⟩
  · rw [hfound first, if_pos hfirst]
  · refine (hnext (.begin "x") trivial hfresh first).mpr (Or.inl ⟨hfirst,?_⟩)
    rintro ⟨_,_,holdest⟩
    have hlt := holdest second hsecond (by decide)
    revert hlt
    decide +kernel

end CategorySelection.Service
