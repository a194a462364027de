import CategorySelection.Proofs.Service.Contained
/-!
The calls of the service. What each call does is contained: what it does with a session keeps the
name of this session, and what it refuses it has not begun.
-/

namespace CategorySelection

namespace Session

variable {σ : Type}

/-- Deleting through a session leaves the store that deleting from the catalog leaves. -/
theorem store_deleteCategory (catalog : Catalog σ) (name : Text) (s : Session) (w : σ) :
    (deleteCategory catalog name (s, w)).world.2 = (catalog.delete name w).world := by
  rw [deleteCategory_apply]
  rcases catalog.delete name w with ⟨_ | _,w,log⟩ <;> rfl

end Session

namespace Service

section Acts

variable {catalog : Catalog (Assoc Text)}

theorem proper_showSession : Proper catalog showSession where
  id := fun _ _ => rfl
  holds := by
    intro s table S hS
    exact ⟨S,hS,fun _ _ _ => ⟨rfl,rfl⟩⟩

/-- Doing a thing and showing the session leaves the world that doing it leaves, and is not
refused. -/
theorem andShow_cases {σ : Type} (act : Action (Session × σ) Text) (w : Session × σ) :
    (andShow act w).world = (act w).world ∧
      ∀ response, (andShow act w).result = .ok response → ¬response.IsRefusal := by
  rw [andShow, Action.bind_apply]
  rcases act w with ⟨_ | _,w,log⟩
  · exact ⟨rfl,nofun⟩
  · refine ⟨rfl,?_⟩
    rintro response hr
    cases hr
    exact Response.not_isRefusal_done _

/-- A command that is done and shown is proper if it leaves a set of names in the table. -/
theorem proper_andShow {act : Action (Session × Assoc Text) Text}
    (command : Session.Command (Assoc Text))
    (hact : ∀ s table, (act (s, table)).world = (command.perform catalog (s, table)).world)
    (hholds : ∀ s table S, catalog.Holds table S → ∃ T, catalog.Holds (act (s, table)).world.2 T) :
    Proper catalog (andShow act) where
  id := by
    intro s table
    rw [(andShow_cases act (s, table)).1, hact]
    exact command.id_perform catalog s table
  holds := by
    intro s table S hS
    obtain ⟨hworld,hnone⟩ := andShow_cases act (s, table)
    obtain ⟨T,hT⟩ := hholds s table S hS
    exact ⟨T,hworld ▸ hT,fun response hr href => absurd href (hnone response hr)⟩

theorem proper_clear (name : Text) : Proper catalog (andShow (Session.clear name).onFirst) := by
  refine proper_andShow (.change (.clear name)) ?_ fun s table S hS => ⟨S,hS⟩
  intro s table
  rw [Session.Command.perform, Action.world_bind_pure]
  rfl

/-- Clearing everything and showing the session is proper. -/
theorem proper_clearAll : Proper catalog (andShow Session.clearAll.onFirst) := by
  refine proper_andShow (.change .clearAll) ?_ fun s table S hS => ⟨S,hS⟩
  intro s table
  rw [Session.Command.perform, Action.world_bind_pure]
  rfl

theorem proper_deleteThrough (hc : catalog.InMemory) (name : Text) :
    Proper catalog (andShow (Session.deleteCategory catalog name)) := by
  refine proper_andShow (.delete name) ?_ ?_
  · intro s table
    rw [Session.Command.perform, Action.world_bind_pure]
  · intro s table S hS
    rw [Session.store_deleteCategory]
    exact ⟨S.erase name,(hS.delete hc name).2.1⟩

/-- Restoring through a session is proper. The seeds are saved before anything can fail, so the
table holds them in each case. -/
theorem proper_restoreThrough (hc : catalog.InMemory) :
    Proper catalog (andShow (Session.restore catalog)) := by
  refine proper_andShow .restore ?_ ?_
  · intro s table
    rw [Session.Command.perform, Action.world_bind_pure]
  · intro s table S hS
    obtain ⟨hresult,hholds⟩ := Catalog.Holds.restore hc table
    rw [Session.restore_apply]
    rcases hrestore : catalog.restore table with ⟨_ | _,table',log⟩ <;> rw [hrestore] at hholds
    · exact ⟨_,hholds⟩
    obtain ⟨log',hload⟩ := hholds.load hc
    dsimp only at hload ⊢
    rw [hload]
    dsimp only
    cases Checklist.ofMarks (catalog.seeds.toFinset.sort (· ≤ ·)) s.checklist.selected <;>
      exact ⟨_,hholds.started hc⟩

/-- Switching a category is proper, as the name is checked before a row is put into the
checklist. -/
theorem proper_toggle (id name : Text) (direction : Direction) :
    Proper catalog (toggle id name direction) := by
  have hcases : ∀ (s : Session) (table : Assoc Text),
      (toggle id name direction (s, table)).world.1.id = s.id ∧
      (toggle id name direction (s, table)).world.2 = table ∧
      ∀ response, (toggle id name direction (s, table)).result = .ok response → response.IsRefusal →
        (toggle id name direction (s, table)).world.1 = s := by
    intro s table
    rw [toggle, Action.bind_apply, Action.attempt_apply, Action.onFirst_apply, Session.toggle_apply]
    cases s.checklist.set name direction.mark with
    | ok checklist =>
      refine ⟨rfl,rfl,?_⟩
      rintro response hr href
      cases hr
      exact absurd href (Response.not_isRefusal_done _)
    | error e =>
      dsimp only
      split_ifs <;> exact ⟨rfl,rfl,fun _ _ _ => rfl⟩
  constructor
  · exact fun s table => (hcases s table).1
  · intro s table S hS
    obtain ⟨_,hstore,hrefused⟩ := hcases s table
    refine ⟨S,?_,fun response hr href => ⟨rfl,hrefused response hr href⟩⟩
    rw [hstore]
    exact hS

/-- Adding through a session is proper: what the catalog refuses is not put into the session
either. -/
theorem proper_addThrough (hc : catalog.InMemory) (name : Text) :
    Proper catalog (addThrough catalog name) where
  id := by
    intro s table
    have hid := Session.Command.id_perform catalog (.add name) s table
    rw [Session.Command.perform, Action.world_bind_pure] at hid
    rw [addThrough, Action.bind_apply]
    rcases hadd : Session.addCategory catalog name (s, table) with ⟨_ | _ | _,w,log⟩ <;>
      rw [hadd] at hid <;> exact hid
  holds := by
    intro s table S hS
    rw [addThrough, Action.bind_apply, Session.addCategory_apply]
    rcases hS.add_cases hc name with ⟨table',log,hadd,_,hholds⟩ | ⟨why,table',log,hadd,hholds⟩ <;>
      rw [hadd]
    · dsimp only
      cases s.checklist.add name.trim with
      | error e =>
        refine ⟨_,hholds,?_⟩
        intro response hr
        cases hr
      | ok checklist =>
        refine ⟨_,hholds,?_⟩
        rintro response hr href
        cases hr
        exact absurd href (Response.not_isRefusal_done _)
    · exact ⟨S,hholds,fun _ _ _ => ⟨rfl,rfl⟩⟩

end Acts

section Calls

variable {catalog : Catalog (Assoc Text)} {on : Option Text} {w : World (Assoc Text)}
    {S : Finset Text}

/-- The session that a call is on, if it is on one. The one that opens a session is on the next
one. -/
def Call.session? (next : Text) : Call → Option Text
  | .openSession => some next
  | .showSession id | .closeSession id | .toggle id | .clear id | .clearAll id | .addThrough id
  | .deleteThrough id _ | .restoreThrough id => some id
  | _ => none

def Request.session? {σ : Type} (w : World σ) (r : Request) : Option Text :=
  match Route.find r.method r.path with
  | .call call => call.session? (Session.numberedId (w.numbers+1))
  | _ => none

/-- A request with a body is contained if all that is read from bodies is. -/
theorem contained_withBody {α : Type} (hw : w.Ready) (hS : catalog.Holds w.store S)
    (read : Json → Checked α) (body : Text) {act : α → Action (World (Assoc Text)) Response}
    (hact : ∀ a, ∃ T, Contained catalog on w S (act a w) T) :
    ∃ T, Contained catalog on w S (withBody read body act w) T := by
  rw [withBody]
  cases readBody read body with
  | error e => exact ⟨S,contained_pure hw hS _⟩
  | ok a => exact hact a

/-- Showing the catalog leaves the set of names and is not refused. -/
theorem showCatalog_cases (hc : catalog.InMemory) {table : Assoc Text} (hS : catalog.Holds table S)
    (make : Json → Response) :
    catalog.Holds ((do return make (← showCatalog catalog) : Action (Assoc Text) Response)
      table).world S ∧
      ((do return make (← showCatalog catalog) : Action (Assoc Text) Response) table).result =
        .ok (make (Response.categories (S.sort (· ≤ ·)))) := by
  obtain ⟨log,hload⟩ := hS.load hc
  rw [Action.world_bind_pure, Action.result_bind_pure, showCatalog, Action.world_bind_pure,
    Action.result_bind_pure, hload]
  exact ⟨hS.started hc,rfl⟩

/-- What is done to the catalog and shown touches no session. -/
theorem contained_shown (hc : catalog.InMemory) (hw : w.Ready) {x : Action (Assoc Text) Unit}
    {T : Finset Text} (hT : catalog.Holds (x w.store).world T) :
    Contained catalog on w S (onStore (do x; return .done (← showCatalog catalog)) w) T := by
  rcases hx : x w.store with ⟨_ | _,table,log⟩ <;> rw [hx] at hT
  · apply contained_onStore hw <;> rw [Action.bind_apply, hx]
    · exact hT
    · nofun
  · obtain ⟨hholds,hresult⟩ := showCatalog_cases hc hT Response.done
    apply contained_onStore hw <;> rw [Action.bind_of_ok hx]
    · exact hholds
    · intro response hr href
      dsimp only at hr
      rw [hresult] at hr
      cases hr
      exact absurd href (Response.not_isRefusal_done _)

/-- Adding to the catalog touches no session, and a refusal leaves the set of names. -/
theorem contained_addCategory (hc : catalog.InMemory) (hw : w.Ready) (hS : catalog.Holds w.store S)
    (name : Text) :
    ∃ T, Contained catalog on w S (onStore (addCategory catalog name) w) T := by
  rcases hS.add_cases hc name with ⟨table,log,hadd,_,hholds⟩ | ⟨why,table,log,hadd,hholds⟩
  · obtain ⟨hshown,hdone⟩ := showCatalog_cases hc hholds Response.created
    refine ⟨insert name.trim S,contained_onStore hw ?_ ?_⟩ <;>
      rw [addCategory, Action.bind_of_ok hadd]
    · exact hshown
    · intro response hr href
      dsimp only at hr
      rw [hdone] at hr
      cases hr
      exact absurd href (Response.not_isRefusal_created _)
  · refine ⟨S,contained_onStore hw ?_ fun _ _ _ => rfl⟩
    rw [addCategory, Action.bind_of_ok hadd]
    exact hholds

/-- Reading an expression touches neither a session nor the catalog. -/
theorem contained_parse (hw : w.Ready) (hS : catalog.Holds w.store S) (t : Text) :
    Contained catalog on w S ((do return .done (Response.marks (← Expression.read t)) :
      Action (World (Assoc Text)) Response) w) S :=
  ⟨hw,hS,fun _ _ _ hs => hs,fun _ _ _ => ⟨rfl,fun _ => rfl⟩⟩

/-- An answer to a call is contained to the session that it is on. -/
theorem contained_answerCall (hc : catalog.InMemory) (hw : w.Ready) (hS : catalog.Holds w.store S)
    (body : Text) (call : Call) :
    ∃ T, Contained catalog (call.session? (Session.numberedId (w.numbers+1))) w S
      (answerCall catalog body call w) T := by
  have hpure : ∀ response : Response, ∃ T, Contained catalog none w S
      ((pure response : Action (World (Assoc Text)) Response) w) T :=
    fun response => ⟨S,contained_pure hw hS response⟩
  cases call with
  | tellLive => exact hpure _
  | listCategories =>
    obtain ⟨hshown,hdone⟩ := showCatalog_cases hc hS Response.done
    refine ⟨S,contained_onStore hw hshown fun _ _ _ => rfl⟩
  | addCategory =>
    exact contained_withBody hw hS _ _ fun name => contained_addCategory hc hw hS name
  | deleteCategory name => exact ⟨_,contained_shown hc hw (hS.delete hc name).2.1⟩
  | restoreCategories => exact ⟨_,contained_shown hc hw (Catalog.Holds.restore hc w.store).2⟩
  | parseExpression => exact contained_withBody hw hS _ _ fun t => ⟨S,contained_parse hw hS t⟩
  | writeExpression => exact contained_withBody hw hS _ _ fun marks => hpure _
  | openSession => exact contained_withBody hw hS _ _ fun t => ⟨S,contained_openSession hw hc hS t⟩
  | showSession id => exact contained_withSession hw hS id proper_showSession
  | closeSession id => exact ⟨S,contained_closeSession hw hS id⟩
  | toggle id =>
    exact contained_withBody hw hS _ _ fun (name, direction) =>
      contained_withSession hw hS id (proper_toggle id name direction)
  | clear id =>
    exact contained_withBody hw hS _ _ fun name => contained_withSession hw hS id
      (proper_clear name)
  | clearAll id => exact contained_withSession hw hS id proper_clearAll
  | addThrough id =>
    exact contained_withBody hw hS _ _ fun name =>
      contained_withSession hw hS id (proper_addThrough hc name)
  | deleteThrough id name => exact contained_withSession hw hS id (proper_deleteThrough hc name)
  | restoreThrough id => exact contained_withSession hw hS id (proper_restoreThrough hc)

/-- Every request touches at most the session that it is about, and one that is refused leaves the
set of names. -/
theorem contained_respond (hc : catalog.InMemory) (hw : w.Ready) (hS : catalog.Holds w.store S)
    (r : Request) :
    ∃ T, Contained catalog (r.session? w) w S (respond catalog r w) T := by
  rw [Request.session?, respond]
  cases Route.find r.method r.path with
  | call call => exact contained_answerCall hc hw hS r.body call
  | wrongMethod => exact ⟨S,contained_pure hw hS _⟩
  | moved => exact ⟨S,contained_pure hw hS _⟩
  | nowhere => exact ⟨S,contained_pure hw hS _⟩

/-- An answer leaves the world that the response leaves, and has the status of the response. -/
theorem answer_cases {σ : Type} (catalog : Catalog σ) (r : Request) (w : World σ) :
    (answer catalog r w).world = (respond catalog r w).world ∧
      ∀ response, (answer catalog r w).result = .ok response →
        ∃ sent, (respond catalog r w).result = .ok sent ∧ sent.status = response.status := by
  rw [answer, Action.bind_apply]
  rcases respond catalog r w with ⟨_ | sent,w,log⟩
  · exact ⟨rfl,nofun⟩
  · dsimp only
    rw [Action.bind_apply, Action.ofExcept_apply]
    cases sent.bytes with
    | error e => exact ⟨rfl,nofun⟩
    | ok bytes =>
      refine ⟨rfl,?_⟩
      rintro response hr
      cases hr
      refine ⟨sent,rfl,?_⟩
      split_ifs <;> rfl

/-- Every answer touches at most the session that the request is about. -/
theorem contained_answer (hc : catalog.InMemory) (hw : w.Ready) (hS : catalog.Holds w.store S)
    (r : Request) :
    ∃ T, Contained catalog (r.session? w) w S (answer catalog r w) T := by
  obtain ⟨T,hT⟩ := contained_respond hc hw hS r
  obtain ⟨hworld,hstatus⟩ := answer_cases catalog r w
  refine ⟨T,hworld ▸ hT.ready,hworld ▸ hT.holds,hworld ▸ hT.others,?_⟩
  intro response hr href
  obtain ⟨sent,hsent,hsame⟩ := hstatus response hr
  rw [hworld]
  refine hT.refused sent hsent ?_
  rwa [Response.IsRefusal, hsame]

end Calls

end Service

end CategorySelection
