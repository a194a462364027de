import CategorySelection.Proofs.Catalog.Outages
/-!
Catalogs that do not fail. A catalog deals with every fault of a store that cannot be used for the
moment, and with every text that is not JSON or not an array of strings. It does not deal with a
text that the reader refuses for its size.
-/

namespace CategorySelection

/-- A call that leaves a usable world, and fails only as stores do that cannot be used for the
moment. -/
def Outcome.IsTolerable {σ α : Type} (usable : σ → Prop) (o : Outcome σ α) : Prop :=
  usable o.world ∧ ∀ e, o.result = .error e → e.kind.isUnavailable = true

/-- A store whose calls for a catalog are tolerable, and that gives no text that the reader refuses
for its size. -/
structure Store.Bears {σ : Type} (store : Store σ) (key : Text) (usable : σ → Prop) : Prop where
  get : ∀ w, usable w → (store.get key w).IsTolerable usable
  raw : ∀ w raw, usable w → (store.get key w).result = .ok (some raw) →
    (Catalog.decode raw).isOk = true
  set : ∀ names w, (∀ name ∈ names, Category.isName name = true) → usable w →
    (store.set key (Catalog.encode names) w).IsTolerable usable
  remove : ∀ w, usable w → (store.remove key w).IsTolerable usable

namespace Catalog

variable {σ : Type}

/-- What is done with a catalog: a request, or saving names in its place. -/
inductive Operation
  | request (r : Request)
  | save (names : List Text)
  deriving Repr, DecidableEq

namespace Operation

def isValid : Operation → Bool
  | .request _ => true
  | .save names => names.all Category.isName

def perform (catalog : Catalog σ) : Operation → Action σ Answer
  | .request r => r.perform catalog
  | .save names => do catalog.save names; return .done

/-- Does operations one after another, whatever becomes of each, and gives what they end with and
the world afterwards. -/
def performAll (catalog : Catalog σ) : List Operation → σ → List (Except Fault Answer) × σ
  | [], w => ([], w)
  | operation :: rest, w =>
    let outcome := operation.perform catalog w
    let after := performAll catalog rest outcome.world
    (outcome.result :: after.1, after.2)

end Operation

/-- The names that a catalog makes of what its store gives: the names of categories in an array of
strings, and else the default names. -/
def namesGot (catalog : Catalog σ) : Except Fault (Option Text) → List Text
  | .ok (some raw) =>
    match decode raw with
    | .ok (.names all) => Text.sortedSet (all.filter Category.isName)
    | _ => catalog.defaults
  | _ => catalog.defaults

/-- Whatever is done with a catalog one after the other, everything returns, and loading gives the
saved names, or the default names if there are none that can be read. -/
def Unfailing (catalog : Catalog σ) (w : σ) : Prop :=
  ∀ operations : List Operation, (∀ operation ∈ operations, operation.isValid = true) →
    let after := Operation.performAll catalog operations w
    (∀ result ∈ after.1, result.isOk = true) ∧
      (catalog.load after.2).result =
        .ok (catalog.namesGot (catalog.store.get catalog.key after.2).result)

def AllNamed (names : List Text) : Prop := ∀ name ∈ names, Category.isName name = true

def Returns {α : Type} (usable : σ → Prop) (x : Action σ α) (w : σ) (a : α) : Prop :=
  ∃ w' log, x w = ⟨.ok a,w',log⟩ ∧ usable w'

section Bears

variable {catalog : Catalog σ} {usable : σ → Prop} {w : σ}

theorem allNamed_defaults (hseeds : AllNamed catalog.seeds) : AllNamed catalog.defaults :=
  fun name hname => hseeds name ((Text.mem_sortedSet name _).mp hname)

/-- Whatever the store gives, the catalog makes names of categories of it. -/
theorem allNamed_namesGot (hseeds : AllNamed catalog.seeds) (got : Except Fault (Option Text)) :
    AllNamed (catalog.namesGot got) := by
  rw [namesGot.eq_def]
  split
  · split
    · intro name hname
      exact (List.mem_filter.mp ((Text.mem_sortedSet name _).mp hname)).2
    · exact allNamed_defaults hseeds
  · exact allNamed_defaults hseeds

/-- Whatever the store does, loading that returns gives what the catalog makes of what the store
gives. -/
theorem eq_namesGot_of_load {names : List Text} (h : (catalog.load w).result = .ok names) :
    names = catalog.namesGot (catalog.store.get catalog.key w).result := by
  rcases hget : catalog.store.get catalog.key w with ⟨e | _ | raw,w',log⟩
  · cases he : e.kind.isUnavailable with
    | true =>
      obtain ⟨log',hload⟩ := load_of_unavailable hget he
      rw [hload] at h
      exact (Except.ok.inj h).symm
    | false =>
      rw [load, Action.bind_apply, Action.attempt_apply, hget] at h
      simp only [he, Bool.false_eq_true, ↓reduceIte, Action.fail_apply, reduceCtorEq] at h
  · rw [load, Action.bind_apply, Action.attempt_apply, hget] at h
    dsimp only at h
    rw [Action.bind_apply] at h
    rcases hseed : catalog.seed w' with ⟨_ | _,_,_⟩ <;> rw [hseed] at h
    · cases h
    · exact (Except.ok.inj h).symm
  · cases hd : decode raw with
    | error e =>
      obtain ⟨log',hload⟩ := load_of_refused hget hd
      rw [hload] at h
      cases h
    | ok saved =>
      obtain ⟨log',hload⟩ := load_of_saved hget hd
      rw [hload] at h
      rw [← Except.ok.inj h, namesGot, hd]
      cases saved <;> rfl

theorem allNamed_of_load (hseeds : AllNamed catalog.seeds) {names : List Text}
    (h : (catalog.load w).result = .ok names) : AllNamed names :=
  eq_namesGot_of_load h ▸ allNamed_namesGot hseeds _

theorem save_returns (hs : catalog.store.Bears catalog.key usable) (hw : usable w)
    {names : List Text} (hnames : AllNamed names) : Returns usable (catalog.save names) w () := by
  obtain ⟨husable,hfails⟩ := hs.set names w hnames hw
  rcases hset : catalog.store.set catalog.key (encode names) w with ⟨e | _,w',log⟩ <;>
    rw [hset] at husable hfails
  · obtain ⟨log',hsave⟩ := save_of_unavailable hset (hfails e rfl)
    exact ⟨w',log',hsave,husable⟩
  · exact ⟨w',log,save_of_ok hset,husable⟩

/-- Loading gives what the catalog makes of what its store gives. Where there is nothing the catalog
is started, and saving its seeds returns whether it is done or not. -/
theorem load_returns (hs : catalog.store.Bears catalog.key usable) (hseeds : AllNamed catalog.seeds)
    (hw : usable w) :
    Returns usable catalog.load w (catalog.namesGot (catalog.store.get catalog.key w).result) := by
  obtain ⟨husable,hfails⟩ := hs.get w hw
  have hraw := fun raw => hs.raw w raw hw
  rcases hget : catalog.store.get catalog.key w with ⟨e | got,w',log⟩ <;>
    rw [hget] at husable hfails hraw
  · obtain ⟨log',hload⟩ := load_of_unavailable hget (hfails e rfl)
    exact ⟨w',log',hload,husable⟩
  · cases got with
    | none =>
      obtain ⟨w'',log',hsave,husable'⟩ := save_returns hs husable hseeds
      obtain ⟨log'',hload⟩ := load_of_absent hget hsave
      exact ⟨w'',log'',hload,husable'⟩
    | some raw =>
      have hdecode := hraw raw rfl
      cases hd : decode raw with
      | error e =>
        rw [hd] at hdecode
        cases hdecode
      | ok saved =>
        obtain ⟨log',hload⟩ := load_of_saved hget hd
        have hnames : (catalog.fromSaved saved).1 = catalog.namesGot (.ok (some raw)) := by
          rw [namesGot, hd]
          cases saved <;> rfl
        exact ⟨w',log',hload.trans (by rw [hnames]),husable⟩

theorem restore_returns (hs : catalog.store.Bears catalog.key usable) (hw : usable w) :
    Returns usable catalog.restore w () := by
  obtain ⟨husable,hfails⟩ := hs.remove w hw
  rcases hremove : catalog.store.remove catalog.key w with ⟨e | _,w',log⟩ <;>
    rw [hremove] at husable hfails
  · have hattempt : (catalog.store.remove catalog.key).attempt w = ⟨.ok (.error e),w',log⟩ := by
      rw [Action.attempt_apply, hremove]
    rw [Returns, restore, Action.bind_of_ok hattempt]
    simp only [hfails e rfl, ↓reduceIte]
    exact ⟨_,_,rfl,husable⟩
  · have hattempt : (catalog.store.remove catalog.key).attempt w = ⟨.ok (.ok ()),w',log⟩ := by
      rw [Action.attempt_apply, hremove]
    rw [Returns, restore, Action.bind_of_ok hattempt]
    exact ⟨_,_,rfl,husable⟩

/-- Adding a text returns, with a refusal or without one. -/
theorem add_returns (hs : catalog.store.Bears catalog.key usable) (hseeds : AllNamed catalog.seeds)
    (hw : usable w) (name : Text) : ∃ why, Returns usable (catalog.add name) w why := by
  obtain ⟨w',log,hload,husable⟩ := load_returns hs hseeds hw
  have hnamed := allNamed_namesGot hseeds (catalog.store.get catalog.key w).result
  generalize catalog.namesGot (catalog.store.get catalog.key w).result = names at hload hnamed
  unfold Returns
  rw [Catalog.add, Action.bind_of_ok hload]
  cases hrejection : rejection? name.trim names with
  | some why => exact ⟨_,_,_,rfl,husable⟩
  | none =>
    have hname : Category.isName name.trim = true := by
      rw [rejection?] at hrejection
      split_ifs at hrejection with _ hinvalid
      simpa using hinvalid
    have hmore : AllNamed (names ++ [name.trim]) :=
      List.forall_mem_append.mpr ⟨hnamed,List.forall_mem_singleton.mpr hname⟩
    obtain ⟨w'',log',hsave,husable'⟩ := save_returns hs husable hmore
    simp only [Action.bind_apply, hsave, Action.record_apply, Action.pure_apply]
    exact ⟨_,_,_,rfl,husable'⟩

theorem delete_returns (hs : catalog.store.Bears catalog.key usable)
    (hseeds : AllNamed catalog.seeds) (hw : usable w) (name : Text) :
    Returns usable (catalog.delete name) w () := by
  obtain ⟨w',log,hload,husable⟩ := load_returns hs hseeds hw
  have hnamed := allNamed_namesGot hseeds (catalog.store.get catalog.key w).result
  generalize catalog.namesGot (catalog.store.get catalog.key w).result = names at hload hnamed
  rw [Returns, Catalog.delete, Action.bind_of_ok hload]
  split_ifs
  · have hfewer : AllNamed (names.erase name) :=
      fun other hother => hnamed other (List.mem_of_mem_erase hother)
    obtain ⟨w'',log',hsave,husable'⟩ := save_returns hs husable hfewer
    simp only [Action.bind_apply, hsave, Action.record_apply]
    exact ⟨_,_,rfl,husable'⟩
  · exact ⟨_,_,rfl,husable⟩

theorem Returns.map {α β : Type} {x : Action σ α} {a : α} (h : Returns usable x w a) (f : α → β) :
    Returns usable (x >>= fun a => pure (f a)) w (f a) := by
  obtain ⟨w',log,hx,husable⟩ := h
  exact ⟨w',log ++ [],by rw [Action.bind_of_ok hx]; rfl,husable⟩

/-- Every operation returns. -/
theorem operation_returns (hs : catalog.store.Bears catalog.key usable)
    (hseeds : AllNamed catalog.seeds) (hw : usable w) {operation : Operation}
    (hvalid : operation.isValid = true) :
    ∃ answer, Returns usable (operation.perform catalog) w answer := by
  have hload := load_returns hs hseeds hw
  cases operation with
  | request r =>
    cases r with
    | load => exact ⟨_,hload.map Answer.names⟩
    | has name => exact ⟨_,(hload.map fun all => decide (name ∈ all)).map Answer.truth⟩
    | rejection name => exact ⟨_,(hload.map (rejection? name.trim)).map Answer.verdict⟩
    | tryAdd name =>
      obtain ⟨why,hadd⟩ := add_returns hs hseeds hw name
      exact ⟨_,hadd.map Answer.verdict⟩
    | add name =>
      obtain ⟨why,hadd⟩ := add_returns hs hseeds hw name
      exact ⟨_,hadd.map fun why => Answer.truth why.isNone⟩
    | delete name => exact ⟨_,(delete_returns hs hseeds hw name).map fun _ => Answer.done⟩
    | restore => exact ⟨_,(restore_returns hs hw).map fun _ => Answer.done⟩
  | save names =>
    exact ⟨_,(save_returns hs hw (List.all_eq_true.mp hvalid)).map fun _ => Answer.done⟩

/-- By induction on the operations, each of which leaves a usable world. -/
theorem unfailing_of_bears (hs : catalog.store.Bears catalog.key usable)
    (hseeds : AllNamed catalog.seeds) (hw : usable w) : catalog.Unfailing w := by
  intro operations hvalid
  have hall : (∀ result ∈ (Operation.performAll catalog operations w).1, result.isOk = true) ∧
      usable (Operation.performAll catalog operations w).2 := by
    induction operations generalizing w with
    | nil => exact ⟨List.forall_mem_nil _,hw⟩
    | cons operation rest ih =>
      obtain ⟨hfirst,hrest⟩ := List.forall_mem_cons.mp hvalid
      obtain ⟨answer,w',log,hperform,husable⟩ := operation_returns hs hseeds hw hfirst
      obtain ⟨hresults,hafter⟩ := ih husable hrest
      rw [Operation.performAll, hperform]
      exact ⟨List.forall_mem_cons.mpr ⟨rfl,hresults⟩,hafter⟩
  obtain ⟨w',log,hload,_⟩ := load_returns hs hseeds hall.2
  exact ⟨hall.1,by rw [hload]⟩

end Bears

/-- A table bears a catalog if the text under the key is not refused for its size. -/
theorem bears_memory (key : Text) :
    Store.memory.Bears key fun table => ∀ raw, table.get? key = some raw →
      (decode raw).isOk = true where
  get := fun table h => ⟨h,nofun⟩
  raw := fun table raw h hraw => h raw (Except.ok.inj hraw)
  set := fun names table hnames _ => by
    refine ⟨fun raw hraw => ?_,nofun⟩
    have hput : (table.put key (encode names)).get? key = some raw := hraw
    rw [Assoc.get?_put, if_pos rfl] at hput
    rw [← Option.some_inj.mp hput, decode_encode hnames]
    rfl
  remove := fun table _ => by
    refine ⟨fun raw hraw => ?_,nofun⟩
    have herase : (table.erase key).get? key = some raw := hraw
    rw [Assoc.get?_erase, if_pos rfl] at herase
    cases herase

end Catalog

/-- A store goes on bearing a catalog while calls of it are refused. -/
theorem Store.Bears.withOutage {σ : Type} {store : Store σ} {key : Text} {usable : σ → Prop}
    (h : store.Bears key usable) :
    store.withOutage.Bears key fun w => usable w.1 ∧ w.2.IsTransient := by
  have hguarded {α : Type} {fault : Outage → Option Fault} {x : Action σ α} {w : σ × Outage}
      (hw : usable w.1 ∧ w.2.IsTransient) (hfault : ∀ e, fault w.2 = some e →
        e.kind.isUnavailable = true)
      (hx : (x w.1).IsTolerable usable) :
      (guarded fault x w).IsTolerable fun w => usable w.1 ∧ w.2.IsTransient := by
    cases hcause : fault w.2 with
    | none =>
      rw [guarded_of_none hcause]
      exact ⟨⟨hx.1,hw.2⟩,hx.2⟩
    | some e =>
      rw [guarded_of_some hcause]
      exact ⟨hw,fun other hother => Except.error.inj hother ▸ hfault e hcause⟩
  constructor
  · intro w hw
    exact hguarded hw (fun e he => hw.2 e (by simp [he])) (h.get w.1 hw.1)
  · intro w raw hw hraw
    have hraw : (guarded (·.get) (store.get key) w).result = .ok (some raw) := hraw
    cases hcause : w.2.get with
    | none =>
      rw [guarded_of_none hcause] at hraw
      exact h.raw w.1 raw hw.1 hraw
    | some e =>
      rw [guarded_of_some hcause] at hraw
      cases hraw
  · intro names w hnames hw
    exact hguarded hw (fun e he => hw.2 e (by simp [he])) (h.set names w.1 hnames hw.1)
  · intro w hw
    exact hguarded hw (fun e he => hw.2 e (by simp [he])) (h.remove w.1 hw.1)

end CategorySelection
