import CategorySelection.Proofs.Catalog.Saved
import Mathlib.Data.Finset.Sort
/-!
A catalog is a set of names. Over a store that never fails, whatever the store holds at first, every
request is answered as by a machine that keeps the set itself, and a request that has nothing to
change in the set has no effect on what is saved.
-/

namespace CategorySelection

theorem Text.sortedSet_eq_sort (ts : List Text) : Text.sortedSet ts = ts.toFinset.sort (· ≤ ·) := by
  apply (Text.sortedSet_sortedLT ts).eq_of_mem_iff (Finset.sortedLT_sort _)
  intro t
  rw [Text.mem_sortedSet, Finset.mem_sort, List.mem_toFinset]

def Text.inOrder (S : Finset Text) : List Text := S.sort (· ≤ ·)

namespace Catalog

variable {σ : Type}

/-- What a catalog is asked for or told to do. A name can be added with the reason for a refusal
given or without. -/
inductive Request
  | load
  | has (name : Text)
  | rejection (name : Text)
  | tryAdd (name : Text)
  | add (name : Text)
  | delete (name : Text)
  | restore
  deriving Repr, DecidableEq

inductive Answer
  | names (all : List Text)
  | truth (b : Bool)
  | verdict (why : Option Rejection)
  | done
  deriving Repr, DecidableEq

namespace Request

def perform (catalog : Catalog σ) : Request → Action σ Answer
  | .load => do return .names (← catalog.load)
  | .has name => do return .truth (← catalog.has name)
  | .rejection name => do return .verdict (← catalog.rejection name)
  | .tryAdd name => do return .verdict (← catalog.add name)
  | .add name => do return .truth (← catalog.add name).isNone
  | .delete name => do catalog.delete name; return .done
  | .restore => do catalog.restore; return .done

def answers (catalog : Catalog σ) : List Request → σ → List (Except Fault Answer)
  | [], _ => []
  | r :: rest, w => (r.perform catalog w).result :: answers catalog rest (r.perform catalog w).world

def after (catalog : Catalog σ) : List Request → σ → σ
  | [], w => w
  | r :: rest, w => after catalog rest (r.perform catalog w).world

def refusal (S : Finset Text) (name : Text) : Option Rejection :=
  if name = [] then some .empty
  else if Category.isName name = false then some (.invalid name)
  else if name ∈ S then some (.present name)
  else none

def answerOf (S : Finset Text) : Request → Answer
  | .load => .names (S.sort (· ≤ ·))
  | .has name => .truth (decide (name ∈ S))
  | .rejection name => .verdict (refusal S name.trim)
  | .tryAdd name => .verdict (refusal S name.trim)
  | .add name => .truth (decide (Category.isName name.trim = true ∧ name.trim ∉ S))
  | .delete _ => .done
  | .restore => .done

def next (seeds S : Finset Text) : Request → Finset Text
  | .load | .has _ | .rejection _ => S
  | .tryAdd name | .add name =>
    if Category.isName name.trim = true ∧ name.trim ∉ S then insert name.trim S else S
  | .delete name => S.erase name
  | .restore => seeds

def machineAnswers (seeds : Finset Text) : List Request → Finset Text → List Answer
  | [], _ => []
  | r :: rest, S => r.answerOf S :: machineAnswers seeds rest (r.next seeds S)

def machineAfter (seeds : Finset Text) : List Request → Finset Text → Finset Text
  | [], S => S
  | r :: rest, S => machineAfter seeds rest (r.next seeds S)

def isIdle (S : Finset Text) : Request → Prop
  | .load | .has _ | .rejection _ => True
  | .tryAdd name | .add name => ¬(Category.isName name.trim = true ∧ name.trim ∉ S)
  | .delete name => name ∉ S
  | .restore => False

/-- A text is not refused just if it is the name of a category that is not in the set. -/
theorem refusal_eq_none_iff (S : Finset Text) (name : Text) :
    refusal S name = none ↔ Category.isName name = true ∧ name ∉ S := by
  rw [refusal]
  split_ifs with he hn hm
  · simp [he, Category.isName]
  · simp [hn]
  · simp [hm]
  · simp [hm, hn]

end Request

/-- The catalog refuses a text just as the machine of a set does. -/
theorem rejection?_sort (S : Finset Text) (name : Text) :
    rejection? name (S.sort (· ≤ ·)) = Request.refusal S name := by
  rw [rejection?, Request.refusal]
  simp only [List.isEmpty_iff, Bool.not_eq_true', Finset.mem_sort]

theorem toFinset_sort_append (S : Finset Text) (name : Text) :
    (S.sort (· ≤ ·) ++ [name]).toFinset = insert name S := by
  ext other
  simp

theorem toFinset_sort_erase (S : Finset Text) (name : Text) :
    ((S.sort (· ≤ ·)).erase name).toFinset = S.erase name := by
  ext other
  rw [List.mem_toFinset, (Finset.sort_nodup S _).mem_erase_iff, Finset.mem_sort, Finset.mem_erase]

/-- The set of names that a table holds for a catalog: what it is loaded as, or the seeds. -/
structure Holds (catalog : Catalog (Assoc Text)) (table : Assoc Text) (S : Finset Text) : Prop where
  named : ∀ name ∈ S, Category.isName name = true
  absent : table.get? catalog.key = none → S = catalog.seeds.toFinset
  saved : ∀ raw, table.get? catalog.key = some raw →
    ∃ saved, decode raw = .ok saved ∧ (catalog.fromSaved saved).1 = S.sort (· ≤ ·)

section Memory

variable {catalog : Catalog (Assoc Text)} {table : Assoc Text} {S : Finset Text}

/-- Whatever was saved, the names that are taken from it are names of categories in increasing
order. -/
theorem InMemory.fromSaved_eq_sort (hc : catalog.InMemory) (saved : Saved) :
    ∃ S : Finset Text, (∀ name ∈ S, Category.isName name = true) ∧
      (catalog.fromSaved saved).1 = S.sort (· ≤ ·) := by
  have hnamed (ts : List Text) (ht : ∀ t ∈ ts, Category.isName t = true) :
      ∃ S : Finset Text, (∀ name ∈ S, Category.isName name = true) ∧
        Text.sortedSet ts = S.sort (· ≤ ·) :=
    ⟨ts.toFinset,fun name h => ht name (List.mem_toFinset.mp h),Text.sortedSet_eq_sort ts⟩
  cases saved with
  | names all => exact hnamed _ fun name h => (List.mem_filter.mp h).2
  | notJson fault => exact hnamed _ hc.named
  | notTexts found => exact hnamed _ hc.named

theorem InMemory.exists_holds (hc : catalog.InMemory)
    (h : ∀ raw, table.get? catalog.key = some raw → ∃ saved, decode raw = .ok saved) :
    ∃ S, Holds catalog table S := by
  cases hget : table.get? catalog.key with
  | none =>
    refine ⟨catalog.seeds.toFinset,?_,fun _ => rfl,fun raw hraw => ?_⟩
    · exact fun name hname => hc.named name (List.mem_toFinset.mp hname)
    · rw [hget] at hraw
      cases hraw
  | some raw =>
    obtain ⟨saved,hd⟩ := h raw hget
    obtain ⟨S,hnamed,hS⟩ := hc.fromSaved_eq_sort saved
    refine ⟨S,hnamed,fun hnone => ?_,fun raw' hraw => ?_⟩
    · rw [hget] at hnone
      cases hnone
    · rw [hget, Option.some_inj] at hraw
      exact ⟨saved,hraw ▸ hd,hS⟩

/-- Saving names makes a table hold them. -/
theorem holds_put {names : List Text} (hn : ∀ name ∈ names, Category.isName name = true) :
    Holds catalog (table.put catalog.key (encode names)) names.toFinset := by
  have hget : Assoc.get? catalog.key (table.put catalog.key (encode names)) =
      some (encode names) := by
    rw [Assoc.get?_put, if_pos rfl]
  refine ⟨fun name h => hn name (List.mem_toFinset.mp h),fun hnone => ?_,fun raw hraw => ?_⟩
  · rw [hget] at hnone
    cases hnone
  · rw [hget, Option.some_inj] at hraw
    refine ⟨_,hraw ▸ decode_encode hn,?_⟩
    have hkept : (Text.sortedSet names).filter Category.isName = Text.sortedSet names :=
      List.filter_eq_self.mpr fun name h => hn name ((Text.mem_sortedSet name names).mp h)
    rw [fromSaved, hkept, Text.sortedSet_eq_self (Text.sortedSet_sortedLT names),
      Text.sortedSet_eq_sort]

theorem Holds.started (h : Holds catalog table S) (hc : catalog.InMemory) :
    Holds catalog (catalog.started table) S := by
  rw [Catalog.started]
  cases hget : table.get? catalog.key with
  | none =>
    rw [h.absent hget]
    exact holds_put hc.named
  | some raw => exact h

/-- Loading gives the set in increasing order and starts a catalog that is not there. -/
theorem Holds.load (h : Holds catalog table S) (hc : catalog.InMemory) :
    ∃ log, catalog.load table = ⟨.ok (S.sort (· ≤ ·)), catalog.started table, log⟩ := by
  cases hget : table.get? catalog.key with
  | none =>
    rw [h.absent hget, ← Text.sortedSet_eq_sort]
    exact hc.load_absent hget
  | some raw =>
    obtain ⟨saved,hd,hS⟩ := h.saved raw hget
    rw [← hS]
    exact hc.load_saved hget hd

/-- Adding ends as the machine tells and leaves the set that it tells. A refusal writes nothing; a
new name is appended out of order, and saving puts it into its place. -/
theorem Holds.add (h : Holds catalog table S) (hc : catalog.InMemory) (name : Text) :
    (catalog.add name table).result = .ok (Request.refusal S name.trim) ∧
      Holds catalog (catalog.add name table).world
        (if Category.isName name.trim = true ∧ name.trim ∉ S then insert name.trim S else S) ∧
      (¬(Category.isName name.trim = true ∧ name.trim ∉ S) →
        (catalog.add name table).world = catalog.started table) := by
  obtain ⟨log,hload⟩ := h.load hc
  have hiff := Request.refusal_eq_none_iff S name.trim
  rw [Catalog.add, Action.bind_of_ok hload, rejection?_sort]
  cases hrefusal : Request.refusal S name.trim with
  | some why =>
    rw [hrefusal] at hiff
    have hbad : ¬(Category.isName name.trim = true ∧ name.trim ∉ S) :=
      fun hgood => nomatch hiff.mpr hgood
    rw [if_neg hbad]
    exact ⟨rfl,h.started hc,fun _ => rfl⟩
  | none =>
    have hgood := hiff.mp hrefusal
    have hnamed : ∀ other ∈ S.sort (· ≤ ·) ++ [name.trim], Category.isName other = true := by
      intro other ho
      rcases List.mem_append.mp ho with ho | ho
      · exact h.named other ((Finset.mem_sort _).mp ho)
      · rw [List.mem_singleton.mp ho]
        exact hgood.1
    rw [if_pos hgood, ← toFinset_sort_append]
    simp only [Action.bind_apply, hc.save_apply, Action.record_apply, Action.pure_apply]
    exact ⟨trivial,holds_put hnamed,fun hbad => absurd hgood hbad⟩

/-- A name is added to the set, or it is refused and the set stays. -/
theorem Holds.add_cases (h : Holds catalog table S) (hc : catalog.InMemory) (name : Text) :
    (∃ table' log, catalog.add name table = ⟨.ok none, table', log⟩ ∧
      Category.isName name.trim = true ∧ Holds catalog table' (insert name.trim S)) ∨
    ∃ why table' log, catalog.add name table = ⟨.ok (some why), table', log⟩ ∧
      Holds catalog table' S := by
  obtain ⟨hresult,hholds,_⟩ := h.add hc name
  have hiff := Request.refusal_eq_none_iff S name.trim
  rcases hadd : catalog.add name table with ⟨result,table',log⟩
  rw [hadd] at hresult hholds
  obtain rfl : result = _ := hresult
  cases hrefusal : Request.refusal S name.trim with
  | none =>
    have hgood := hiff.mp hrefusal
    rw [if_pos hgood] at hholds
    exact Or.inl ⟨table',log,rfl,hgood.1,hholds⟩
  | some why =>
    rw [hrefusal] at hiff
    have hbad : ¬(Category.isName name.trim = true ∧ name.trim ∉ S) :=
      fun hgood => nomatch hiff.mpr hgood
    rw [if_neg hbad] at hholds
    exact Or.inr ⟨why,table',log,rfl,hholds⟩

theorem Holds.delete (h : Holds catalog table S) (hc : catalog.InMemory) (name : Text) :
    (catalog.delete name table).result = .ok () ∧
      Holds catalog (catalog.delete name table).world (S.erase name) ∧
      (name ∉ S → (catalog.delete name table).world = catalog.started table) := by
  obtain ⟨log,hload⟩ := h.load hc
  rw [Catalog.delete, Action.bind_of_ok hload]
  by_cases hm : name ∈ S
  · have hnamed : ∀ other ∈ (S.sort (· ≤ ·)).erase name, Category.isName other = true :=
      fun other ho => h.named other ((Finset.mem_sort _).mp (List.mem_of_mem_erase ho))
    rw [if_pos ((Finset.mem_sort _).mpr hm), ← toFinset_sort_erase]
    simp only [Action.bind_apply, hc.save_apply, Action.record_apply]
    exact ⟨trivial,holds_put hnamed,fun hn => absurd hm hn⟩
  · rw [if_neg (fun hs => hm ((Finset.mem_sort _).mp hs)), Finset.erase_eq_of_notMem hm]
    exact ⟨rfl,h.started hc,fun _ => rfl⟩

theorem Holds.restore (hc : catalog.InMemory) (table : Assoc Text) :
    (catalog.restore table).result = .ok () ∧
      Holds catalog (catalog.restore table).world catalog.seeds.toFinset := by
  obtain ⟨log,hrestore⟩ := hc.restore_apply table
  have hget : Assoc.get? catalog.key (table.erase catalog.key) = none := by
    rw [Assoc.get?_erase, if_pos rfl]
  rw [hrestore]
  refine ⟨rfl,fun name h => hc.named name (List.mem_toFinset.mp h),fun _ => rfl,fun raw hraw => ?_⟩
  rw [hget] at hraw
  cases hraw

/-- One step: a request is answered as by the machine, the sets stay the same, and a request that
has nothing to change only starts a catalog that is not there. -/
theorem Holds.perform (h : Holds catalog table S) (hc : catalog.InMemory) (r : Request) :
    (r.perform catalog table).result = .ok (r.answerOf S) ∧
      Holds catalog (r.perform catalog table).world (r.next catalog.seeds.toFinset S) ∧
      (r.isIdle S → (r.perform catalog table).world = catalog.started table) := by
  obtain ⟨log,hload⟩ := h.load hc
  have hstarted := h.started hc
  cases r with
  | load =>
    rw [Request.perform, Action.result_bind_pure, Action.world_bind_pure, hload]
    exact ⟨rfl,hstarted,fun _ => rfl⟩
  | has name =>
    have hhas : (catalog.has name table).result = .ok (decide (name ∈ S)) ∧
        (catalog.has name table).world = catalog.started table := by
      rw [has, Action.result_bind_pure, Action.world_bind_pure, hload]
      exact ⟨congrArg Except.ok (decide_eq_decide.mpr (Finset.mem_sort _)),rfl⟩
    rw [Request.perform, Action.result_bind_pure, Action.world_bind_pure, hhas.1, hhas.2]
    exact ⟨rfl,hstarted,fun _ => rfl⟩
  | rejection name =>
    have hrejection : (catalog.rejection name table).result = .ok (Request.refusal S name.trim) ∧
        (catalog.rejection name table).world = catalog.started table := by
      rw [rejection, Action.result_bind_pure, Action.world_bind_pure, hload, ← rejection?_sort]
      exact ⟨rfl,rfl⟩
    rw [Request.perform, Action.result_bind_pure, Action.world_bind_pure, hrejection.1,
      hrejection.2]
    exact ⟨rfl,hstarted,fun _ => rfl⟩
  | tryAdd name =>
    obtain ⟨hresult,hholds,hidle⟩ := h.add hc name
    rw [Request.perform, Action.result_bind_pure, Action.world_bind_pure, hresult]
    exact ⟨rfl,hholds,hidle⟩
  | add name =>
    obtain ⟨hresult,hholds,hidle⟩ := h.add hc name
    have hanswer : (Request.refusal S name.trim).isNone =
        decide (Category.isName name.trim = true ∧ name.trim ∉ S) := by
      rw [Bool.eq_iff_iff, Option.isNone_iff_eq_none, Request.refusal_eq_none_iff,
        decide_eq_true_eq]
    rw [Request.perform, Action.result_bind_pure, Action.world_bind_pure, hresult, Request.answerOf,
      ← hanswer]
    exact ⟨rfl,hholds,hidle⟩
  | delete name =>
    obtain ⟨hresult,hholds,hidle⟩ := h.delete hc name
    rw [Request.perform, Action.result_bind_pure, Action.world_bind_pure, hresult]
    exact ⟨rfl,hholds,hidle⟩
  | restore =>
    obtain ⟨hresult,hholds⟩ := Holds.restore hc table
    rw [Request.perform, Action.result_bind_pure, Action.world_bind_pure, hresult]
    exact ⟨rfl,hholds,False.elim⟩

/-- A whole run: the answers are those of the machine, and the sets are the same at its end. -/
theorem Holds.run (h : Holds catalog table S) (hc : catalog.InMemory) (requests : List Request) :
    Request.answers catalog requests table =
        (Request.machineAnswers catalog.seeds.toFinset requests S).map .ok ∧
      Holds catalog (Request.after catalog requests table)
        (Request.machineAfter catalog.seeds.toFinset requests S) := by
  induction requests generalizing table S with
  | nil => exact ⟨rfl,h⟩
  | cons r rest ih =>
    obtain ⟨hanswer,hnext,_⟩ := h.perform hc r
    obtain ⟨hanswers,hend⟩ := ih hnext
    refine ⟨?_,hend⟩
    rw [Request.answers, Request.machineAnswers, List.map_cons, hanswer, hanswers]

end Memory

/-- A catalog over a store that never fails is a set of names, whatever the store holds at first
that can be read as JSON or refused as malformed. With the set that it is first loaded as, every
request is answered as by the machine of that set; adding a name answers what asking for the reason
against it would have answered just before; and a request that has nothing to change in the set
leaves what is saved as it is, unless the catalog is not there, which is then started with its
seeds. -/
theorem answers_as_set (key : Text) (seeds : List Text) (s table : Assoc Text)
    (catalog : Catalog (Assoc Text))
    (hmake : (make Store.memory key seeds s).result = .ok catalog)
    (hread : ∀ raw, table.get? key = some raw → ∃ saved, decode raw = .ok saved) :
    ∃ S : Finset Text, (catalog.load table).result = .ok (S.sort (· ≤ ·)) ∧
      ∀ requests : List Request,
        let seedSet := (seeds.filter Category.isName).toFinset
        let reached := Request.after catalog requests table
        let T := Request.machineAfter seedSet requests S
        Request.answers catalog requests table =
            (Request.machineAnswers seedSet requests S).map .ok ∧
          (∀ name, ((Request.tryAdd name).perform catalog reached).result =
            ((Request.rejection name).perform catalog reached).result) ∧
          ∀ r : Request, r.isIdle T →
            (r.perform catalog reached).world =
              match reached.get? key with
              | none => reached.put key (encode (seeds.filter Category.isName))
              | some _ => reached := by
  rw [make_apply, Except.ok.injEq] at hmake
  have hc : catalog.InMemory := hmake ▸ inMemory_make key seeds
  have hkey : catalog.key = key := by rw [← hmake]
  have hseeds : catalog.seeds = seeds.filter Category.isName := by rw [← hmake]
  rw [← hkey] at hread
  obtain ⟨S,hS⟩ := hc.exists_holds hread
  obtain ⟨log,hload⟩ := hS.load hc
  refine ⟨S,by rw [hload],?_⟩
  intro requests seedSet reached T
  obtain ⟨hanswers,hend⟩ := hS.run hc requests
  rw [hseeds] at hanswers hend
  refine ⟨hanswers,?_,?_⟩
  · intro name
    rw [(hend.perform hc (.tryAdd name)).1, (hend.perform hc (.rejection name)).1]
    rfl
  · intro r hidle
    have hworld := (hend.perform hc r).2.2 hidle
    rw [started, hkey, hseeds] at hworld
    exact hworld

/-- Over a text that is no JSON the catalog is its seeds, to which a name is added once. -/
theorem answers_as_set_malformed :
    let catalog : Catalog (Assoc Text) := ⟨Store.memory, "k", ["b", "a"]⟩
    let table : Assoc Text := [("k", "[")]
    Request.answers catalog [.tryAdd " c ", .tryAdd "c", .has "a"] table =
      [.ok (.verdict none), .ok (.verdict (some (.present "c"))), .ok (.truth true)] := by
  intro catalog table
  have hread : ∀ raw, table.get? "k" = some raw → ∃ saved, decode raw = .ok saved := by
    intro raw hraw
    cases hraw
    exact ⟨_,rfl⟩
  obtain ⟨S,hS,hrun⟩ := answers_as_set "k" ["b", "a b", "a"] [] table catalog rfl hread
  have hload : (catalog.load table).result = .ok ["a", "b"] := by rfl
  rw [hload, Except.ok.injEq] at hS
  have hset : S = [Text.ofString "a", Text.ofString "b"].toFinset := by
    rw [hS, Finset.sort_toFinset]
  rw [(hrun [.tryAdd " c ", .tryAdd "c", .has "a"]).1, hset]
  decide

end Catalog

end CategorySelection
