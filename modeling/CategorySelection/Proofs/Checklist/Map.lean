import CategorySelection.Proofs.Checklist.Indexed
import CategorySelection.Proofs.Expression.Canonical
import Mathlib.Data.Set.Card
/-!
Checklists as finite maps. However a checklist is made and whatever is done to it, its answers are
those of the map that the same operations make of the names and words it was made from.
-/

namespace CategorySelection.Checklist

/-- The answers that a checklist gives for a map: its names are the keys in increasing order, and
whatever is asked is read off the map along the names. -/
structure AnswersAs (c : Checklist) (m : Text → Option Mark) : Prop where
  ordered : c.names.SortedLT
  named : ∀ name ∈ c.names, Category.isName name = true
  keys : ∀ name, name ∈ c.names ↔ m name ≠ none
  size : c.names.length = {name | m name ≠ none}.ncard
  has : ∀ name, c.has name = (m name).isSome
  mark : ∀ name, c.mark name = (m name).elim (.error (.missingRow name)) .ok
  rows : c.rows = c.names.filterMap fun name => (m name).map (name, ·)
  included : c.included = c.names.filter fun name => m name = some .included
  excluded : c.excluded = c.names.filter fun name => m name = some .excluded
  selected : c.selected = 
    c.names.filterMap fun name => ((m name).filter (· ≠ .neutral)).map (name, ·)

section Answers

variable {c : Checklist}

/-- Each row is found under its name. -/
theorem view_of_mem_rows (hc : c.Sound) {row : Text × Mark} (h : row ∈ c.rows) :
    c.view row.1 = some row.2 :=
  (mark?_eq_some_iff hc row.1 row.2).mpr h

/-- Going through the names with what the map tells of them is going through the rows. -/
theorem filterMap_names {α : Type} (hc : c.Sound) (f : Text → Option Mark → Option α) :
    (c.names.filterMap fun name => f name (c.view name)) =
      c.rows.filterMap fun row => f row.1 (some row.2) := by
  rw [names, Assoc.names, List.filterMap_map]
  refine List.filterMap_congr fun row hrow => ?_
  rw [Function.comp_apply, view_of_mem_rows hc hrow]

theorem namesMarked_eq_filter (hc : c.Sound) (mark : Mark) :
    Expression.namesMarked mark c.rows = c.names.filter fun name => c.view name = some mark := by
  rw [Expression.namesMarked, names, Assoc.names, List.filter_map]
  congr 1
  refine List.filter_congr fun row hrow => ?_
  rw [Function.comp_apply, view_of_mem_rows hc hrow]
  simp only [Option.some.injEq]

theorem answersAs_view (hc : c.Sound) : c.AnswersAs c.view := by
  have hkeys (name : Text) : name ∈ c.names ↔ c.view name ≠ none := by
    rw [view, ne_eq, mark?_eq_none_iff, not_not]
  refine ⟨hc.ordered,hc.named,hkeys,?_,?_,?_,?_,namesMarked_eq_filter hc .included,
    namesMarked_eq_filter hc .excluded,?_⟩
  · have hset : {name | c.view name ≠ none} = (c.names.toFinset : Set Text) := by
      ext name
      rw [List.coe_toFinset]
      exact (hkeys name).symm
    rw [hset, Set.ncard_coe_finset, List.toFinset_card_of_nodup hc.ordered.nodup]
  · intro name
    rw [Bool.eq_iff_iff, has_iff, hkeys, Option.isSome_iff_ne_none]
  · intro name
    rw [Checklist.mark, view]
    cases c.mark? name <;> rfl
  · rw [filterMap_names hc fun name mark => mark.map (name,·)]
    exact List.filterMap_some.symm
  · rw [filterMap_names hc fun name mark => (mark.filter (· ≠ .neutral)).map (name,·),
      Checklist.selected, ← List.filterMap_eq_filter]
    refine List.filterMap_congr fun row _ => ?_
    rw [Option.filter_some, Option.guard]
    split_ifs <;> rfl

/-- Checklists that stand for one map are one checklist. -/
theorem eq_of_view_eq {d : Checklist} (hc : c.Sound) (hd : d.Sound) (h : c.view = d.view) :
    c = d := by
  obtain ⟨rows⟩ := c
  obtain ⟨others⟩ := d
  exact congrArg Checklist.mk (Assoc.eq_of_get?_eq hc.ordered hd.ordered (congrFun h))

end Answers

/-- The ways of making a checklist from names and the words of some of them: by itself, from an
expression that was read before, or with marks instead of their words. -/
inductive Starts (names : List Text) (labels : Assoc Text) : Checklist → Prop
  | ofLabels {c : Checklist} : ofLabels names labels = .ok c → Starts names labels c
  | startLabelled {σ : Type} {w : σ} {c : Checklist} :
    (startLabelled names labels w).result = .ok c → Starts names labels c
  | start {σ : Type} {w : σ} {marks : Assoc Mark} {c : Checklist} :
    labels = marks.map (fun (name, mark) => (name, mark.label)) →
    (start names marks w).result = .ok c → Starts names labels c

/-- The map that a checklist starts as: the marks of the words, and neutral for the names without
one. -/
def startMap (names : List Text) (labels : Assoc Text) (name : Text) : Option Mark :=
  match labels.get? name with
  | some label => Mark.ofLabel? label
  | none => if name ∈ names then some .neutral else none

section Start

variable {names : List Text} {labels : Assoc Text} {c : Checklist}

theorem marksOfLabels_map_label (marks : Assoc Mark) :
    marksOfLabels (marks.map fun (name,mark) => (name,mark.label)) = .ok marks := by
  rw [marksOfLabels]
  induction marks with
  | nil => rfl
  | cons row rest ih =>
    rw [List.map_cons, List.mapM_cons, ih]
    dsimp only
    rw [ofLabel_label]
    rfl

/-- All ways of making a checklist come to the same. -/
theorem Starts.eq_ofLabels (h : Starts names labels c) :
    Checklist.ofLabels names labels = .ok c := by
  cases h with
  | ofLabels h => exact h
  | startLabelled h => exact h
  | @start σ w marks _ hlabels h =>
    have hmarks : ofMarks names marks = .ok c := h
    subst hlabels
    have hnames : Assoc.names (marks.map fun (name,mark) => (name,mark.label)) = marks.names :=
      Assoc.names_map_snd Mark.label marks
    have hcheck : Category.checkNames (Text.sortedSet (names ++ marks.names)) = .ok () := by
      rw [checkNames_eq_ok_iff]
      exact fun name hname => (ofMarks_cases hmarks).1 name ((Text.mem_sortedSet name _).mp hname)
    rw [Checklist.ofLabels, hnames, hcheck]
    dsimp only [bind, Except.bind]
    rw [← marksOfLabels, marksOfLabels_map_label]
    exact hmarks

/-- A checklist that is made of names and words is sound. -/
theorem Starts.sound (h : Starts names labels c) : c.Sound := by
  obtain ⟨marks,_,hc⟩ := ofLabels_cases h.eq_ofLabels
  exact sound_ofMarks hc

/-- The map of a checklist that is made of names and words. -/
theorem Starts.view_eq (h : Starts names labels c) : c.view = startMap names labels := by
  obtain ⟨marks,hmarks,hc⟩ := ofLabels_cases h.eq_ofLabels
  obtain ⟨hnames,hget⟩ := get?_of_labels hmarks
  funext name
  rw [view, mark?_ofMarks hc, startMap, hnames, hget]
  cases hlabel : labels.get? name with
  | none =>
    have hm : name ∉ labels.names := (Assoc.get?_eq_none_iff name labels).mp hlabel
    simp only [List.mem_append, hm, or_false, Option.bind_none, Option.getD_none]
  | some label =>
    have hm : name ∈ labels.names := Assoc.mem_names_of_mem (Assoc.mem_of_get?_eq_some hlabel)
    have hword : (Mark.ofLabel? label).isSome := by
      have hsome : marks.get? name ≠ none := by
        rw [ne_eq, Assoc.get?_eq_none_iff, hnames]
        exact not_not.mpr hm
      rwa [hget, hlabel, Option.bind_some, ← Option.isSome_iff_ne_none] at hsome
    obtain ⟨mark,hmark⟩ := Option.isSome_iff_exists.mp hword
    rw [if_pos (List.mem_append_right names hm), Option.bind_some]
    dsimp only
    rw [hmark, Option.getD_some]

end Start

namespace Operation

variable {c : Checklist}

/-- Whether or not it fails, an operation leaves the marks of all but the category it is about. -/
theorem mark?_perform_of_ne {o : Operation} {name other : Text} (ho : o.target? = some name)
    (hne : other ≠ name) (c : Checklist) : (o.perform c).world.mark? other = c.mark? other := by
  have hadd {d : Checklist} (h : c.add name = .ok d) : d.mark? other = c.mark? other := by
    rw [mark?_add h, if_neg hne.symm]
  have hmark (mark : Mark) (d : Checklist) :
      (d.withMark name mark).mark? other = d.mark? other := by
    rw [mark?_withMark, if_neg hne.symm]
  cases o <;> cases ho
  case add =>
    rw [perform, Action.world_bind_pure, addRow_apply]
    cases h : c.add name with
    | error e => rfl
    | ok d => exact hadd h
  case remove => rw [perform, Action.change_apply, mark?_remove, if_neg hne.symm]
  case set label =>
    rw [perform, setLabel_apply]
    cases h : c.add name with
    | error e => rfl
    | ok d =>
      dsimp only
      cases Mark.ofLabel label with
      | error e => exact hadd h
      | ok mark => exact (hmark mark d).trans (hadd h)
  case setFlags included excluded =>
    rw [perform, Action.world_bind_pure, Checklist.setFlags_apply]
    cases h : c.add name with
    | error e => rfl
    | ok d => exact (hmark _ d).trans (hadd h)
  case clear => exact hmark .neutral c

/-- Operations about different categories give the same checklist in both orders. -/
theorem performAll_comm (hc : c.Sound) {o p : Operation} {name other : Text}
    (ho : o.target? = some name) (hp : p.target? = some other) (hne : name ≠ other)
    (h : (performAll [o,p] c).result = .ok ()) :
    (performAll [p,o] c).result = .ok () ∧ (performAll [p,o] c).world =
    (performAll [o,p] c).world := by
  have hgood : ∀ q ∈ [o,p], q.isGood = true := isGood_of_performAll hc h
  have hgood' : ∀ q ∈ [p,o], q.isGood = true := fun q hq =>
    hgood q ((List.Perm.swap o p []).mem_iff.mp hq)
  obtain ⟨d,_,hd,hdsound,hdview⟩ := performAll_of_good hc hgood
  obtain ⟨e,_,he,hesound,heview⟩ := performAll_of_good hc hgood'
  rw [hd, he]
  refine ⟨rfl,eq_of_view_eq hesound hdsound ?_⟩
  rw [hdview, heview]
  exact effect_comm hp ho hne.symm c.view

end Operation

open Operation in
/-- A checklist refines a map from names to marks. It starts as the union of the names and the words
it is made from; after any operations that do not fail it gives the answers of the map that they
make of the first one. The same operations on an index and a table keep the two in step and give the
same answers. An operation changes nothing of another category, and operations about two categories
can be exchanged. -/
theorem refines_map {names : List Text} {labels : Assoc Text} {c : Checklist}
    (hlabels : labels.names.Nodup) (hc : Starts names labels c) {operations : List Operation}
    (hrun : (performAll operations c).result = .ok ()) {d : Checklist}
    (hd : (performAll operations c).world = d) :
    c.AnswersAs (startMap names labels) ∧
    d.AnswersAs (effectAll operations (startMap names labels)) ∧
    (∃ i j, Indexed.ofLabels names labels = .ok i ∧
      (Action.forEach performIndexed operations i).result = .ok () ∧
      (Action.forEach performIndexed operations i).world = j ∧
      j.index = d.names ∧ j.marks.names.Perm j.index ∧ j.rows = .ok d.rows ∧
      ∀ name, j.has name = d.has name ∧ j.mark name = d.mark name) ∧
    (∀ (o : Operation) name other, o.target? = some name → other ≠ name →
      (o.perform d).world.mark? other = d.mark? other) ∧
    (perform .clearAll d).world.names = d.names ∧
    ∀ (o p : Operation) name other, o.target? = some name → p.target? = some other → name ≠ other →
      (performAll [o, p] d).result = .ok () →
      (performAll [p, o] d).result = .ok () ∧
        (performAll [p, o] d).world.rows = (performAll [o, p] d).world.rows ∧
        (performAll [p, o] d).world.expression = (performAll [o, p] d).world.expression := by
  obtain ⟨d',log,hall,hsound,hview⟩ :=
    performAll_of_good hc.sound (isGood_of_performAll hc.sound hrun)
  obtain rfl : d' = d := by rw [← hd, hall]
  rw [hc.view_eq] at hview
  refine ⟨hc.view_eq ▸ answersAs_view hc.sound,hview ▸ answersAs_view hsound,?_,?_,
    names_clearAll d',?_⟩
  · obtain ⟨i,hi,hshows⟩ := Indexed.shows_ofLabels hc.eq_ofLabels hlabels
    obtain ⟨hresult,_,hend⟩ := hshows.performAll operations
    rw [hall] at hresult hend
    exact ⟨i,_,hi,hresult,rfl,hend.index,hend.names_perm,hend.rows,
      fun name => ⟨hend.has name,hend.mark name⟩⟩
  · exact fun o name other ho hne => mark?_perform_of_ne ho hne d'
  · intro o p name other ho hp hne h
    obtain ⟨hresult,hworld⟩ := performAll_comm hsound ho hp hne h
    rw [hworld]
    exact ⟨hresult,rfl,rfl⟩

/-- A category that is taken away and added again by its mark comes back in its place. -/
theorem refines_map_added_again :
    let labels : Assoc Text := [("c", "excluded")]
    let operations : List Operation :=
      [.remove "a", .setFlags "c" true true, .set "a" "excluded", .clear "x"]
    let d : Checklist := ⟨[("a", .excluded), ("b", .neutral), ("c", .included)]⟩
    labels.names.Nodup ∧ ∃ c, Starts ["b", "a"] labels c ∧
      (Operation.performAll operations c).result = .ok () ∧
      (Operation.performAll operations c).world = d ∧
      d.AnswersAs (Operation.effectAll operations (startMap ["b", "a"] labels)) := by
  intro labels operations d
  have hlabels : labels.names.Nodup := by decide +kernel
  let c : Checklist := ⟨[("a", .neutral), ("b", .neutral), ("c", .excluded)]⟩
  have hstart : Starts ["b", "a"] labels c := .ofLabels rfl
  have hrun : (Operation.performAll operations c).result = .ok () := rfl
  have hd : (Operation.performAll operations c).world = d := rfl
  exact ⟨hlabels,c,hstart,hrun,hd,(refines_map hlabels hstart hrun hd).2.1⟩

end CategorySelection.Checklist
