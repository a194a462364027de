import CategorySelection.Proofs.Action
import CategorySelection.Proofs.Checklist.Rows
import Mathlib.Logic.Function.Basic
/-!
What is done to a checklist. Every operation is given by its effect on the map from names to marks:
it replaces what the map has for the category it is about, or, for making all categories neutral,
every mark.
-/

namespace CategorySelection.Checklist

/-- What is done to a checklist. A mark is given by the word for it or by two wishes. -/
inductive Operation
  | add (name : Text)
  | remove (name : Text)
  | set (name label : Text)
  | setFlags (name : Text) (included excluded : Bool)
  | clear (name : Text)
  | clearAll
  deriving Repr, DecidableEq

def view (c : Checklist) (name : Text) : Option Mark := c.mark? name

namespace Operation

def perform : Operation → Action Checklist Unit
  | .add name => do
    let _ ← addRow name
    return ()
  | .remove name => Action.change (Checklist.remove name)
  | .set name label => setLabel name label
  | .setFlags name included excluded => do
    let _ ← Checklist.setFlags name included excluded
    return ()
  | .clear name => Action.change (Checklist.clear name)
  | .clearAll => Action.change Checklist.clearAll

/-- The category that an operation is about. Making all categories neutral is about none of them
more than about the others. -/
def target? : Operation → Option Text
  | .add name | .remove name | .set name _ | .setFlags name _ _ | .clear name => some name
  | .clearAll => none

def replace : Operation → Option Mark → Option Mark
  | .add _, mark => some (mark.getD .neutral)
  | .remove _, _ => none
  | .set _ label, _ => Mark.ofLabel? label
  | .setFlags _ included excluded, _ => some (Mark.ofFlags included excluded)
  | .clear _, mark | .clearAll, mark => mark.map fun _ => .neutral

def effect (o : Operation) (m : Text → Option Mark) : Text → Option Mark :=
  match o.target? with
  | some name => Function.update m name (o.replace (m name))
  | none => fun name => o.replace (m name)

/-- Whether an operation can be done: a row needs the name of a category, and a mark one of the
words. -/
def isGood : Operation → Bool
  | .add name | .setFlags name _ _ => Category.isName name
  | .set name label => Category.isName name && (Mark.ofLabel? label).isSome
  | .remove _ | .clear _ | .clearAll => true

/-- An operation that is about one category changes the map there and nowhere else. -/
theorem effect_of_target {o : Operation} {name : Text} (h : o.target? = some name)
    (m : Text → Option Mark) :
    o.effect m = Function.update m name (o.replace (m name)) := by
  rw [effect, h]

/-- Operations about different categories can be exchanged. -/
theorem effect_comm {o p : Operation} {name other : Text} (ho : o.target? = some name)
    (hp : p.target? = some other) (hne : name ≠ other) (m : Text → Option Mark) :
    p.effect (o.effect m) = o.effect (p.effect m) := by
  rw [effect_of_target ho, effect_of_target hp, effect_of_target ho, effect_of_target hp,
    Function.update_of_ne hne.symm, Function.update_of_ne hne, Function.update_comm hne]

end Operation

section Outcome

variable {c : Checklist}

theorem addRow_apply (name : Text) (c : Checklist) :
    addRow name c = match c.add name with
      | .error e => ⟨.error e, c, []⟩
      | .ok d => ⟨.ok (!c.has name), d, []⟩ := by
  rw [addRow, Action.bind_apply, Action.world_apply]
  dsimp only
  rw [Action.bind_apply, Action.ofExcept_apply]
  cases c.add name <;> rfl

theorem setMark_apply (name : Text) (mark : Mark) (c : Checklist) :
    setMark name mark c = match c.set name mark with
      | .error e => ⟨.error e, c, []⟩
      | .ok d => ⟨.ok (), d, [markRecord name mark.label]⟩ := by
  rw [setMark, Action.bind_apply, Action.world_apply]
  dsimp only
  rw [Action.bind_apply, Action.ofExcept_apply]
  cases c.set name mark <;> rfl

/-- Adding a row once more does nothing. -/
theorem add_of_add {name : Text} {d : Checklist} (h : c.add name = .ok d) : d.add name = .ok d := by
  have hhas : d.has name = true := by
    rw [has_iff]
    rcases add_cases h with ⟨hm,rfl⟩ | ⟨_,_,rfl⟩
    · exact hm
    · exact (mem_names_insertRow name (name,.neutral) c.rows).mpr (Or.inl rfl)
  rw [add, if_pos hhas]

/-- A row that is added for a word which stands for no mark stays. -/
theorem setLabel_apply (name label : Text) (c : Checklist) :
    setLabel name label c = match c.add name with
      | .error e => ⟨.error e, c, []⟩
      | .ok d =>
        match Mark.ofLabel label with
        | .error e => ⟨.error e, d, []⟩
        | .ok mark => ⟨.ok (), d.withMark name mark, [markRecord name mark.label]⟩ := by
  have hdiscard : discard (addRow name) c = match c.add name with
      | .error e => ⟨.error e, c, []⟩
      | .ok d => ⟨.ok (), d, []⟩ := by
    change ((addRow name >>= fun _ => pure ()) : Action Checklist Unit) c = _
    rw [Action.bind_apply, addRow_apply]
    cases c.add name <;> rfl
  rw [setLabel, Action.bind_apply, hdiscard]
  cases hadd : c.add name with
  | error e => rfl
  | ok d =>
    dsimp only
    rw [Action.bind_apply, Action.ofExcept_apply]
    cases Mark.ofLabel label with
    | error e => rfl
    | ok mark =>
      dsimp only
      have hset : d.set name mark = .ok (d.withMark name mark) := by
        rw [set, add_of_add hadd]
        rfl
      rw [setMark_apply, hset]
      rfl

/-- Of two wishes the row is added first, and then the mark that they make is set. -/
theorem setFlags_apply (name : Text) (included excluded : Bool) (c : Checklist) :
    setFlags name included excluded c = match c.add name with
      | .error e => ⟨.error e, c, []⟩
      | .ok d =>
        let mark := Mark.ofFlags included excluded
        ⟨.ok mark, d.withMark name mark, [markRecord name mark.label]⟩ := by
  rw [setFlags]
  dsimp only
  rw [Action.bind_apply, setMark_apply, set]
  cases c.add name <;> rfl

theorem ofLabel_eq (label : Text) :
    Mark.ofLabel label = match Mark.ofLabel? label with
      | some mark => .ok mark
      | none => .error (.unknownMark label) := rfl

theorem ofLabel_label (mark : Mark) : Mark.ofLabel mark.label = .ok mark := by cases mark <;> decide

end Outcome

namespace Operation

variable {c : Checklist}

/-- A checklist that differs from another one in one row has the map with this row changed. -/
theorem view_eq_update {name : Text} {d : Checklist} {mark : Option Mark}
    (h : ∀ other, d.mark? other = if name = other then mark else c.mark? other) :
    d.view = Function.update c.view name mark := by
  funext other
  rw [view, h, Function.update_apply, view]
  exact if_congr eq_comm rfl rfl

/-- Marking a category for which there is a row, or for which one was just added. -/
theorem view_withMark {name : Text} {mark : Mark} {d : Checklist} (h : c.add name = .ok d) :
    (d.withMark name mark).view = Function.update c.view name (some mark) := by
  have hset : c.set name mark = .ok (d.withMark name mark) := by
    rw [Checklist.set, h]
    rfl
  exact view_eq_update (mark?_set hset)

/-- One step: an operation that can be done leaves a sound checklist, whose map is what the
operation makes of the map before it. -/
theorem perform_of_good (hc : c.Sound) {o : Operation} (h : o.isGood = true) :
    ∃ d log, o.perform c = ⟨.ok (), d, log⟩ ∧ d.Sound ∧ d.view = o.effect c.view := by
  cases o with
  | add name =>
    obtain ⟨d,hadd⟩ := (add_eq_ok_iff name c hc).mpr h
    refine ⟨d,[],?_,sound_add hc hadd,view_eq_update (mark?_add hadd)⟩
    rw [perform, Action.bind_apply, addRow_apply, hadd]
    rfl
  | remove name => exact ⟨_,_,rfl,sound_remove name hc,view_eq_update (mark?_remove name · c)⟩
  | set name label =>
    rw [isGood, Bool.and_eq_true, Option.isSome_iff_exists] at h
    obtain ⟨hname,mark,hmark⟩ := h
    obtain ⟨d,hadd⟩ := (add_eq_ok_iff name c hc).mpr hname
    refine ⟨_,[markRecord name mark.label],?_,sound_withMark name mark (sound_add hc hadd),?_⟩
    · rw [perform, setLabel_apply, hadd, ofLabel_eq, hmark]
    · rw [view_withMark hadd, effect_of_target rfl, replace, hmark]
  | setFlags name included excluded =>
    obtain ⟨d,hadd⟩ := (add_eq_ok_iff name c hc).mpr h
    let mark := Mark.ofFlags included excluded
    refine ⟨_,[markRecord name mark.label],?_,sound_withMark name mark (sound_add hc hadd),
      view_withMark hadd⟩
    rw [perform, Action.bind_apply, Checklist.setFlags_apply, hadd]
    rfl
  | clear name => exact ⟨_,_,rfl,sound_clear name hc,view_eq_update (mark?_clear name · c)⟩
  | clearAll => exact ⟨_,_,rfl,sound_clearAll hc,funext (mark?_clearAll · c)⟩

/-- An operation that does not fail can be done: a row that could not be added would have failed. -/
theorem isGood_of_perform (hc : c.Sound) {o : Operation} (h : (o.perform c).result = .ok ()) :
    o.isGood = true := by
  cases o with
  | add name =>
    rw [isGood, ← add_eq_ok_iff name c hc]
    rw [perform, Action.bind_apply, addRow_apply] at h
    cases hadd : c.add name with
    | error e =>
      rw [hadd] at h
      cases h
    | ok d => exact ⟨d,rfl⟩
  | set name label =>
    rw [isGood, Bool.and_eq_true, ← add_eq_ok_iff name c hc]
    rw [perform, setLabel_apply, ofLabel_eq] at h
    cases hadd : c.add name with
    | error e =>
      rw [hadd] at h
      cases h
    | ok d =>
      cases hmark : Mark.ofLabel? label with
      | none =>
        rw [hadd, hmark] at h
        cases h
      | some mark => exact ⟨⟨d,rfl⟩,rfl⟩
  | setFlags name included excluded =>
    rw [isGood, ← add_eq_ok_iff name c hc]
    rw [perform, Action.bind_apply, Checklist.setFlags_apply] at h
    cases hadd : c.add name with
    | error e =>
      rw [hadd] at h
      cases h
    | ok d => exact ⟨d,rfl⟩
  | remove name => rfl
  | clear name => rfl
  | clearAll => rfl

def performAll (operations : List Operation) : Action Checklist Unit :=
  Action.forEach perform operations

def effectAll (operations : List Operation) (m : Text → Option Mark) : Text → Option Mark :=
  operations.foldl (fun m o => o.effect m) m

theorem performAll_cons (o : Operation) (rest : List Operation) :
    performAll (o :: rest) = (o.perform >>= fun _ => performAll rest) := rfl

/-- By induction on the operations: those that can be done are done, and their effects add up. -/
theorem performAll_of_good (hc : c.Sound) {operations : List Operation}
    (h : ∀ o ∈ operations, o.isGood = true) :
    ∃ d log, performAll operations c = ⟨.ok (), d, log⟩ ∧ d.Sound ∧
      d.view = effectAll operations c.view := by
  induction operations generalizing c with
  | nil => exact ⟨c,[],rfl,hc,rfl⟩
  | cons o rest ih =>
    obtain ⟨ho,hrest⟩ := List.forall_mem_cons.mp h
    obtain ⟨d,log,hperform,hd,hview⟩ := perform_of_good hc ho
    obtain ⟨e,log',hall,he,hviews⟩ := ih hd hrest
    refine ⟨e,log ++ log',?_,he,?_⟩
    · rw [performAll_cons, Action.bind_of_ok hperform, hall]
    · rw [hviews, hview]
      rfl

/-- By induction on the operations: if none of them failed, all of them can be done. -/
theorem isGood_of_performAll (hc : c.Sound) {operations : List Operation}
    (h : (performAll operations c).result = .ok ()) : ∀ o ∈ operations, o.isGood = true := by
  induction operations generalizing c with
  | nil => exact List.forall_mem_nil _
  | cons o rest ih =>
    rw [performAll_cons, Action.bind_apply] at h
    rcases hperform : o.perform c with ⟨e | _,d,log⟩ <;> rw [hperform] at h
    · cases h
    · have ho : o.isGood = true := isGood_of_perform hc (congrArg Outcome.result hperform)
      obtain ⟨d',log',hperform',hd,_⟩ := perform_of_good hc ho
      obtain rfl : d' = d := by
        rw [hperform] at hperform'
        exact (congrArg Outcome.world hperform').symm
      exact List.forall_mem_cons.mpr ⟨ho,ih hd h⟩

end Operation

end CategorySelection.Checklist
