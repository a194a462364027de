import CategorySelection.Proofs.Checklist.Rows
import CategorySelection.Proofs.Expression.Canonical
import CategorySelection.Proofs.Expression.Parsed
/-!
What is selected in a checklist. Only marking, clearing and making a checklist from marks have an
effect on it; adding a row does not, nor does taking a neutral one away.
-/

namespace CategorySelection.Checklist

/-- What is selected in a sound checklist is a selection. -/
theorem selection_selected {c : Checklist} (hc : c.Sound) : Selection c.selected := by
  refine ⟨(names_selected_sortedLT hc).nodup,?_,?_⟩
  · intro name hname
    exact hc.named name ((Assoc.names_filter_sublist _ c.rows).subset hname)
  · intro name h
    rw [get?_selected name hc, Option.filter_eq_some_iff] at h
    simp only [ne_eq, not_true_eq_false, decide_false, Bool.false_eq_true, and_false] at h

/-- In a checklist that is made of marks, these marks are selected. -/
theorem get?_selected_ofMarks {names : List Text} {marks : Assoc Mark} {c : Checklist}
    (hm : ∀ name, marks.get? name ≠ some .neutral) (h : ofMarks names marks = .ok c) (name : Text) :
    c.selected.get? name = marks.get? name := by
  rw [get?_selected name (sound_ofMarks h), mark?_ofMarks h]
  cases hget : marks.get? name with
  | none =>
    rw [Option.getD_none]
    split_ifs <;> rfl
  | some mark =>
    have hmem : name ∈ names ++ marks.names :=
      List.mem_append_right names (Assoc.mem_names_of_mem (Assoc.mem_of_get?_eq_some hget))
    have hmark : mark ≠ .neutral := fun he => hm name (he ▸ hget)
    rw [if_pos hmem, Option.getD_some, Option.filter_some]
    simp only [ne_eq, hmark, not_false_eq_true, decide_true, ↓reduceIte]

theorem get?_selected_add {name : Text} {c d : Checklist} (hc : c.Sound) (h : c.add name = .ok d)
    (other : Text) : d.selected.get? other = c.selected.get? other := by
  rw [get?_selected other (sound_add hc h), get?_selected other hc, mark?_add h]
  split_ifs with ho
  · rw [← ho]
    cases c.mark? name <;> rfl
  · rfl

theorem get?_selected_set {name : Text} {mark : Mark} {c d : Checklist} (hc : c.Sound)
    (hm : mark ≠ .neutral) (h : c.set name mark = .ok d) (other : Text) :
    d.selected.get? other = if name = other then some mark else c.selected.get? other := by
  rw [get?_selected other (sound_set hc h), get?_selected other hc, mark?_set h]
  split_ifs with ho
  · simp only [Option.filter_some, ne_eq, hm, not_false_eq_true, decide_true, ↓reduceIte]
  · rfl

/-- Clearing a category takes it out of what is selected. -/
theorem get?_selected_clear (name other : Text) {c : Checklist} (hc : c.Sound) :
    (c.clear name).selected.get? other = if name = other then none else c.selected.get? other := by
  rw [get?_selected other (sound_clear name hc), get?_selected other hc, mark?_clear]
  split_ifs with ho
  · cases c.mark? name <;> rfl
  · rfl

theorem get?_selected_clearAll (name : Text) {c : Checklist} (hc : c.Sound) :
    c.clearAll.selected.get? name = none := by
  rw [get?_selected name (sound_clearAll hc), mark?_clearAll]
  cases c.mark? name <;> rfl

/-- Removing a neutral row changes nothing of what is selected. -/
theorem get?_selected_remove {name : Text} {c : Checklist} (hc : c.Sound)
    (h : c.mark? name = some .neutral) (other : Text) :
    (c.remove name).selected.get? other = c.selected.get? other := by
  rw [get?_selected other (sound_remove name hc), get?_selected other hc, mark?_remove]
  split_ifs with ho
  · rw [← ho, h]
    rfl
  · rfl

/-- A checklist that selects the same as a table of distinct names selects it in increasing
order. -/
theorem selected_eq_sorted {c : Checklist} {marks : Assoc Mark} (hc : c.Sound)
    (hm : marks.names.Nodup) (h : ∀ name, c.selected.get? name = marks.get? name) :
    c.selected = marks.sorted := by
  apply Assoc.eq_of_get?_eq (names_selected_sortedLT hc) (Assoc.sorted_names_sortedLT marks hm)
  intro name
  rw [h, Assoc.get?_sorted name marks hm]

/-- The expression of a checklist is written from what is selected. -/
theorem expression_eq_write_selected (c : Checklist) : c.expression = Expression.write c.selected :=
  (Expression.write_filter c.rows).symm

end CategorySelection.Checklist
