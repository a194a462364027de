import CategorySelection.Proofs.Assoc
import CategorySelection.Proofs.Expression.Scan
/-!
The marks read from an expression. Every atom that is found names a category and includes or
excludes it, so the marks that atoms make together do so too, and each category has one.
-/

namespace CategorySelection

structure Selection (marks : Assoc Mark) : Prop where
  nodup : marks.names.Nodup
  named : ∀ name ∈ marks.names, Category.isName name = true
  marked : ∀ name, marks.get? name ≠ some .neutral

namespace Selection

theorem nil : Selection [] :=
  ⟨List.nodup_nil,fun _ h => absurd h List.not_mem_nil,fun _ h => nomatch h⟩

/-- A selection stays one when a category is included or excluded. -/
theorem put {marks : Assoc Mark} (h : Selection marks) {name : Text} {mark : Mark}
    (hn : Category.isName name = true) (hm : mark ≠ .neutral) :
    Selection (marks.put name mark) := by
  refine ⟨Assoc.nodup_names_put name mark marks h.nodup,?_,?_⟩
  · intro other ho
    rw [Assoc.names_put] at ho
    split_ifs at ho
    · exact h.named other ho
    · rcases List.mem_append.mp ho with ho | ho
      · exact h.named other ho
      · rwa [List.mem_singleton.mp ho]
  · intro other
    rw [Assoc.get?_put]
    split_ifs
    · exact fun he => hm (Option.some_inj.mp he)
    · exact h.marked other

theorem erase {marks : Assoc Mark} (h : Selection marks) (name : Text) :
    Selection (marks.erase name) := by
  have hsub : (marks.erase name).names.Sublist marks.names := Assoc.names_filter_sublist _ marks
  refine ⟨h.nodup.sublist hsub,fun other ho => h.named other (hsub.subset ho),?_⟩
  intro other
  rw [Assoc.get?_erase]
  split_ifs
  · exact fun he => nomatch he
  · exact h.marked other

end Selection

namespace Expression

/-- An atom that is cut out of a text has the name of a category and a mark that is not neutral. -/
theorem proper_of_mem_piecesAfter {a : Atom} {skip : Nat} {t : Text}
    (h : .atom a ∈ piecesAfter skip t) : a.Proper := by
  induction t generalizing skip with
  | nil => cases skip <;> exact absurd h List.not_mem_nil
  | cons c rest ih =>
    cases skip with
    | succ skip => exact ih h
    | zero =>
      rw [piecesAfter] at h
      cases hread : readAtom? (c :: rest) with
      | none =>
        rw [hread] at h
        rcases List.mem_cons.mp h with h | h
        · cases h
        · exact ih h
      | some b =>
        rw [hread] at h
        rcases List.mem_cons.mp h with h | h
        · cases h
          exact ((readAtom?_eq_some_iff _ _).mp hread).1
        · exact ih h

/-- An atom that is found has the name of a category and a mark that is not neutral. -/
theorem proper_of_mem_atoms {a : Atom} {t : Text} (h : a ∈ atoms t) : a.Proper := by
  obtain ⟨piece,hp,ha⟩ := List.mem_filterMap.mp h
  cases piece with
  | gap c => cases ha
  | atom b =>
    cases ha
    exact proper_of_mem_piecesAfter hp

theorem selection_merge {marks : Assoc Mark} (h : Selection marks) {a : Atom} (ha : a.Proper) :
    Selection (merge marks a) := by
  rw [merge]
  cases marks.get? a.name with
  | none => exact h.put ha.named ha.marked
  | some mark =>
    dsimp only
    split_ifs
    · exact h
    · exact h.put ha.named (by decide)

/-- Merging proper atoms into a selection gives a selection. -/
theorem selection_mergeAll {marks : Assoc Mark} (h : Selection marks) {as : List Atom}
    (ha : ∀ a ∈ as, a.Proper) : Selection (mergeAll marks as) := by
  induction as generalizing marks with
  | nil => exact h
  | cons a rest ih =>
    obtain ⟨hhead,hrest⟩ := List.forall_mem_cons.mp ha
    exact ih (selection_merge h hhead) hrest

theorem selection_parse (t : Text) : Selection (parse t) :=
  selection_mergeAll .nil fun _ h => proper_of_mem_atoms h

end Expression

end CategorySelection
