import CategorySelection.Text
import Mathlib.Data.List.Lex
import Mathlib.Data.List.Sort
import Mathlib.Order.Fin.Basic
/-!
The distinct texts of a list in increasing order. An increasing list is determined by what is in it,
so it does not matter how often and where the texts stood.
-/

namespace CategorySelection.Text

@[simp] theorem mem_insertSorted (t u : Text) (ts : List Text) :
    t ∈ insertSorted u ts ↔ t = u ∨ t ∈ ts := by
  induction ts with
  | nil => simp only [insertSorted, List.mem_cons, List.not_mem_nil, or_false]
  | cons v rest ih =>
    rw [insertSorted]
    split_ifs with hlt heq
    · exact List.mem_cons
    · rw [heq, List.mem_cons]
      exact ⟨Or.inr, fun h => h.elim Or.inl id⟩
    · simp only [List.mem_cons, ih]
      exact or_left_comm

theorem insertSorted_pairwise (t : Text) (ts : List Text) (h : ts.Pairwise (· < ·)) :
    (insertSorted t ts).Pairwise (· < ·) := by
  induction ts with
  | nil => exact List.pairwise_singleton _ t
  | cons v rest ih =>
    obtain ⟨hv,hrest⟩ := List.pairwise_cons.mp h
    rw [insertSorted]
    split_ifs with hlt heq
    · refine List.pairwise_cons.mpr ⟨?_,h⟩
      intro u hu
      rcases List.mem_cons.mp hu with rfl | hu
      · exact hlt
      · exact hlt.trans (hv u hu)
    · exact h
    · have hvt : v < t := lt_of_le_of_ne (not_lt.mp hlt) (Ne.symm heq)
      refine List.pairwise_cons.mpr ⟨?_,ih hrest⟩
      intro u hu
      rcases (mem_insertSorted u t rest).mp hu with rfl | hu
      · exact hvt
      · exact hv u hu

@[simp] theorem mem_sortedSet (t : Text) (ts : List Text) : t ∈ sortedSet ts ↔ t ∈ ts := by
  induction ts with
  | nil => exact Iff.rfl
  | cons v rest ih =>
    change t ∈ insertSorted v (sortedSet rest) ↔ _
    rw [mem_insertSorted, ih, List.mem_cons]

theorem sortedSet_sortedLT (ts : List Text) : (sortedSet ts).SortedLT := by
  apply List.Pairwise.sortedLT
  induction ts with
  | nil => exact List.Pairwise.nil
  | cons v rest ih => exact insertSorted_pairwise v (sortedSet rest) ih

/-- Texts in strictly increasing order are left as they are. -/
theorem sortedSet_eq_self {ts : List Text} (h : ts.SortedLT) : sortedSet ts = ts :=
  (sortedSet_sortedLT ts).eq_of_mem_iff h fun t => mem_sortedSet t ts

end CategorySelection.Text
