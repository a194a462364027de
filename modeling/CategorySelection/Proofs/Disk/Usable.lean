import CategorySelection.Disk
import CategorySelection.Proofs.Text.Parts
/-!
Paths that the system can take. A path can be taken if each of its code points can, so the paths
that are made from such a path with more such code points can be taken as well.
-/

namespace CategorySelection

structure Path.NamesFile (p : Path) : Prop where
  named : p.name ≠ []
  usable : Disk.checkPath p = .ok ()

namespace Disk

def isUsable (c : CodePoint) : Bool := !(c.isSurrogate && !c.isEscapedByte) && c ≠ (0 : CodePoint)

/-- A name can be taken just if its surrogates all stand for bytes. -/
theorem firstUnescaped_eq_none_iff (place : Nat) (t : Text) :
    Utf8.firstUnescaped place t = none ↔ ∀ c ∈ t, (c.isSurrogate && !c.isEscapedByte) = false := by
  induction t generalizing place with
  | nil => exact iff_of_true rfl (List.forall_mem_nil _)
  | cons c rest ih =>
    rw [Utf8.firstUnescaped, List.forall_mem_cons]
    cases hc : c.isSurrogate && !c.isEscapedByte with
    | true => simp only [↓reduceIte, reduceCtorEq, false_and]
    | false => simp only [Bool.false_eq_true, ↓reduceIte, ih, true_and]

/-- A path can be taken just if all of its code points can. -/
theorem checkPath_eq_ok_iff (p : Path) :
    checkPath p = .ok () ↔ ∀ c ∈ p.text, isUsable c = true := by
  rw [checkPath]
  constructor
  · intro h c hc
    split at h
    · cases h
    · next hnone =>
      split_ifs at h with hzero
      have hescaped := (firstUnescaped_eq_none_iff 0 _).mp hnone c hc
      have hne : c ≠ (0 : CodePoint) := by
        rintro rfl
        exact hzero hc
      rw [isUsable, hescaped, decide_eq_true hne]
      rfl
  · intro h
    have hescaped : Utf8.firstUnescaped 0 p.text = none := by
      rw [firstUnescaped_eq_none_iff]
      intro c hc
      have husable := h c hc
      rw [isUsable, Bool.and_eq_true, Bool.not_eq_true'] at husable
      exact husable.1
    have hzero : (0 : CodePoint) ∉ p.text := fun hmem => absurd (h 0 hmem) (by decide)
    rw [hescaped]
    dsimp only
    rw [if_neg hzero]

theorem isUsable_of_mem_rootOf (t : Text) : ∀ c ∈ Path.rootOf t, isUsable c = true := by
  rw [Path.rootOf]
  split
  · exact List.forall_mem_nil _
  · exact List.all_eq_true.mp (by decide)
  · exact List.all_eq_true.mp (by decide)

/-- An argument has no zero, and its surrogates stand for bytes, so the path that it writes can be
taken. -/
theorem checkPath_ofText {t : Text} (ht : ∀ c ∈ t, isUsable c = true) :
    checkPath (Path.ofText t) = .ok () := by
  rw [checkPath_eq_ok_iff, Path.text]
  split
  · exact List.all_eq_true.mp (by decide)
  · refine List.forall_mem_append.mpr ⟨isUsable_of_mem_rootOf t,fun c hc => ?_⟩
    rcases Text.mem_join hc with hslash | ⟨part,hpart,hcpart⟩
    · obtain rfl := List.mem_singleton.mp hslash
      decide
    · have hsplit : part ∈ Text.split '/' t := (List.mem_filter.mp hpart).1
      obtain ⟨_,before,behind,rfl,_⟩ := Text.isPart_of_mem_split hsplit
      exact ht c (List.mem_append_right _ (List.mem_append_left _ hcpart))

end Disk

namespace Path

variable {p : Path}

theorem parts_eq (hp : p.name ≠ []) : p.parts = p.parts.dropLast ++ [p.name] := by
  have hparts : p.parts ≠ [] := by
    intro h
    rw [name, h] at hp
    exact hp rfl
  rw [name, List.getLast?_eq_some_getLast hparts]
  exact (List.dropLast_append_getLast hparts).symm

theorem sibling_name (hp : p.name ≠ []) : p.sibling p.name = p := by
  rw [sibling, child, parent, ← parts_eq hp]

theorem text_of_parts_ne_nil (hp : p.parts ≠ []) :
    p.text = p.root ++ Text.join (Text.ofString "/") p.parts := by
  rw [text]
  split
  · next hparts => exact absurd hparts hp
  · rfl

theorem text_child (p : Path) (name : Text) :
    (p.child name).text = if p.parts = [] then p.root ++ name
      else p.root ++ (Text.join (Text.ofString "/") p.parts ++ (Text.ofString "/" ++ name)) := by
  have hne : (p.child name).parts ≠ [] :=
    List.append_ne_nil_of_right_ne_nil _ (List.cons_ne_nil name [])
  rw [text_of_parts_ne_nil hne, child]
  split_ifs with hparts
  · rw [hparts, List.nil_append, Text.join_singleton]
  · rw [Text.join_concat _ hparts]

/-- A file beside another one is written with its ending behind the path. -/
theorem text_sibling_append (hp : p.name ≠ []) (behind : Text) :
    (p.sibling (p.name ++ behind)).text = p.text ++ behind := by
  have hself : p.parent.child p.name = p := sibling_name hp
  have htext := text_child p.parent p.name
  rw [hself] at htext
  rw [htext, sibling, text_child]
  split_ifs <;> simp only [List.append_assoc]

/-- A path with a longer name can be taken only if the path itself can be. -/
theorem namesFile_of_longer (hp : p.name ≠ []) {behind : Text}
    (h : Disk.checkPath (p.sibling (p.name ++ behind)) = .ok ()) : p.NamesFile := by
  refine ⟨hp,?_⟩
  rw [Disk.checkPath_eq_ok_iff, text_sibling_append hp, List.forall_mem_append] at h
  exact (Disk.checkPath_eq_ok_iff p).mpr h.1

/-- What stands before the name of a file and what is written behind it can be taken if the whole
path can. -/
theorem NamesFile.usable_beside (hp : p.NamesFile) {behind : Text}
    (hb : ∀ c ∈ behind, Disk.isUsable c = true) :
    Disk.checkPath p.parent = .ok () ∧ Disk.checkPath (p.sibling (p.name ++ behind)) = .ok () := by
  have hself : p.parent.child p.name = p := sibling_name hp.named
  have hchars := (Disk.checkPath_eq_ok_iff p).mp hp.usable
  have htext := text_child p.parent p.name
  rw [hself] at htext
  rw [htext] at hchars
  rw [Disk.checkPath_eq_ok_iff, Disk.checkPath_eq_ok_iff, sibling, text_child]
  by_cases hparts : p.parent.parts = []
  · simp only [hparts, ↓reduceIte, List.forall_mem_append] at hchars ⊢
    refine ⟨?_,hchars.1,hchars.2,hb⟩
    rw [text, hparts]
    split
    · exact List.forall_mem_singleton.mpr rfl
    · simpa only [Text.join, List.intercalate, List.intersperse_nil, List.flatten_nil,
        List.append_nil]
        using hchars.1
  · simp only [hparts, ↓reduceIte, List.forall_mem_append] at hchars ⊢
    refine ⟨?_,hchars.1,hchars.2.1,hchars.2.2.1,hchars.2.2.2,hb⟩
    rw [text_of_parts_ne_nil hparts]
    exact List.forall_mem_append.mpr ⟨hchars.1,hchars.2.1⟩

end Path

end CategorySelection
