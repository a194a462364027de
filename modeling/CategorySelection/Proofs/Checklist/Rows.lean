import CategorySelection.Checklist
import CategorySelection.Proofs.Assoc
/-!
The rows of checklists. Every operation keeps the names in increasing order and lets no other text
be a name, and each is given here by the mark that it leaves with every category.
-/

namespace CategorySelection.Checklist

structure Sound (c : Checklist) : Prop where
  ordered : c.names.SortedLT
  named : ∀ name ∈ c.names, Category.isName name = true

inductive Built : Checklist → Prop
  | ofMarks {names : List Text} {marks : Assoc Mark} {c : Checklist} :
    ofMarks names marks = .ok c → Built c
  | add {name : Text} {c d : Checklist} : Built c → c.add name = .ok d → Built d
  | set {name : Text} {mark : Mark} {c d : Checklist} : Built c → c.set name mark = .ok d → Built d
  | remove (name : Text) {c : Checklist} : Built c → Built (c.remove name)
  | clear (name : Text) {c : Checklist} : Built c → Built (c.clear name)
  | clearAll {c : Checklist} : Built c → Built c.clearAll

/-- There is a row for a category just if it is among the names. -/
theorem has_iff (name : Text) (c : Checklist) : c.has name = true ↔ name ∈ c.names := by
  simp only [has, Assoc.has, List.any_eq_true, decide_eq_true_eq, names, Assoc.names, List.mem_map]

theorem mark?_eq_none_iff (name : Text) (c : Checklist) : c.mark? name = none ↔ name ∉ c.names :=
  Assoc.get?_eq_none_iff name c.rows

section Insert

theorem names_insertRow_perm (row : Text × Mark) (rows : Assoc Mark) :
    (Assoc.names (insertRow row rows)).Perm (row.1 :: rows.names) := by
  induction rows with
  | nil => exact List.Perm.refl _
  | cons r rest ih =>
    rw [insertRow]
    split_ifs
    · exact List.Perm.refl _
    · exact (ih.cons r.1).trans (List.Perm.swap row.1 r.1 (Assoc.names rest))

theorem mem_names_insertRow (name : Text) (row : Text × Mark) (rows : Assoc Mark) :
    name ∈ Assoc.names (insertRow row rows) ↔ name = row.1 ∨ name ∈ rows.names :=
  (names_insertRow_perm row rows).mem_iff.trans List.mem_cons

theorem names_insertRow_sortedLT (row : Text × Mark) (rows : Assoc Mark) (h : rows.names.SortedLT)
    (hrow : row.1 ∉ rows.names) : (Assoc.names (insertRow row rows)).SortedLT := by
  apply List.Pairwise.sortedLT
  replace h := h.pairwise
  induction rows with
  | nil => exact List.pairwise_singleton _ row.1
  | cons r rest ih =>
    rw [Assoc.names_cons, List.mem_cons, not_or] at hrow
    rw [Assoc.names_cons] at h
    obtain ⟨hr,hrest⟩ := List.pairwise_cons.mp h
    rw [insertRow]
    split_ifs with hlt
    · refine List.pairwise_cons.mpr ⟨?_,h⟩
      intro name hname
      rcases List.mem_cons.mp hname with rfl | hname
      · exact hlt
      · exact hlt.trans (hr name hname)
    · refine List.pairwise_cons.mpr ⟨?_,ih hrow.2 hrest⟩
      intro name hname
      rcases (mem_names_insertRow name row rest).mp hname with rfl | hname
      · exact lt_of_le_of_ne (not_lt.mp hlt) (Ne.symm hrow.1)
      · exact hr name hname

/-- A new row is found under its name, and the others are found as before. -/
theorem get?_insertRow (name : Text) (row : Text × Mark) (rows : Assoc Mark)
    (hrow : row.1 ∉ rows.names) :
    Assoc.get? name (insertRow row rows) = if row.1 = name then some row.2 else rows.get? name := by
  induction rows with
  | nil => rfl
  | cons r rest ih =>
    rw [Assoc.names_cons, List.mem_cons, not_or] at hrow
    rw [insertRow]
    by_cases hlt : row.1 < r.1
    · rw [if_pos hlt, Assoc.get?_cons]
    · rw [if_neg hlt, Assoc.get?_cons, Assoc.get?_cons, ih hrow.2]
      by_cases heq : row.1 = name
      · have hne : r.1 ≠ name := fun h => hrow.1 (heq.trans h.symm)
        simp only [heq, hne, ↓reduceIte]
      · simp only [heq, ↓reduceIte]

end Insert

/-- What adding a row can end with. -/
theorem add_cases {name : Text} {c d : Checklist} (h : c.add name = .ok d) :
    (name ∈ c.names ∧ d = c) ∨
      (name ∉ c.names ∧ Category.isName name = true ∧ d = ⟨insertRow (name, .neutral) c.rows⟩) := by
  rw [add] at h
  split_ifs at h with hhas
  · exact Or.inl ⟨(has_iff name c).mp hhas,(Except.ok.inj h).symm⟩
  · rw [Category.checkName] at h
    split_ifs at h with hname
    · exact Or.inr ⟨fun hm => hhas ((has_iff name c).mpr hm),hname,(Except.ok.inj h).symm⟩
    · cases h

theorem set_cases {name : Text} {mark : Mark} {c d : Checklist} (h : c.set name mark = .ok d) :
    ∃ e, c.add name = .ok e ∧ d = e.withMark name mark := by
  rw [set] at h
  cases he : c.add name with
  | error fault =>
    rw [he] at h
    cases h
  | ok e =>
    rw [he] at h
    exact ⟨e,rfl,(Except.ok.inj h).symm⟩

theorem checkNames_eq_ok_iff (names : List Text) :
    Category.checkNames names = .ok () ↔ ∀ name ∈ names, Category.isName name = true := by
  induction names with
  | nil => simp only [Category.checkNames, List.not_mem_nil, false_implies, implies_true]
  | cons name rest ih =>
    rw [Category.checkNames, Category.checkName, List.forall_mem_cons, ← ih]
    by_cases h : Category.isName name = true
    · rw [if_pos h]
      exact ⟨fun hr => ⟨h,hr⟩,fun hr => hr.2⟩
    · rw [if_neg h]
      constructor
      · intro hr
        cases hr
      · intro hr
        exact absurd hr.1 h

/-- What making a checklist can end with. -/
theorem ofMarks_cases {names : List Text} {marks : Assoc Mark} {c : Checklist}
    (h : ofMarks names marks = .ok c) :
    (∀ name ∈ names ++ marks.names, Category.isName name = true) ∧
      c = ⟨(Text.sortedSet (names ++ marks.names)).map
        fun name => (name, (marks.get? name).getD .neutral)⟩ := by
  rw [ofMarks] at h
  cases hc : Category.checkNames (Text.sortedSet (names ++ marks.names)) with
  | error fault =>
    rw [hc] at h
    cases h
  | ok u =>
    rw [hc] at h
    refine ⟨?_,(Except.ok.inj h).symm⟩
    intro name hname
    exact (checkNames_eq_ok_iff _).mp hc name ((Text.mem_sortedSet name _).mpr hname)

theorem ofMarks_eq_ok {names : List Text} {marks : Assoc Mark}
    (h : ∀ name ∈ names ++ marks.names, Category.isName name = true) :
    ∃ c, ofMarks names marks = .ok c := by
  have hc : Category.checkNames (Text.sortedSet (names ++ marks.names)) = .ok () := by
    rw [checkNames_eq_ok_iff]
    exact fun name hname => h name ((Text.mem_sortedSet name _).mp hname)
  rw [ofMarks, hc]
  exact ⟨_,rfl⟩

/-- A checklist that is made of names and marks has the marks, and the other names are neutral. -/
theorem mark?_ofMarks {names : List Text} {marks : Assoc Mark} {c : Checklist}
    (h : ofMarks names marks = .ok c) (name : Text) :
    c.mark? name =
      if name ∈ names ++ marks.names then some ((marks.get? name).getD .neutral) else none := by
  obtain ⟨_,rfl⟩ := ofMarks_cases h
  rw [mark?, Assoc.get?_map_mk]
  simp only [Text.mem_sortedSet]

theorem sound_ofMarks {names : List Text} {marks : Assoc Mark} {c : Checklist}
    (h : ofMarks names marks = .ok c) : c.Sound := by
  obtain ⟨hnamed,rfl⟩ := ofMarks_cases h
  constructor
  · rw [Checklist.names, Assoc.names_map_mk]
    exact Text.sortedSet_sortedLT _
  · intro name hname
    rw [Checklist.names, Assoc.names_map_mk, Text.mem_sortedSet] at hname
    exact hnamed name hname

theorem mark?_add {name : Text} {c d : Checklist} (h : c.add name = .ok d) (other : Text) :
    d.mark? other =
      if name = other then some ((c.mark? name).getD .neutral) else c.mark? other := by
  rcases add_cases h with ⟨hm,rfl⟩ | ⟨hm,_,rfl⟩
  · by_cases ho : name = other
    · subst ho
      obtain ⟨mark,hmark⟩ := Option.ne_none_iff_exists'.mp
        (fun hn => (mark?_eq_none_iff name d).mp hn hm)
      rw [if_pos rfl, hmark, Option.getD_some]
    · rw [if_neg ho]
  · rw [(mark?_eq_none_iff name c).mpr hm]
    exact get?_insertRow other (name, .neutral) c.rows hm

theorem sound_add {name : Text} {c d : Checklist} (hc : c.Sound) (h : c.add name = .ok d) :
    d.Sound := by
  rcases add_cases h with ⟨_,rfl⟩ | ⟨hm,hname,rfl⟩
  · exact hc
  · refine ⟨names_insertRow_sortedLT _ _ hc.ordered hm,?_⟩
    intro other hother
    rcases (mem_names_insertRow other (name, .neutral) c.rows).mp hother with rfl | hother
    · exact hname
    · exact hc.named other hother

/-- A row can be added exactly for the name of a category. -/
theorem add_eq_ok_iff (name : Text) (c : Checklist) (hc : c.Sound) :
    (∃ d, c.add name = .ok d) ↔ Category.isName name = true := by
  constructor
  · rintro ⟨d,h⟩
    rcases add_cases h with ⟨hm,_⟩ | ⟨_,hname,_⟩
    · exact hc.named name hm
    · exact hname
  · intro hname
    rw [add]
    split_ifs
    · exact ⟨c,rfl⟩
    · rw [Category.checkName, if_pos hname]
      exact ⟨_,rfl⟩

/-- A category of a sound checklist can be marked just if its name is one. -/
theorem set_eq_ok_iff (name : Text) (mark : Mark) {c : Checklist} (hc : c.Sound) :
    (∃ d, c.set name mark = .ok d) ↔ Category.isName name = true := by
  rw [← add_eq_ok_iff name c hc]
  constructor
  · rintro ⟨d,h⟩
    obtain ⟨e,he,_⟩ := set_cases h
    exact ⟨e,he⟩
  · rintro ⟨e,he⟩
    exact ⟨e.withMark name mark,by rw [set, he]; rfl⟩

@[simp] theorem names_withMark (name : Text) (mark : Mark) (c : Checklist) :
    (c.withMark name mark).names = c.names := by
  rw [names, names, withMark, Assoc.names, Assoc.names, List.map_map]
  apply List.map_congr_left
  intro row _
  rw [Function.comp_apply]
  split_ifs with h
  · exact h.symm
  · rfl

theorem mark?_withMark (name other : Text) (mark : Mark) (c : Checklist) :
    (c.withMark name mark).mark? other =
      if name = other then (c.mark? name).map fun _ => mark else c.mark? other := by
  obtain ⟨rows⟩ := c
  simp only [mark?, withMark]
  induction rows with
  | nil => simp only [List.map_nil, Assoc.get?_nil, Option.map_none, ite_self]
  | cons row rest ih =>
    rw [List.map_cons, Assoc.get?_cons, Assoc.get?_cons, Assoc.get?_cons, ih]
    by_cases hrow : row.1 = name
    · by_cases ho : name = other <;> simp only [hrow, ho, ↓reduceIte, Option.map_some]
    · by_cases ho : row.1 = other
      · subst ho
        simp only [hrow, Ne.symm hrow, ↓reduceIte]
      · simp only [hrow, ho, ↓reduceIte]

theorem mark?_set {name : Text} {mark : Mark} {c d : Checklist} (h : c.set name mark = .ok d)
    (other : Text) : d.mark? other = if name = other then some mark else c.mark? other := by
  obtain ⟨e,he,rfl⟩ := set_cases h
  rw [mark?_withMark, mark?_add he, mark?_add he]
  by_cases ho : name = other <;> simp only [ho, ↓reduceIte, Option.map_some]

theorem mark?_remove (name other : Text) (c : Checklist) :
    (c.remove name).mark? other = if name = other then none else c.mark? other :=
  Assoc.get?_erase name other c.rows

/-- Clearing a category makes it neutral if it has a row, and leaves the others. -/
theorem mark?_clear (name other : Text) (c : Checklist) :
    (c.clear name).mark? other =
      if name = other then (c.mark? name).map fun _ => .neutral else c.mark? other :=
  mark?_withMark name other .neutral c

/-- Clearing everything makes all rows neutral and keeps them. -/
theorem mark?_clearAll (name : Text) (c : Checklist) :
    c.clearAll.mark? name = (c.mark? name).map fun _ => .neutral := by
  obtain ⟨rows⟩ := c
  simp only [mark?, clearAll]
  induction rows with
  | nil => rfl
  | cons row rest ih =>
    rw [List.map_cons, Assoc.get?_cons, Assoc.get?_cons, ih]
    split_ifs <;> rfl

@[simp] theorem names_clearAll (c : Checklist) : c.clearAll.names = c.names := by
  simp only [names, clearAll, Assoc.names, List.map_map, Function.comp_def]

theorem names_remove_sublist (name : Text) (c : Checklist) :
    (c.remove name).names.Sublist c.names :=
  Assoc.names_filter_sublist _ c.rows

theorem sound_remove (name : Text) {c : Checklist} (hc : c.Sound) : (c.remove name).Sound :=
  ⟨(hc.ordered.pairwise.sublist (names_remove_sublist name c)).sortedLT,
    fun other ho => hc.named other ((names_remove_sublist name c).subset ho)⟩

theorem sound_withMark (name : Text) (mark : Mark) {c : Checklist} (hc : c.Sound) :
    (c.withMark name mark).Sound :=
  ⟨by rw [names_withMark]; exact hc.ordered,by rw [names_withMark]; exact hc.named⟩

theorem sound_set {name : Text} {mark : Mark} {c d : Checklist} (hc : c.Sound)
    (h : c.set name mark = .ok d) : d.Sound := by
  obtain ⟨e,he,rfl⟩ := set_cases h
  exact sound_withMark name mark (sound_add hc he)

theorem sound_clear (name : Text) {c : Checklist} (hc : c.Sound) : (c.clear name).Sound :=
  sound_withMark name .neutral hc

theorem sound_clearAll {c : Checklist} (hc : c.Sound) : c.clearAll.Sound :=
  ⟨by rw [names_clearAll]; exact hc.ordered,by rw [names_clearAll]; exact hc.named⟩

/-- Every checklist that the operations make is sound. -/
theorem Built.sound {c : Checklist} (h : c.Built) : c.Sound := by
  induction h with
  | ofMarks h => exact sound_ofMarks h
  | add _ h ih => exact sound_add ih h
  | set _ h ih => exact sound_set ih h
  | remove name _ ih => exact sound_remove name ih
  | clear name _ ih => exact sound_clear name ih
  | clearAll _ ih => exact sound_clearAll ih

/-- What is selected is what has a mark other than neutral. -/
theorem get?_selected (name : Text) {c : Checklist} (hc : c.Sound) :
    Assoc.get? name c.selected = (c.mark? name).filter (· ≠ .neutral) :=
  Assoc.get?_filter (fun mark => decide (mark ≠ Mark.neutral)) name c.rows hc.ordered.nodup

theorem names_selected_sortedLT {c : Checklist} (hc : c.Sound) :
    (Assoc.names c.selected).SortedLT :=
  (hc.ordered.pairwise.sublist (Assoc.names_filter_sublist _ c.rows)).sortedLT

theorem mem_names_iff (name : Text) (c : Checklist) :
    name ∈ c.names ↔ (c.mark? name).isSome = true := by
  rw [← not_iff_not, ← mark?_eq_none_iff, Bool.not_eq_true, Option.isSome_eq_false_iff,
    Option.isNone_iff_eq_none]

theorem mem_names_add {name : Text} {c d : Checklist} (h : c.add name = .ok d) (other : Text) :
    other ∈ d.names ↔ other = name ∨ other ∈ c.names := by
  rw [mem_names_iff, mem_names_iff, mark?_add h]
  by_cases ho : name = other
  · simp only [ho, ↓reduceIte, Option.isSome_some, true_or]
  · simp only [ho, Ne.symm ho, ↓reduceIte, false_or]

theorem names_subset_set {name : Text} {mark : Mark} {c d : Checklist}
    (h : c.set name mark = .ok d) :
    c.names ⊆ d.names := by
  intro other ho
  rw [mem_names_iff, mark?_set h]
  split_ifs
  · rfl
  · exact (mem_names_iff other c).mp ho

theorem mem_names_remove (name other : Text) (c : Checklist) :
    other ∈ (c.remove name).names ↔ other ≠ name ∧ other ∈ c.names := by
  rw [mem_names_iff, mem_names_iff, mark?_remove]
  by_cases ho : name = other
  · simp only [ho, ↓reduceIte, Option.isSome_none, Bool.false_eq_true, ne_eq, not_true_eq_false,
      false_and]
  · simp only [ho, Ne.symm ho, ↓reduceIte, ne_eq, not_false_eq_true, true_and]

/-- A checklist has rows for just the names and the marked categories that it was made of. -/
theorem mem_names_ofMarks {names : List Text} {marks : Assoc Mark} {c : Checklist}
    (h : ofMarks names marks = .ok c) (name : Text) :
    name ∈ c.names ↔ name ∈ names ∨ name ∈ marks.names := by
  rw [mem_names_iff, mark?_ofMarks h, ← List.mem_append]
  split_ifs with hm
  · exact iff_of_true rfl hm
  · exact iff_of_false Bool.false_ne_true hm

/-- The marks of a sound checklist are those of its rows. -/
theorem mark?_eq_some_iff {c : Checklist} (hc : c.Sound) (name : Text) (mark : Mark) :
    c.mark? name = some mark ↔ (name, mark) ∈ c.rows :=
  Assoc.get?_eq_some_iff hc.ordered.nodup

/-- What is selected are the categories with a mark that is not neutral. -/
theorem mem_names_selected {c : Checklist} (hc : c.Sound) (name : Text) :
    name ∈ c.selected.names ↔ ∃ mark, c.mark? name = some mark ∧ mark ≠ .neutral := by
  rw [← not_iff_not, ← Assoc.get?_eq_none_iff, get?_selected name hc, Option.filter_eq_none_iff]
  simp only [ne_eq, decide_not, Bool.not_eq_true', decide_eq_false_iff_not, not_exists, not_and]

end CategorySelection.Checklist
