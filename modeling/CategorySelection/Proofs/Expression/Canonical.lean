import CategorySelection.Proofs.Assoc
import CategorySelection.Proofs.Expression.Scan
/-!
The shapes of canonical expressions, and what reading finds in them: the included names and then the
excluded ones, each in their order, and nothing besides.
-/

namespace CategorySelection.Expression

theorem mem_namesMarked (mark : Mark) (name : Text) (marks : List (Text × Mark)) :
    name ∈ namesMarked mark marks ↔ (name, mark) ∈ marks := by
  constructor
  · intro h
    obtain ⟨⟨n,m⟩,hm,rfl⟩ := List.mem_map.mp h
    rw [List.mem_filter, decide_eq_true_eq] at hm
    obtain ⟨hm,rfl⟩ := hm
    exact hm
  · intro h
    exact List.mem_map.mpr ⟨(name, mark),List.mem_filter.mpr ⟨h,decide_eq_true rfl⟩,rfl⟩

/-- The names of one mark stand in the order of the table. -/
theorem namesMarked_sublist (mark : Mark) (marks : Assoc Mark) :
    (namesMarked mark marks).Sublist marks.names :=
  Assoc.names_filter_sublist _ marks

/-- Leaving out the neutral entries leaves the marked names as they are. -/
theorem namesMarked_filter (mark : Mark) (hm : mark ≠ .neutral) (marks : List (Text × Mark)) :
    namesMarked mark (marks.filter (·.2 ≠ .neutral)) = namesMarked mark marks := by
  rw [namesMarked, namesMarked, List.filter_filter]
  congr 1
  apply List.filter_congr
  intro entry _
  by_cases h : entry.2 = mark
  · simp only [h, hm, ne_eq, not_false_eq_true, decide_true, Bool.and_self]
  · simp only [h, decide_false, Bool.false_and]

@[simp] theorem writeClause_nil (mark : Mark) (operator : Text) (grouped : Bool) :
    writeClause mark operator grouped [] = [] := by
  cases grouped <;> rfl

theorem writeClause_singleton (mark : Mark) (operator : Text) (grouped : Bool) (name : Text) :
    writeClause mark operator grouped [name] = Atom.write ⟨name, mark⟩ := by
  have hlen : ¬1 < [name].length := lt_irrefl 1
  simp only [writeClause, hlen, decide_false, Bool.and_false, Bool.false_eq_true, ↓reduceIte,
    List.map_singleton]
  exact List.intercalate_singleton

theorem writeClause_ne_nil (mark : Mark) (operator : Text) (grouped : Bool) (names : List Text)
    (h : names ≠ []) : writeClause mark operator grouped names ≠ [] := by
  obtain ⟨name,rest,rfl⟩ := List.exists_cons_of_ne_nil h
  rw [writeClause]
  split_ifs
  · exact List.append_ne_nil_of_left_ne_nil (List.append_ne_nil_of_left_ne_nil (by decide) _) _
  · have hpos := length_write_pos ⟨name,mark⟩
    cases rest with
    | nil =>
      rw [Text.join, List.map_singleton, List.intercalate_singleton]
      exact List.ne_nil_of_length_pos hpos
    | cons other rest =>
      rw [Text.join, List.map_cons, List.map_cons, List.intercalate_cons_cons]
      exact List.append_ne_nil_of_left_ne_nil
        (List.append_ne_nil_of_left_ne_nil (List.ne_nil_of_length_pos hpos) _) _

/-- Without excluded names the expression is one clause in no parentheses. -/
theorem write_of_excluded_nil (marks : List (Text × Mark)) (h : namesMarked .excluded marks = []) :
    write marks = writeClause .included "|" false (namesMarked .included marks) := by
  rw [write]
  simp only [h, writeClause_nil, List.isEmpty_nil, Bool.not_true, Bool.and_false]
  by_cases hi : namesMarked .included marks = []
  · rw [hi, writeClause_nil]
    rfl
  · have hne := writeClause_ne_nil .included "|" false _ hi
    rw [List.filter_cons_of_pos (by simpa using hne)]
    exact List.intercalate_singleton

/-- Where nothing is included, the expression is the clause of what is excluded. -/
theorem write_of_included_nil (marks : List (Text × Mark)) (h : namesMarked .included marks = []) :
    write marks = writeClause .excluded "&" false (namesMarked .excluded marks) := by
  rw [write]
  simp only [h, writeClause_nil, List.isEmpty_nil, Bool.not_true, Bool.false_and]
  by_cases he : namesMarked .excluded marks = []
  · rw [he, writeClause_nil]
    rfl
  · have hne := writeClause_ne_nil .excluded "&" false _ he
    rw [List.filter_cons_of_neg (by decide), List.filter_cons_of_pos (by simpa using hne)]
    exact List.intercalate_singleton

/-- Where some categories are included and some are excluded, two clauses are joined by an
ampersand, and each with several atoms stands in parentheses. -/
theorem write_of_both (marks : List (Text × Mark)) (hi : namesMarked .included marks ≠ [])
    (he : namesMarked .excluded marks ≠ []) :
    write marks = writeClause .included "|" true (namesMarked .included marks) ++
      ('&' : CodePoint) :: writeClause .excluded "&" true (namesMarked .excluded marks) := by
  have hboth : (!(namesMarked .included marks).isEmpty && !(namesMarked .excluded marks).isEmpty) =
      true := by
    simp only [List.isEmpty_eq_false_iff.mpr hi, List.isEmpty_eq_false_iff.mpr he, Bool.not_false,
      Bool.and_self]
  have hin := writeClause_ne_nil .included "|" true _ hi
  have hex := writeClause_ne_nil .excluded "&" true _ he
  rw [write]
  simp only [hboth]
  rw [List.filter_cons_of_pos (by simpa using hin), List.filter_cons_of_pos (by simpa using hex),
    Text.join, List.filter_nil, List.intercalate_cons_cons, List.intercalate_singleton,
    List.append_assoc]
  rfl

/-- The canonical expression does not show neutral entries. -/
theorem write_filter (marks : List (Text × Mark)) :
    write (marks.filter (·.2 ≠ .neutral)) = write marks := by
  simp only [write, namesMarked_filter .included (by decide),
    namesMarked_filter .excluded (by decide)]

/-- Reading a text finds some atoms and nothing unrecognized, and from there on what reading the
rest finds. -/
structure Finds (t : Text) (found : List Atom) (rest : Text) : Prop where
  atoms_eq : atoms t = found ++ atoms rest
  unrecognized_eq : unrecognized t = unrecognized rest

namespace Finds

theorem refl (t : Text) : Finds t [] t := ⟨rfl,rfl⟩

/-- What two readings find one after the other is found together. -/
theorem trans {t u v : Text} {as bs : List Atom} (h : Finds t as u) (h' : Finds u bs v) :
    Finds t (as ++ bs) v := by
  refine ⟨?_,h.unrecognized_eq.trans h'.unrecognized_eq⟩
  rw [h.atoms_eq, h'.atoms_eq, List.append_assoc]

/-- An atom is found where nothing that goes on with its name follows. -/
theorem atom {a : Atom} (ha : a.Proper) {t : Text} (ht : StopsName t) :
    Finds (a.write ++ t) [a] t :=
  ⟨atoms_atom_append ha ht,unrecognized_atom_append ha ht⟩

theorem separator {c : CodePoint} (hc : isBreak c = true) (hs : isSeparator c = true) (t : Text) :
    Finds (c :: t) [] t :=
  ⟨atoms_break_cons hc t,unrecognized_separator_cons hc hs t⟩

/-- Atoms joined by a separator are found one after the other. -/
theorem join {c : CodePoint} (hc : isBreak c = true) (hs : isSeparator c = true) (as : List Atom)
    (has : ∀ a ∈ as, a.Proper) {t : Text} (ht : StopsName t) :
    Finds (Text.join [c] (as.map Atom.write) ++ t) as t := by
  induction as with
  | nil => exact refl t
  | cons a rest ih =>
    have ha := has a List.mem_cons_self
    cases rest with
    | nil =>
      rw [List.map_singleton, Text.join, List.intercalate_singleton]
      exact atom ha ht
    | cons b rest =>
      rw [List.map_cons, List.map_cons, Text.join, List.intercalate_cons_cons, List.append_assoc,
        List.append_assoc, List.singleton_append, ← List.map_cons]
      have hrest := ih fun x hx => has x (List.mem_cons_of_mem a hx)
      exact (atom ha (stopsName_cons hc _)).trans ((separator hc hs _).trans hrest)

/-- A clause is found with or without the parentheses around it. -/
theorem clause {c : CodePoint} (hc : isBreak c = true) (hs : isSeparator c = true) (mark : Mark)
    (hm : mark ≠ .neutral) (grouped : Bool) (names : List Text)
    (hn : ∀ name ∈ names, Category.isName name = true) {t : Text} (ht : StopsName t) :
    Finds (writeClause mark [c] grouped names ++ t) (names.map (⟨·, mark⟩)) t := by
  have has : ∀ a ∈ names.map (Atom.mk · mark), a.Proper := by
    intro a ha
    obtain ⟨name,hname,rfl⟩ := List.mem_map.mp ha
    exact ⟨hn name hname,hm⟩
  have hjoin {u : Text} (hu : StopsName u) := join hc hs _ has hu
  simp only [List.map_map, Function.comp_def] at hjoin
  rw [writeClause]
  split_ifs
  · have hopen : isBreak '(' = true ∧ isSeparator '(' = true := by decide
    have hclose : isBreak ')' = true ∧ isSeparator ')' = true := by decide
    rw [List.append_assoc, List.append_assoc]
    have hgroup := (hjoin (stopsName_cons hclose.1 t)).trans (separator hclose.1 hclose.2 t)
    rw [List.append_nil] at hgroup
    exact (separator hopen.1 hopen.2 _).trans hgroup
  · exact hjoin ht

end Finds

section Alphabet

def isGraphic (c : CodePoint) : Bool := c.isBetween 0x21 0x7e

/-- Atoms are written in letters, digits and the signs of their operators. -/
theorem isGraphic_of_mem_atom {a : Atom} (ha : Category.isName a.name = true) {c : CodePoint}
    (hc : c ∈ a.write) : isGraphic c = true := by
  rw [Atom.write, List.mem_append, List.mem_append] at hc
  rcases hc with (hc | hc) | hc
  · have hkeyword : (Text.ofString "Category").all isGraphic = true := by decide
    exact List.all_eq_true.mp hkeyword c hc
  · have hoperators : (Text.ofString "!=").all isGraphic = true := by decide
    apply List.all_eq_true.mp hoperators
    split_ifs at hc
    · exact List.mem_cons_of_mem _ hc
    · exact hc
  · have hname := ((isName_iff a.name).mp ha).2 c hc
    simp only [Category.isNameChar, CodePoint.isAsciiLetter, CodePoint.isAsciiDigit, isGraphic,
      CodePoint.isBetween, Bool.or_eq_true, Bool.and_eq_true, decide_eq_true_eq] at hname ⊢
    omega

/-- A clause is written in printable ASCII without blanks. -/
theorem isGraphic_of_mem_writeClause {mark : Mark} {operator : Text} {grouped : Bool}
    {names : List Text} (ho : operator.all isGraphic = true)
    (hn : ∀ name ∈ names, Category.isName name = true) {c : CodePoint}
    (hc : c ∈ writeClause mark operator grouped names) : isGraphic c = true := by
  have hclause (hj : c ∈ Text.join operator (names.map fun name => Atom.write ⟨name,mark⟩)) :
      isGraphic c = true := by
    rcases Text.mem_join hj with hc | ⟨part,hpart,hc⟩
    · exact List.all_eq_true.mp ho c hc
    · obtain ⟨name,hname,rfl⟩ := List.mem_map.mp hpart
      exact isGraphic_of_mem_atom (hn name hname) hc
  have hparentheses : (Text.ofString "()").all isGraphic = true := by decide
  rw [writeClause] at hc
  split_ifs at hc
  · rw [List.mem_append, List.mem_append] at hc
    rcases hc with (hc | hc) | hc
    · exact List.all_eq_true.mp hparentheses c
        (List.mem_of_mem_head? (List.mem_singleton.mp hc ▸ rfl))
    · exact hclause hc
    · exact List.all_eq_true.mp hparentheses c (List.mem_cons_of_mem _ hc)
  · exact hclause hc

/-- Canonical expressions are written in graphic characters. -/
theorem isGraphic_of_mem_write {marks : Assoc Mark}
    (hn : ∀ name ∈ marks.names, Category.isName name = true) {c : CodePoint}
    (hc : c ∈ write marks) : isGraphic c = true := by
  have hmarked (mark : Mark) : ∀ name ∈ namesMarked mark marks, Category.isName name = true :=
    fun name hname => hn name ((namesMarked_sublist mark marks).subset hname)
  have hor : (Text.ofString "|").all isGraphic = true := by decide
  have hand : (Text.ofString "&").all isGraphic = true := by decide
  rw [write] at hc
  rcases Text.mem_join hc with hc | ⟨part,hpart,hc⟩
  · exact List.all_eq_true.mp hand c hc
  · rcases List.mem_pair.mp (List.mem_filter.mp hpart).1 with rfl | rfl
    · exact isGraphic_of_mem_writeClause hor (hmarked .included) hc
    · exact isGraphic_of_mem_writeClause hand (hmarked .excluded) hc

theorem trim_write {marks : Assoc Mark} (hn : ∀ name ∈ marks.names, Category.isName name = true) :
    (write marks).trim = write marks := by
  apply Text.trim_eq_self
  intro c hc
  have hbetween := isGraphic_of_mem_write hn hc
  simp only [isGraphic, CodePoint.isBlank, CodePoint.isBetween, Bool.or_eq_false_iff,
    Bool.and_eq_true, Bool.and_eq_false_iff, decide_eq_false_iff_not, decide_eq_true_eq,
    beq_eq_false_iff_ne, ne_eq, Fin.ext_iff] at hbetween ⊢
  simp at hbetween ⊢
  omega

end Alphabet

end CategorySelection.Expression
