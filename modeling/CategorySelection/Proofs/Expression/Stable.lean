import CategorySelection.Proofs.Checklist.Selected
import CategorySelection.Proofs.Expression.RoundTrip
import CategorySelection.Proofs.Session.Draft
/-!
Canonical expressions. Putting an expression into its canonical form keeps what it says about every
category and does not depend on the categories that are known besides. What the form leaves as it is
are exactly the texts of one shape, which is given here clause by clause.
-/

namespace CategorySelection.Expression

/-- Puts an expression into its canonical form by way of a checklist that shows known categories
too. -/
def canonicalize {σ : Type} (known : List Text) (t : Text) : Action σ Text := do
  let checklist ← Checklist.start known (← read t)
  return checklist.expression

/-- The names of a clause: one or more names of categories in increasing order. -/
structure IsClause (names : List Text) : Prop where
  nonempty : names ≠ []
  named : ∀ name ∈ names, Category.isName name = true
  increasing : names.SortedLT

def includeClause (names : List Text) : Text :=
  Text.join "|" (names.map fun name => "Category=" ++ name)

def excludeClause (names : List Text) : Text :=
  Text.join "&" (names.map fun name => "Category!=" ++ name)

/-- A clause as it stands beside another one: in parentheses if it has several atoms. -/
def beside (names : List Text) (clause : Text) : Text :=
  if 1 < names.length then "(" ++ clause ++ ")" else clause

/-- The shape of canonical expressions: nothing, or one clause, or a clause that includes and behind
it one that excludes other categories. -/
inductive IsCanonical : Text → Prop
  | empty : IsCanonical []
  | including {names : List Text} : IsClause names → IsCanonical (includeClause names)
  | excluding {names : List Text} : IsClause names → IsCanonical (excludeClause names)
  | both {names others : List Text} : IsClause names → IsClause others →
    (∀ name ∈ names, name ∉ others) →
    IsCanonical (beside names (includeClause names) ++ "&" ++ beside others (excludeClause others))

section Shape

/-- What is included is written as a clause of its own, or beside another one. -/
theorem writeClause_included (grouped : Bool) (names : List Text) :
    writeClause .included "|" grouped names =
      if grouped then beside names (includeClause names) else includeClause names := by
  have hkeyword : Text.ofString "Category=" = Text.ofString "Category" ++ operatorOf .included := by
    decide
  have hatom (name : Text) : Atom.write ⟨name,.included⟩ = "Category=" ++ name := by
    rw [write_eq, hkeyword, List.append_assoc]
  cases grouped
  · simp only [writeClause, hatom, Bool.false_and, Bool.false_eq_true, ↓reduceIte, includeClause]
  · simp only [writeClause, hatom, Bool.true_and, decide_eq_true_eq, ↓reduceIte, beside,
      includeClause]

/-- What is excluded is written as a clause of its own, or beside another one. -/
theorem writeClause_excluded (grouped : Bool) (names : List Text) :
    writeClause .excluded "&" grouped names =
      if grouped then beside names (excludeClause names) else excludeClause names := by
  have hkeyword : Text.ofString "Category!=" = Text.ofString "Category" ++
      operatorOf .excluded := by
    decide
  have hatom (name : Text) : Atom.write ⟨name,.excluded⟩ = "Category!=" ++ name := by
    rw [write_eq, hkeyword, List.append_assoc]
  cases grouped
  · simp only [writeClause, hatom, Bool.false_and, Bool.false_eq_true, ↓reduceIte, excludeClause]
  · simp only [writeClause, hatom, Bool.true_and, decide_eq_true_eq, ↓reduceIte, beside,
      excludeClause]

variable {marks : Assoc Mark}

theorem namesMarked_sortedLT (mark : Mark) (hs : marks.names.SortedLT) :
    (namesMarked mark marks).SortedLT :=
  (hs.pairwise.sublist (namesMarked_sublist mark marks)).sortedLT

/-- Increasing names are those with a mark as soon as they are the same names. -/
theorem namesMarked_eq {mark : Mark} {names : List Text} (hs : marks.names.SortedLT)
    (hn : names.SortedLT) (h : ∀ name, (name, mark) ∈ marks ↔ name ∈ names) :
    namesMarked mark marks = names := by
  apply (namesMarked_sortedLT mark hs).eq_of_mem_iff hn
  intro name
  rw [mem_namesMarked, h]

/-- The names of one mark of a selection in order make a clause. -/
theorem isClause_namesMarked {mark : Mark} (h : Selection marks) (hs : marks.names.SortedLT)
    (hne : namesMarked mark marks ≠ []) : IsClause (namesMarked mark marks) where
  nonempty := hne
  named name hname := h.named name ((namesMarked_sublist mark marks).subset hname)
  increasing := namesMarked_sortedLT mark hs

/-- What is written of increasing names has the canonical shape. -/
theorem isCanonical_write (h : Selection marks) (hs : marks.names.SortedLT) :
    IsCanonical (write marks) := by
  by_cases he : namesMarked .excluded marks = []
  · rw [write_of_excluded_nil marks he, writeClause_included]
    by_cases hi : namesMarked .included marks = []
    · rw [hi]
      exact .empty
    · exact .including (isClause_namesMarked h hs hi)
  by_cases hi : namesMarked .included marks = []
  · rw [write_of_included_nil marks hi, writeClause_excluded]
    exact .excluding (isClause_namesMarked h hs he)
  have hdisjoint : ∀ name ∈ namesMarked .included marks, name ∉ namesMarked .excluded marks := by
    intro name hni hne
    exact (List.nodup_append.mp (nodup_namesMarked_append marks h.nodup)).2.2 name hni name hne rfl
  have hboth :=
    IsCanonical.both (isClause_namesMarked h hs hi) (isClause_namesMarked h hs he) hdisjoint
  rw [write_of_both marks hi he, writeClause_included, writeClause_excluded]
  rw [List.append_assoc] at hboth
  exact hboth

def marksOf (included excluded : List Text) : Assoc Mark :=
  Assoc.sorted (included.map (·, .included) ++ excluded.map (·, .excluded))

theorem names_pairs (included excluded : List Text) :
    Assoc.names (included.map (·, Mark.included) ++ excluded.map (·, Mark.excluded)) =
      included ++ excluded := by
  simp [Assoc.names, Function.comp_def]

theorem mem_marksOf (included excluded : List Text) (name : Text) (mark : Mark) :
    (name, mark) ∈ marksOf included excluded ↔
      mark = .included ∧ name ∈ included ∨ mark = .excluded ∧ name ∈ excluded := by
  rw [marksOf, Assoc.mem_sorted]
  simp only [List.mem_append, List.mem_map, Prod.mk.injEq]
  grind

theorem selection_marksOf {included excluded : List Text} (hi : included.SortedLT)
    (he : excluded.SortedLT) (hn : ∀ name ∈ included ++ excluded, Category.isName name = true)
    (hd : ∀ name ∈ included, name ∉ excluded) :
    Selection (marksOf included excluded) ∧ (marksOf included excluded).names.SortedLT := by
  have hnodup : (included ++ excluded).Nodup := by
    refine List.nodup_append.mpr ⟨hi.nodup,he.nodup,?_⟩
    rintro name hname other hother rfl
    exact hd name hname hother
  have hsorted : (marksOf included excluded).names.SortedLT := by
    apply Assoc.sorted_names_sortedLT
    rwa [names_pairs]
  refine ⟨⟨hsorted.nodup,?_,?_⟩,hsorted⟩
  · intro name hname
    obtain ⟨⟨n,mark⟩,hm,rfl⟩ := List.mem_map.mp hname
    rw [mem_marksOf] at hm
    apply hn
    rw [List.mem_append]
    exact hm.imp And.right And.right
  · intro name hget
    have hm := Assoc.mem_of_get?_eq_some hget
    rw [mem_marksOf] at hm
    rcases hm with ⟨hm,_⟩ | ⟨hm,_⟩ <;> cases hm

/-- A text of the canonical shape is what is written of some increasing names. Every clause gives
the names of one mark, and a clause that is not there gives none. -/
theorem exists_write_of_isCanonical {t : Text} (h : IsCanonical t) :
    ∃ marks : Assoc Mark, Selection marks ∧ marks.names.SortedLT ∧ write marks = t := by
  have hwritten (included excluded : List Text) (hi : included.SortedLT) (he : excluded.SortedLT)
      (hn : ∀ name ∈ included ++ excluded, Category.isName name = true)
      (hd : ∀ name ∈ included, name ∉ excluded) :
      ∃ marks : Assoc Mark, Selection marks ∧ marks.names.SortedLT ∧
        namesMarked .included marks = included ∧ namesMarked .excluded marks = excluded := by
    obtain ⟨hselection,hsorted⟩ := selection_marksOf hi he hn hd
    refine ⟨_,hselection,hsorted,namesMarked_eq hsorted hi ?_,namesMarked_eq hsorted he ?_⟩
    all_goals
      intro name
      rw [mem_marksOf]
      simp
  have hnone : ([] : List Text).SortedLT := List.Pairwise.nil.sortedLT
  cases h with
  | empty =>
    exact ⟨[],.nil,hnone,rfl⟩
  | @including names hc =>
    obtain ⟨marks,hs,hsorted,hmi,hme⟩ :=
      hwritten names [] hc.increasing hnone (by simpa using hc.named) (by simp)
    refine ⟨marks,hs,hsorted,?_⟩
    rw [write_of_excluded_nil marks hme, writeClause_included, hmi]
    rfl
  | @excluding names hc =>
    obtain ⟨marks,hs,hsorted,hmi,hme⟩ :=
      hwritten [] names hnone hc.increasing (by simpa using hc.named) (by simp)
    refine ⟨marks,hs,hsorted,?_⟩
    rw [write_of_included_nil marks hmi, writeClause_excluded, hme]
    rfl
  | @both names others hi he hd =>
    have hn : ∀ name ∈ names ++ others, Category.isName name = true := by
      intro name hname
      exact (List.mem_append.mp hname).elim (hi.named name) (he.named name)
    obtain ⟨marks,hs,hsorted,hmi,hme⟩ := hwritten names others hi.increasing he.increasing hn hd
    refine ⟨marks,hs,hsorted,?_⟩
    rw [write_of_both marks (by rw [hmi]; exact hi.nonempty) (by rw [hme]; exact he.nonempty),
      writeClause_included, writeClause_excluded, hmi, hme, List.append_assoc]
    rfl

end Shape

section Normal

theorem selection_sorted {marks : Assoc Mark} (h : Selection marks) : Selection marks.sorted := by
  refine ⟨(Assoc.sorted_names_sortedLT marks h.nodup).nodup,?_,?_⟩
  · intro name hname
    obtain ⟨entry,he,rfl⟩ := List.mem_map.mp hname
    exact h.named _ (List.mem_map_of_mem ((Assoc.mem_sorted entry marks).mp he))
  · intro name
    rw [Assoc.get?_sorted name marks h.nodup]
    exact h.marked name

/-- What is written of a selection says the same about every category. -/
theorem get?_parse_write_of_selection {marks : Assoc Mark} (h : Selection marks) (name : Text) :
    Assoc.get? name (parse (write marks)) = marks.get? name := by
  rw [get?_parse_write marks h.nodup h.named]
  cases hget : marks.get? name with
  | none => rfl
  | some mark =>
    have hmark : mark ≠ .neutral := fun he => h.marked name (he ▸ hget)
    simp only [Option.filter_some, ne_eq, hmark, not_false_eq_true, decide_true, ↓reduceIte]

/-- The canonical form of an expression: what is written of its marks in increasing order. -/
theorem canonicalize_result {σ : Type} {known : List Text}
    (hk : ∀ name ∈ known, Category.isName name = true) (t : Text) (s : σ) :
    (canonicalize known t s).result = .ok (write (parse t).sorted) := by
  have hparse := selection_parse t
  have hnames : ∀ name ∈ known ++ (parse t).names, Category.isName name = true := by
    intro name hname
    exact (List.mem_append.mp hname).elim (hk name) (hparse.named name)
  obtain ⟨c,hc⟩ := Checklist.ofMarks_eq_ok hnames
  have hselected : c.selected = (parse t).sorted :=
    Checklist.selected_eq_sorted (Checklist.sound_ofMarks hc) hparse.nodup
      (Checklist.get?_selected_ofMarks hparse.marked hc)
  have hread : (read t : Action σ (Assoc Mark)) s = ⟨.ok (parse t),s,parseRecords t ++ []⟩ := rfl
  rw [canonicalize, Action.bind_of_ok hread, Checklist.start]
  simp only [Action.bind_apply, Action.write_apply, Action.ofExcept_apply, hc, Action.pure_apply]
  rw [Checklist.expression_eq_write_selected, hselected]

/-- The canonical form of an expression has the marks of the expression. -/
theorem get?_parse_canonical (t name : Text) :
    Assoc.get? name (parse (write (parse t).sorted)) = Assoc.get? name (parse t) := by
  have hparse := selection_parse t
  rw [get?_parse_write_of_selection (selection_sorted hparse),
    Assoc.get?_sorted name (parse t) hparse.nodup]

/-- An expression is its own canonical form just if it has the canonical shape: reading it back
gives the same marks up to their order, and both are in increasing order. -/
theorem canonical_eq_iff (t : Text) : write (parse t).sorted = t ↔ IsCanonical t := by
  have hparse := selection_parse t
  constructor
  · intro h
    rw [← h]
    exact isCanonical_write (selection_sorted hparse) (Assoc.sorted_names_sortedLT _ hparse.nodup)
  · intro h
    obtain ⟨marks,hs,hsorted,rfl⟩ := exists_write_of_isCanonical h
    have hsame : (parse (write marks)).sorted = marks := by
      apply Assoc.eq_of_get?_eq (Assoc.sorted_names_sortedLT _ hparse.nodup) hsorted
      intro name
      rw [Assoc.get?_sorted name _ hparse.nodup, get?_parse_write_of_selection hs]
    rw [hsame]

end Normal

/-- The canonical form of an expression keeps what it says about every category, does not depend on
the known categories, and is its own canonical form. The expressions that are their own canonical
form are exactly those of the canonical shape, so a session that was just opened is unmodified
exactly if its host has an expression of that shape, the blanks at its ends aside. -/
theorem canonical_form :
    (∀ (known others : List Text), (∀ name ∈ known, Category.isName name = true) →
      (∀ name ∈ others, Category.isName name = true) → ∀ t : Text,
      ∃ u : Text,
        (∀ {σ : Type} (s : σ), (canonicalize known t s).result = .ok u ∧
          (canonicalize others t s).result = .ok u ∧ (canonicalize others u s).result = .ok u) ∧
        (∀ name, Assoc.get? name (parse u) = Assoc.get? name (parse t)) ∧
        (u = t ↔ IsCanonical t)) ∧
    ∀ {σ : Type} (catalog : Catalog σ) (host : Text) (s : Session) (w : σ),
      Session.Opens catalog host (s, w) → (s.isModified = false ↔ IsCanonical host.trim) := by
  constructor
  · intro known others hk ho t
    have hsame := get?_parse_canonical t
    refine ⟨write (parse t).sorted,?_,hsame,canonical_eq_iff t⟩
    intro σ s
    refine ⟨canonicalize_result hk t s,canonicalize_result ho t s,?_⟩
    rw [canonicalize_result ho,
      Assoc.sorted_eq_of_get?_eq (selection_parse _).nodup (selection_parse t).nodup
      hsame]
  · intro σ catalog host s w hopen
    have hdraft := hopen.shows.draft_eq
    rw [← parse_trim] at hdraft
    rw [Session.isModified, decide_eq_false_iff_not, not_not, hdraft, hopen.host_eq,
      canonical_eq_iff]

/-- Repeated and contradicting atoms out of order are put into their canonical form, which an opened
session leaves unmodified. -/
theorem canonical_form_garbled :
    (canonicalize ["x"] "Category=b; Category!=c Category!=b|Category=a" ()).result =
      .ok "(Category=a|Category=b)&Category!=c" ∧
    (canonicalize [] "(Category=a|Category=b)&Category!=c" ()).result =
      .ok "(Category=a|Category=b)&Category!=c" ∧
    ∃ s w, Session.Opens (⟨Store.memory,"k",["x"]⟩ : Catalog (Assoc Text))
      " (Category=a|Category=b)&Category!=c" (s, w) ∧ s.isModified = false := by
  have hgarbled : (canonicalize ["x"] "Category=b; Category!=c Category!=b|Category=a" ()).result =
      .ok "(Category=a|Category=b)&Category!=c" := by decide
  have hshape : IsCanonical "(Category=a|Category=b)&Category!=c" :=
    @IsCanonical.both ["a","b"] ["c"] ⟨by decide,by decide,by decide⟩
      ⟨by decide,by decide,by decide⟩ (by decide)
  refine ⟨hgarbled,?_,?_⟩
  · obtain ⟨u,hu,_,_⟩ := canonical_form.1 ["x"] [] (by decide) (by decide)
      "Category=b; Category!=c Category!=b|Category=a"
    have hresult := (hu ()).1
    rw [hgarbled, Except.ok.injEq] at hresult
    rw [hresult]
    exact (hu ()).2.2
  · have hopen : Session.Opens (⟨Store.memory,"k",["x"]⟩ : Catalog (Assoc Text))
        " (Category=a|Category=b)&Category!=c"
        (⟨"s",⟨[("a",.included),("b",.included),("c",.excluded),("x",.neutral)]⟩,["x"],
          "(Category=a|Category=b)&Category!=c"⟩, _) :=
      .named (show (Session.openAs "s" _ _ []).result = _ by decide +kernel)
    exact ⟨_,_,hopen,(canonical_form.2 _ _ _ _ hopen).mpr hshape⟩

end CategorySelection.Expression
