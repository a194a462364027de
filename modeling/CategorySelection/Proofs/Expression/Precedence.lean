import CategorySelection.Proofs.Expression.Canonical
import CategorySelection.Proofs.Expression.Formula
/-!
Canonical expressions as formulas. No pair of parentheses, and no text outside of them, holds both
operators, so which of them binds tighter makes no difference to what the expression says.
-/

namespace CategorySelection.Formula

def oneOperator : List (List Operator) := [[.and], [.or]]

theorem eq_or_eq_of_ne {loose tight : Operator} (hne : loose ≠ tight) (operator : Operator) :
    operator = loose ∨ operator = tight := by
  cases operator <;> cases loose <;> cases tight <;> simp at hne ⊢

/-- Where no level mixes the operators, they may bind in either order. The three parts are what the
induction needs of an operand, of a chain of the tighter operator, and of a whole expression. -/
theorem Reads.of_oneOperator {loose tight : Operator} (hne : loose ≠ tight) {level : List Operator}
    {t : Text} {f : Formula} (h : Reads oneOperator level t f) :
    (level = [] → Reads [[loose, tight]] [] t f) ∧
      (level = [tight] → Reads [[loose, tight]] [tight] t f) ∧
      (level = [loose] ∨ level = [tight] → Reads [[loose, tight]] [loose, tight] t f) := by
  induction h with
  | atom ha => exact ⟨fun _ => .atom ha,by simp,by simp⟩
  | @group level t f hm _ ih =>
    have hlevel : level = [loose] ∨ level = [tight] := by
      rcases List.mem_pair.mp hm with rfl | rfl
      · exact (eq_or_eq_of_ne hne .and).imp (congrArg ([·])) (congrArg ([·]))
      · exact (eq_or_eq_of_ne hne .or).imp (congrArg ([·])) (congrArg ([·]))
    exact ⟨fun _ => .group (List.mem_singleton.mpr rfl) (ih.2.2 hlevel),by simp,by simp⟩
  | @single operator level t f _ ih =>
    refine ⟨by simp,?_,?_⟩
    · intro hl
      obtain ⟨rfl,rfl⟩ := List.cons.inj hl
      exact .single _ (ih.1 rfl)
    · rintro (hl | hl) <;> obtain ⟨rfl,rfl⟩ := List.cons.inj hl
      · exact .single _ (.single _ (ih.1 rfl))
      · exact .single _ (.single _ (ih.1 rfl))
  | @chain operator level t u f g _ _ ih₁ ih₂ =>
    refine ⟨by simp,?_,?_⟩
    · intro hl
      obtain ⟨rfl,rfl⟩ := List.cons.inj hl
      exact .chain (ih₁.1 rfl) (ih₂.2.1 rfl)
    · rintro (hl | hl) <;> obtain ⟨rfl,rfl⟩ := List.cons.inj hl
      · exact .chain (.single _ (ih₁.1 rfl)) (ih₂.2.2 (Or.inl rfl))
      · exact .single _ (.chain (ih₁.1 rfl) (ih₂.2.1 rfl))

def joined (operator : Operator) : Atom → List Atom → Formula
  | a, [] => .atom a
  | a, b :: rest => .join operator (.atom a) (joined operator b rest)

/-- Atoms joined by the operator for either hold if one of them does. -/
theorem holds_joined_or (categories : Set Text) (a : Atom) (rest : List Atom) :
    (joined .or a rest).Holds categories ↔ ∃ b ∈ a :: rest, (Formula.atom b).Holds categories := by
  induction rest generalizing a with
  | nil => simp only [joined, List.mem_singleton, exists_eq_left]
  | cons b rest ih => simp only [joined, Holds, ih, List.mem_cons, exists_eq_or_imp]

/-- Atoms joined by the operator for both hold if all of them do. -/
theorem holds_joined_and (categories : Set Text) (a : Atom) (rest : List Atom) :
    (joined .and a rest).Holds categories ↔ ∀ b ∈ a :: rest, (Formula.atom b).Holds categories := by
  induction rest generalizing a with
  | nil => simp only [joined, List.mem_singleton, forall_eq]
  | cons b rest ih => simp only [joined, Holds, ih, List.forall_mem_cons]

/-- What atoms joined by one operator are written as is read at the level of this operator. -/
theorem reads_joined (groups : List (List Operator)) (operator : Operator) (a : Atom)
    (rest : List Atom) (h : ∀ b ∈ a :: rest, b.Proper) :
    Reads groups [operator] (Text.join [operator.symbol] ((a :: rest).map Atom.write))
      (joined operator a rest) := by
  induction rest generalizing a with
  | nil =>
    rw [List.map_singleton, Text.join, List.intercalate_singleton]
    exact .single operator (.atom (h a List.mem_cons_self))
  | cons b rest ih =>
    rw [List.map_cons, List.map_cons, Text.join, List.intercalate_cons_cons, List.append_assoc,
      List.singleton_append, ← List.map_cons]
    exact .chain (.atom (h a List.mem_cons_self)) (ih b fun c hc => h c (List.mem_cons_of_mem a hc))

section Clause

variable (operator : Operator) (mark : Mark) (hm : mark ≠ .neutral) (name : Text) (rest : List Text)
  (hn : ∀ n ∈ name :: rest, Category.isName n = true)
include hm hn

/-- A clause in no parentheses is a chain of its operator. -/
theorem reads_writeClause (groups : List (List Operator)) :
    Reads groups [operator]
      (Expression.writeClause mark [operator.symbol] false (name :: rest))
      (joined operator ⟨name, mark⟩ (rest.map (⟨·, mark⟩))) := by
  have hproper : ∀ a ∈ (⟨name, mark⟩ : Atom) :: rest.map (⟨·, mark⟩), a.Proper := by
    intro a ha
    obtain ⟨n,hmem,rfl⟩ : ∃ n ∈ name :: rest, (⟨n, mark⟩ : Atom) = a := by simpa [eq_comm] using ha
    exact ⟨hn n hmem,hm⟩
  have h := reads_joined groups operator ⟨name, mark⟩ (rest.map (⟨·, mark⟩)) hproper
  simpa only [Expression.writeClause, Bool.false_and, Bool.false_eq_true, ↓reduceIte, List.map_cons,
    List.map_map, Function.comp_def] using h

/-- A clause that is one of two is an operand: one atom, or a group. -/
theorem reads_writeClause_grouped {groups : List (List Operator)} (hg : [operator] ∈ groups) :
    Reads groups []
      (Expression.writeClause mark [operator.symbol] true (name :: rest))
      (joined operator ⟨name, mark⟩ (rest.map (⟨·, mark⟩))) := by
  cases rest with
  | nil =>
    rw [Expression.writeClause_singleton]
    exact .atom ⟨hn name List.mem_cons_self,hm⟩
  | cons other rest =>
    have h := reads_writeClause operator mark hm name (other :: rest) hn groups
    have hlen : 1 < (name :: other :: rest).length := by simp
    rw [Expression.writeClause] at h ⊢
    simp only [hlen, decide_true, Bool.and_self, ↓reduceIte, Bool.false_and,
      Bool.false_eq_true] at h ⊢
    exact .group hg h

end Clause

/-- A test has one of the included categories, if there are any, and none of the excluded ones. -/
def Wanted (marks : Assoc Mark) (categories : Set Text) : Prop :=
  ((∀ name, (name, .included) ∉ marks) ∨ ∃ name ∈ categories, (name, .included) ∈ marks) ∧
    ∀ name ∈ categories, (name, .excluded) ∉ marks

/-- A clause of what is included holds if the test has one of the categories. -/
theorem holds_included (categories : Set Text) (name : Text) (rest : List Text) :
    (joined .or ⟨name, .included⟩ (rest.map (⟨·, .included⟩))).Holds categories ↔
      ∃ n ∈ categories, n ∈ name :: rest := by
  have hatom (n : Text) : (atom ⟨n, .included⟩).Holds categories ↔ n ∈ categories := by
    simp only [Holds, ↓reduceIte]
  rw [holds_joined_or]
  simp only [List.mem_cons, List.mem_map, exists_eq_or_imp, hatom, exists_exists_and_eq_and]
  constructor
  · rintro (h | ⟨n,hn,h⟩)
    · exact ⟨name,h,Or.inl rfl⟩
    · exact ⟨n,h,Or.inr hn⟩
  · rintro ⟨n,h,rfl | hn⟩
    · exact Or.inl h
    · exact Or.inr ⟨n,hn,h⟩

/-- A clause of what is excluded holds if the test has none of the categories. -/
theorem holds_excluded (categories : Set Text) (name : Text) (rest : List Text) :
    (joined .and ⟨name, .excluded⟩ (rest.map (⟨·, .excluded⟩))).Holds categories ↔
      ∀ n ∈ categories, n ∉ name :: rest := by
  have hatom (n : Text) : (atom ⟨n, .excluded⟩).Holds categories ↔ n ∉ categories := by
    simp only [Holds, reduceCtorEq, ↓reduceIte]
  rw [holds_joined_and]
  simp only [List.mem_cons, List.mem_map, forall_eq_or_imp, hatom, forall_exists_index, and_imp,
    forall_apply_eq_imp_iff₂, not_or]
  constructor
  · rintro ⟨h,hrest⟩ n hn
    exact ⟨fun he => h (he ▸ hn),fun hm => hrest n hm hn⟩
  · intro h
    exact ⟨fun hn => (h name hn).1 rfl,fun n hm hn => (h n hn).2 hm⟩

/-- The formula of a canonical expression, read with one operator for each pair of parentheses. -/
theorem reads_write (marks : Assoc Mark) (hn : ∀ name ∈ marks.names, Category.isName name = true)
    (hsome : ∃ entry ∈ marks, entry.2 ≠ .neutral) :
    ∃ operator f, Reads oneOperator [operator] (Expression.write marks) f ∧
      ∀ categories, f.Holds categories ↔ Wanted marks categories := by
  have hnames (mark : Mark) : ∀ name ∈ Expression.namesMarked mark marks,
      Category.isName name = true :=
    fun name h => hn name ((Expression.namesMarked_sublist mark marks).subset h)
  simp only [Wanted, ← Expression.mem_namesMarked]
  cases hi : Expression.namesMarked .included marks with
  | nil =>
    rw [Expression.write_of_included_nil marks hi]
    cases he : Expression.namesMarked .excluded marks with
    | nil =>
      obtain ⟨⟨name,mark⟩,hm,hne⟩ := hsome
      rw [← Expression.mem_namesMarked] at hm
      cases mark with
      | included => rw [hi] at hm; cases hm
      | excluded => rw [he] at hm; cases hm
      | neutral => exact absurd rfl hne
    | cons x xs =>
      refine ⟨.and,_,reads_writeClause .and .excluded (by decide) x xs (he ▸ hnames .excluded) _,?_⟩
      intro categories
      rw [holds_excluded]
      simp only [List.not_mem_nil, not_false_eq_true, implies_true, true_or, true_and]
  | cons i is =>
    have hin (categories : Set Text) : ((∀ name, name ∉ i :: is) ∨ ∃ name ∈ categories,
        name ∈ i :: is) ↔
        ∃ name ∈ categories, name ∈ i :: is :=
      or_iff_right fun h => h i List.mem_cons_self
    cases he : Expression.namesMarked .excluded marks with
    | nil =>
      rw [Expression.write_of_excluded_nil marks he, hi]
      refine ⟨.or,_,reads_writeClause .or .included (by decide) i is (hi ▸ hnames .included) _,?_⟩
      intro categories
      rw [holds_included, hin]
      simp only [List.not_mem_nil, not_false_eq_true, implies_true, and_true]
    | cons x xs =>
      rw [Expression.write_of_both marks (by simp [hi]) (by simp [he]), hi, he]
      have hleft := reads_writeClause_grouped .or .included (by decide) i is (hi ▸ hnames .included)
        (show [Operator.or] ∈ oneOperator by decide)
      have hright :=
        reads_writeClause_grouped .and .excluded (by decide) x xs (he ▸ hnames .excluded)
        (show [Operator.and] ∈ oneOperator by decide)
      refine ⟨.and,_,.chain hleft (.single .and hright),?_⟩
      intro categories
      rw [Holds, holds_included, holds_excluded, hin]

/-- What a canonical expression says does not depend on which operator binds tighter. It is well
formed, no level of it mixes the operators, each order of the operators reads it as the same formula
and as no other, and that formula is true of a test exactly if the test has one of the included
categories, if there are any, and none of the excluded ones. -/
theorem write_reads_alike (marks : Assoc Mark)
    (hn : ∀ name ∈ marks.names, Category.isName name = true)
    (hsome : ∃ entry ∈ marks, entry.2 ≠ .neutral) :
    ∃ f : Formula,
      (∃ operator, Reads oneOperator [operator] (Expression.write marks) f) ∧
      (∀ loose tight : Operator, loose ≠ tight →
        Reads [[loose, tight]] [loose, tight] (Expression.write marks) f ∧
        ∀ g, Reads [[loose, tight]] [loose, tight] (Expression.write marks) g → g = f) ∧
      ∀ categories : Set Text, f.Holds categories ↔
        ((∀ name, (name, .included) ∉ marks) ∨ ∃ name ∈ categories, (name, .included) ∈ marks) ∧
          ∀ name ∈ categories, (name, .excluded) ∉ marks := by
  obtain ⟨operator,f,hreads,hholds⟩ := reads_write marks hn hsome
  refine ⟨f,⟨operator,hreads⟩,?_,hholds⟩
  intro loose tight hne
  have hlevel : [operator] = [loose] ∨ [operator] = [tight] :=
    (eq_or_eq_of_ne hne operator).imp (congrArg ([·])) (congrArg ([·]))
  have horder : [loose, tight].Nodup := by simpa using hne
  have hboth := (hreads.of_oneOperator hne).2.2 hlevel
  exact ⟨hboth,fun g hg => hg.unique horder hboth⟩

/-- Two groups: a test with one of the included categories passes, unless it has an excluded one. -/
theorem write_reads_alike_two_groups :
    ∃ f : Formula,
      (∀ loose tight : Operator, loose ≠ tight → Reads [[loose, tight]] [loose, tight]
        "(Category=b|Category=a)&(Category!=x&Category!=y)" f) ∧
      f.Holds {Text.ofString "a"} ∧ ¬f.Holds {Text.ofString "a", Text.ofString "x"} ∧
        ¬f.Holds ∅ := by
  let marks : Assoc Mark :=
    [("b", .included), ("x", .excluded), ("n", .neutral), ("a", .included), ("y", .excluded)]
  have hw : Expression.write marks = "(Category=b|Category=a)&(Category!=x&Category!=y)" := by
    decide
  obtain ⟨f,_,hreads,hholds⟩ := write_reads_alike marks (by decide)
    ⟨("b", .included),by decide,by decide⟩
  rw [hw] at hreads
  refine ⟨f,fun loose tight hne => (hreads loose tight hne).1,?_,?_,?_⟩
  · rw [hholds]
    refine ⟨Or.inr ⟨"a",rfl,by decide⟩,?_⟩
    rintro name rfl
    decide
  · rw [hholds]
    rintro ⟨_,h⟩
    exact h "x" (Or.inr rfl) (by decide)
  · rw [hholds]
    rintro ⟨h | ⟨_,h,_⟩,_⟩
    · exact h "b" (by decide)
    · exact h

end CategorySelection.Formula
