import CategorySelection.Proofs.Expression.Scan
import Mathlib.Data.Set.Basic
/-!
Expressions as formulas about the categories of a test. The grammar has a level for each operator,
from the loosest to the tightest, and parentheses start again at the loosest. Whatever the order of
the operators is, a text is read as at most one formula.
-/

namespace CategorySelection

inductive Operator
  | and
  | or
  deriving Repr, DecidableEq

def Operator.symbol : Operator → CodePoint
  | .and => '&'
  | .or => '|'

inductive Formula
  | atom (a : Atom)
  | join (operator : Operator) (f g : Formula)
  deriving Repr, DecidableEq

namespace Formula

def Holds (categories : Set Text) : Formula → Prop
  | .atom a => if a.mark = .included then a.name ∈ categories else a.name ∉ categories
  | .join .and f g => f.Holds categories ∧ g.Holds categories
  | .join .or f g => f.Holds categories ∨ g.Holds categories

/-- The readings of a text. At the level of no operator stand atoms and groups; at the level of some
operators, the first of them joins what the others can read. A group has one of the levels that
`groups` lists. -/
inductive Reads (groups : List (List Operator)) : List Operator → Text → Formula → Prop
  | atom {a : Atom} : a.Proper → Reads groups [] a.write (.atom a)
  | group {level : List Operator} {t : Text} {f : Formula} : level ∈ groups →
    Reads groups level t f → Reads groups [] (('(' : CodePoint) :: (t ++ [(')' : CodePoint)])) f
  | single (operator : Operator) {level : List Operator} {t : Text} {f : Formula} :
    Reads groups level t f → Reads groups (operator :: level) t f
  | chain {operator : Operator} {level : List Operator} {t u : Text} {f g : Formula} :
    Reads groups level t f → Reads groups (operator :: level) u g →
    Reads groups (operator :: level) (t ++ operator.symbol :: u) (.join operator f g)

/-- What follows a text that is read at a level: no name goes on into it, and it starts with no
operator of the level. -/
structure EndsLevel (level : List Operator) (t : Text) : Prop where
  stopsName : Expression.StopsName t
  noOperator : ∀ operator ∈ level, t.head? ≠ some operator.symbol

theorem symbol_isBreak (operator : Operator) : Expression.isBreak operator.symbol = true := by
  cases operator <;> decide

theorem symbol_injective : Function.Injective Operator.symbol := by
  intro a b h
  cases a <;> cases b <;> first | rfl | exact absurd h (by decide)

theorem endsLevel_nil (level : List Operator) : EndsLevel level [] :=
  ⟨Expression.stopsName_nil,fun _ _ h => by cases h⟩

theorem endsLevel_close (level : List Operator) (t : Text) :
    EndsLevel level ((')' : CodePoint) :: t) := by
  refine ⟨Expression.stopsName_cons (by decide) t,?_⟩
  intro operator _ h
  have hne : ∀ o : Operator, (')' : CodePoint) ≠ o.symbol := by
    intro o
    cases o <;> decide
  exact hne operator (Option.some_inj.mp h)

/-- The symbol of an operator ends the levels without that operator. -/
theorem endsLevel_symbol {operator : Operator} {level : List Operator} (h : operator ∉ level)
    (t : Text) : EndsLevel level (operator.symbol :: t) := by
  refine ⟨Expression.stopsName_cons (symbol_isBreak operator) t,?_⟩
  intro other hother he
  exact h (symbol_injective (Option.some_inj.mp he) ▸ hother)

/-- What ends a level of several operators ends the levels with fewer of them. -/
theorem EndsLevel.of_cons {operator : Operator} {level : List Operator} {t : Text}
    (h : EndsLevel (operator :: level) t) : EndsLevel level t :=
  ⟨h.stopsName,fun other hother => h.noOperator other (List.mem_cons_of_mem operator hother)⟩

/-- Of two atoms written at the front of one text, where neither name goes on, both are the same. -/
theorem atom_append_unique {a b : Atom} (ha : a.Proper) (hb : b.Proper) {t u : Text}
    (ht : Expression.StopsName t) (hu : Expression.StopsName u) (h : a.write ++ t = b.write ++ u) :
    a = b := by
  have hread := (Expression.readAtom?_eq_some_iff _ a).mpr ⟨ha,t,rfl,ht⟩
  rw [h, (Expression.readAtom?_eq_some_iff _ b).mpr ⟨hb,u,rfl,hu⟩] at hread
  exact (Option.some_inj.mp hread).symm

theorem write_ne_open (a : Atom) (t u : Text) : a.write ++ t ≠ ('(' : CodePoint) :: u := by
  intro h
  rw [Expression.write_eq] at h
  exact absurd (List.cons.inj h).1 (by decide)

/-- A reading is determined by the text that it starts at: how far it goes, and what it gives. The
induction is on the first reading, and the case of the second one that has the other shape would let
an operator of the level follow a text that was read to its end. -/
theorem Reads.append_unique {order : List Operator} (ho : order.Nodup) {level : List Operator}
    {t : Text} {f : Formula} (h : Reads [order] level t f) :
    ∀ {u : Text} {g : Formula} {r s : Text}, level.Nodup → Reads [order] level u g →
      EndsLevel level r → EndsLevel level s → t ++ r = u ++ s → t = u ∧ f = g := by
  induction h with
  | atom ha =>
    intro u g r s _ h' hr hs he
    cases h' with
    | atom hb =>
      obtain rfl := atom_append_unique ha hb hr.stopsName hs.stopsName he
      exact ⟨rfl,rfl⟩
    | group _ _ => exact absurd he (write_ne_open _ _ _)
  | group hm _ ih =>
    intro u g r s _ h' hr hs he
    cases h' with
    | atom hb => exact absurd he.symm (write_ne_open _ _ _)
    | group hm' h' =>
      obtain rfl := List.mem_singleton.mp hm
      obtain rfl := List.mem_singleton.mp hm'
      rw [List.cons_append, List.cons_append, List.append_assoc, List.append_assoc] at he
      have hinner := (List.cons.inj he).2
      obtain ⟨rfl,rfl⟩ := ih ho h' (endsLevel_close _ _) (endsLevel_close _ _) hinner
      exact ⟨rfl,rfl⟩
  | single operator _ ih =>
    intro u g r s hl h' hr hs he
    obtain ⟨hfresh,hlevel⟩ := List.nodup_cons.mp hl
    cases h' with
    | single _ h' => exact ih hlevel h' hr.of_cons hs.of_cons he
    | chain h₁ _ =>
      rw [List.append_assoc] at he
      obtain ⟨rfl,_⟩ := ih hlevel h₁ hr.of_cons (endsLevel_symbol hfresh _) he
      rw [List.append_cancel_left he] at hr
      exact absurd rfl (hr.noOperator operator List.mem_cons_self)
  | chain _ _ ih₁ ih₂ =>
    intro u g r s hl h' hr hs he
    obtain ⟨hfresh,hlevel⟩ := List.nodup_cons.mp hl
    rw [List.append_assoc] at he
    cases h' with
    | single _ h' =>
      obtain ⟨rfl,_⟩ := ih₁ hlevel h' (endsLevel_symbol hfresh _) hs.of_cons he
      rw [← List.append_cancel_left he] at hs
      exact absurd rfl (hs.noOperator _ List.mem_cons_self)
    | chain h₁ h₂ =>
      rw [List.append_assoc] at he
      obtain ⟨rfl,rfl⟩ := ih₁ hlevel h₁ (endsLevel_symbol hfresh _) (endsLevel_symbol hfresh _) he
      have hrest := (List.cons.inj (List.append_cancel_left he)).2
      obtain ⟨rfl,rfl⟩ := ih₂ hl h₂ hr hs hrest
      exact ⟨rfl,rfl⟩

/-- The grammar is unambiguous. -/
theorem Reads.unique {order : List Operator} (ho : order.Nodup) {t : Text} {f g : Formula}
    (hf : Reads [order] order t f) (hg : Reads [order] order t g) : f = g :=
  (hf.append_unique ho ho hg (endsLevel_nil order) (endsLevel_nil order) rfl).2

end Formula

end CategorySelection
