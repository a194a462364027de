import CategorySelection.Program.Run
import CategorySelection.Proofs.Expression.Parsed
import CategorySelection.Proofs.Expression.RoundTrip
import CategorySelection.Proofs.Session.Target
/-!
What the command `edit` leaves. The mark of each category is told by the options that name it and by
the expression, in whatever order they came, and the line that is printed is the canonical
expression of the marks.
-/

namespace CategorySelection

structure PlainEdit where
  expression : Text := []
  includes : List Text := []
  excludes : List Text := []
  clears : List Text := []
  clearAll : Bool := false
  output : Option Path := none
  deriving Repr, DecidableEq

namespace PlainEdit

def toEdit (e : PlainEdit) : Edit where
  expression := e.expression
  includes := e.includes.map .value
  excludes := e.excludes.map .value
  clears := e.clears.map .value
  clearAll := e.clearAll
  output := e.output.map .value

/-- What the options of an edit make of the mark that a category was given. Clearing goes before
excluding, that before including, and that before what was given. -/
def settle (e : PlainEdit) (name : Text) (given : Mark) : Mark :=
  if name ∈ e.clears then .neutral
  else if name ∈ e.excludes then .excluded
  else if name ∈ e.includes then .included
  else if e.clearAll then .neutral
  else given

def mark (e : PlainEdit) (name : Text) : Mark :=
  e.settle name (((Expression.parse e.expression).get? name).getD .neutral)

def names (e : PlainEdit) : List Text :=
  Text.sortedSet (e.includes ++ e.excludes ++ (Expression.parse e.expression).names)

def line (e : PlainEdit) : Text := Expression.write (e.names.map fun name => (name, e.mark name))

structure Same (e f : PlainEdit) : Prop where
  expression : e.expression = f.expression
  includes : ∀ name, name ∈ e.includes ↔ name ∈ f.includes
  excludes : ∀ name, name ∈ e.excludes ↔ name ∈ f.excludes
  clears : ∀ name, name ∈ e.clears ↔ name ∈ f.clears
  clearAll : e.clearAll = f.clearAll
  output : e.output = f.output

def IsNamed (e : PlainEdit) : Prop := ∀ name ∈ e.includes ++ e.excludes, Category.isName name = true

def bytes (e : PlainEdit) : List UInt8 := Session.lineBytes e.line

def Fails (e : PlainEdit) (d : Disk) : Prop :=
  ¬e.IsNamed ∨ ∃ p, e.output = some p ∧ ¬d.CanWrite p e.bytes

/-- How an edit ends, and the disk that it leaves. The first bad name ends it before anything is
written; else it shows its line, unless the file that it names cannot be opened or does not take the
line. -/
structure Ends (e : PlainEdit) (d : Disk) (result : Except Fault Ending) (after : Disk) : Prop where
  misnamed : ∀ bad, (e.includes ++ e.excludes).find? (!Category.isName ·) = some bad →
    result = .ok (.refused (Fault.invalidName bad).message) ∧ after = d
  shown : e.IsNamed → e.output = none → result = .ok { lines := [e.line] } ∧ after = d
  written : e.IsNamed → ∀ p, e.output = some p → d.CanWrite p e.bytes →
    result = .ok { lines := [e.line] } ∧ after = d.put (d.target p) (.file e.bytes) ∧
      after.readText p = .ok (e.line ++ "\n")
  unopenable : e.IsNamed → ∀ p why, e.output = some p → d.openEmpty p = .error why →
    result = .ok (.refused (Fault.uncommitted p.text why).message) ∧ after = d
  unfinished : e.IsNamed → ∀ p, e.output = some p → d.CanOpen p → d.hasRoom e.bytes = false →
    ∃ why, result = .ok (.refused (Fault.uncommitted p.text why).message) ∧
      after = d.put (d.target p) (.file (d.taken e.bytes))

section Line

variable {e f : PlainEdit} {name : Text}

/-- A category with a mark that is not neutral is named by one of the two options or by the
expression. -/
theorem mem_names_of_mark (h : e.mark name ≠ .neutral) : name ∈ e.names := by
  rw [names, Text.mem_sortedSet, List.mem_append, List.mem_append]
  rw [mark, settle] at h
  split_ifs at h with _ hexclude hinclude
  · exact absurd rfl h
  · exact Or.inl (Or.inr hexclude)
  · exact Or.inl (Or.inl hinclude)
  · exact absurd rfl h
  · refine Or.inr ?_
    by_contra hm
    rw [(Assoc.get?_eq_none_iff name _).mpr hm] at h
    exact h rfl

def selected (e : PlainEdit) : Assoc Mark :=
  (e.names.map fun name => (name,e.mark name)).filter (·.2 ≠ .neutral)

theorem names_selected_sortedLT (e : PlainEdit) : e.selected.names.SortedLT := by
  have hrows : (Assoc.names (e.names.map fun name => (name,e.mark name))).SortedLT := by
    rw [Assoc.names_map_mk]
    exact Text.sortedSet_sortedLT _
  exact (hrows.pairwise.sublist (Assoc.names_filter_sublist _ _)).sortedLT

/-- What an edit selects are the categories that it does not leave neutral. A name that it does not
give is left neutral. -/
theorem get?_selected (e : PlainEdit) (name : Text) :
    e.selected.get? name = (some (e.mark name)).filter (· ≠ .neutral) := by
  have hrows : (Assoc.names (e.names.map fun name => (name,e.mark name))).Nodup := by
    rw [Assoc.names_map_mk]
    exact (Text.sortedSet_sortedLT _).nodup
  have hget := Assoc.get?_filter (fun mark => decide (mark ≠ Mark.neutral)) name _ hrows
  rw [Assoc.get?_map_mk] at hget
  refine hget.trans ?_
  split_ifs with hm
  · rfl
  · rw [not_ne_iff.mp (mt mem_names_of_mark hm)]
    rfl

/-- The line is what is written of the same marks in increasing order of the names. -/
theorem line_eq_write {table : Assoc Mark} (hs : table.names.SortedLT)
    (h : ∀ name, table.get? name = e.selected.get? name) : e.line = Expression.write table := by
  rw [Assoc.eq_of_get?_eq hs (names_selected_sortedLT e) h, selected, Expression.write_filter]
  rfl

/-- The line of an edit is written from what the edit selects. -/
theorem line_eq_write_selected (e : PlainEdit) : e.line = Expression.write e.selected :=
  line_eq_write (names_selected_sortedLT e) fun _ => rfl

theorem line_congr (h : ∀ name, e.mark name = f.mark name) : e.line = f.line := by
  rw [line_eq_write_selected f]
  refine line_eq_write (names_selected_sortedLT f) fun name => ?_
  rw [get?_selected, get?_selected, h]

/-- Neither the order of the names nor how often they are given changes the line. -/
theorem Same.line_eq (h : e.Same f) : e.line = f.line := by
  apply line_congr
  intro name
  simp only [mark, settle, h.expression, h.includes, h.excludes, h.clears, h.clearAll]

theorem isName_of_mem_selected (h : e.IsNamed) :
    ∀ name ∈ e.selected.names, Category.isName name = true := by
  intro name hname
  have hm := (Assoc.names_filter_sublist _ _).subset hname
  rw [Assoc.names_map_mk, names, Text.mem_sortedSet, List.mem_append] at hm
  exact hm.elim (h name) ((Expression.selection_parse e.expression).named name)

/-- The line gives the marks that the edit leaves. -/
theorem get?_parse_line (h : e.IsNamed) (name : Text) :
    Assoc.get? name (Expression.parse e.line) = (some (e.mark name)).filter (· ≠ .neutral) := by
  rw [line_eq_write_selected, Expression.get?_parse_write _ (names_selected_sortedLT e).nodup
    (isName_of_mem_selected h), get?_selected, Option.filter_filter]
  simp only [Bool.and_self]

/-- Doing the options of an edit twice is doing them once. -/
theorem settle_settle (e : PlainEdit) (name : Text) (given : Mark) :
    e.settle name (e.settle name given) = e.settle name given := by
  simp only [settle]
  split_ifs <;> rfl

theorem mark_of_expression (e : PlainEdit) (t name : Text) :
    PlainEdit.mark { e with expression := t } name =
    e.settle name (((Expression.parse t).get? name).getD .neutral) := rfl

def again (e : PlainEdit) : PlainEdit := { e with expression := e.line }

/-- Doing the same edit to its own line once more leaves the line. What the line leaves out is
neutral, and is read as neutral. -/
theorem line_again (h : e.IsNamed) : e.again.line = e.line := by
  apply line_congr
  intro name
  have hread : ((Expression.parse e.line).get? name).getD .neutral = e.mark name := by
    rw [get?_parse_line h]
    cases e.mark name <;> rfl
  rw [again, mark_of_expression, hread, mark, settle_settle]

end Line

end PlainEdit

end CategorySelection
