import CategorySelection.Proofs.Expression.RoundTrip
import CategorySelection.Proofs.Session.Draft
/-!
The rows of a session. Commands change the checklist and the names taken for the catalog by separate
steps, any of which a failing catalog may leave out; what rows, draft and catalog names have to do
with each other is the same after all of them.
-/

namespace CategorySelection

namespace Session

variable {σ τ : Type}

/-- A session in order: its checklist is sound, and the names that it takes for the catalog have
rows. -/
structure Sound (s : Session) : Prop where
  checklist : s.checklist.Sound
  known : ∀ name ∈ s.known, name ∈ s.checklist.names

section Shown

theorem names_rows (s : Session) : s.rows.map Row.name = s.checklist.names := by
  rw [rows, List.map_map]
  rfl

/-- The rows of a session are those of its checklist, with what it takes for the catalog. -/
theorem mem_rows_iff {s : Session} (h : s.checklist.Sound) (row : Row) :
    row ∈ s.rows ↔ s.checklist.mark? row.name = some row.mark ∧
      row.inCatalog = decide (row.name ∈ s.known) := by
  rw [rows, List.mem_map, Checklist.mark?_eq_some_iff h]
  constructor
  · rintro ⟨⟨name,mark⟩,hm,rfl⟩
    exact ⟨hm,rfl⟩
  · rintro ⟨hm,hflag⟩
    refine ⟨(row.name,row.mark),hm,?_⟩
    dsimp only
    rw [← hflag]

/-- The names that are flagged as names of the catalog are those that the session takes for them. -/
theorem Sound.mem_known_iff {s : Session} (h : s.Sound) (name : Text) :
    name ∈ s.known ↔ ∃ row ∈ s.rows, row.name = name ∧ row.inCatalog = true := by
  constructor
  · intro hn
    obtain ⟨mark,hmark⟩ :=
      Option.isSome_iff_exists.mp ((Checklist.mem_names_iff name _).mp (h.known name hn))
    exact ⟨⟨name,mark,true⟩,(mem_rows_iff h.checklist _).mpr ⟨hmark,(decide_eq_true hn).symm⟩,rfl,
      rfl⟩
  · rintro ⟨row,hrow,rfl,hflag⟩
    rw [((mem_rows_iff h.checklist row).mp hrow).2, decide_eq_true_eq] at hflag
    exact hflag

/-- A session in order has a row of a kind just if its checklist has a mark of that kind. -/
theorem Sound.exists_row_iff {s : Session} (h : s.Sound) (name : Text) (p : Mark → Prop) :
    (∃ row ∈ s.rows, row.name = name ∧ p row.mark) ↔
      ∃ mark, s.checklist.mark? name = some mark ∧ p mark := by
  constructor
  · rintro ⟨row,hrow,rfl,hp⟩
    exact ⟨row.mark,((mem_rows_iff h.checklist row).mp hrow).1,hp⟩
  · rintro ⟨mark,hmark,hp⟩
    exact ⟨⟨name,mark,decide (name ∈ s.known)⟩,(mem_rows_iff h.checklist _).mpr ⟨hmark,rfl⟩,rfl,hp⟩

/-- Reading the draft gives the marks of the rows that are not neutral. -/
theorem get?_parse_draft {s : Session} (h : s.checklist.Sound) (name : Text) :
    Assoc.get? name (Expression.parse s.draft) = (s.checklist.mark? name).filter (· ≠ .neutral) :=
  Expression.get?_parse_write s.checklist.rows h.ordered.nodup h.named name

end Shown

namespace Sound

variable {s : Session}

theorem setHost (h : s.Sound) (host : Text) : Sound { s with host } := ⟨h.checklist,h.known⟩

/-- A session stays in order with a sound checklist that has no fewer rows. -/
theorem setChecklist (h : s.Sound) {c : Checklist} (hc : c.Sound)
    (hsub : s.checklist.names ⊆ c.names) :
    Sound { s with checklist := c } :=
  ⟨hc,fun name hn => hsub (h.known name hn)⟩

theorem forget (h : s.Sound) (name : Text) : (s.forget name).Sound := by
  have hkept : ∀ other ∈ s.known.filter (· ≠ name), other ≠ name ∧ other ∈ s.checklist.names := by
    intro other ho
    rw [List.mem_filter, decide_eq_true_eq] at ho
    exact ⟨ho.2,h.known other ho.1⟩
  rw [Session.forget]
  split_ifs
  · exact ⟨Checklist.sound_remove name h.checklist,
      fun other ho => (Checklist.mem_names_remove name other _).mpr (hkept other ho)⟩
  · exact ⟨h.checklist,fun other ho => (hkept other ho).2⟩

theorem addCategory (h : s.Sound) (catalog : Catalog σ) (name : Text) (w : σ) :
    (Session.addCategory catalog name (s, w)).world.1.Sound := by
  rw [addCategory_apply]
  rcases catalog.add name w with ⟨_ | _ | why,w,log⟩
  · exact h
  · dsimp only
    cases hadd : s.checklist.add name.trim with
    | error e => exact h
    | ok c =>
      refine ⟨Checklist.sound_add h.checklist hadd,?_⟩
      intro other ho
      rw [Checklist.mem_names_add hadd]
      exact ((Text.mem_insertSorted other name.trim s.known).mp ho).imp_right (h.known other)
  · exact h

theorem deleteCategory (h : s.Sound) (catalog : Catalog σ) (name : Text) (w : σ) :
    (Session.deleteCategory catalog name (s, w)).world.1.Sound := by
  rw [deleteCategory_apply]
  rcases catalog.delete name w with ⟨_ | _,w,log⟩
  · exact h
  · exact h.forget name

/-- Restoring leaves a session in order. The catalog may fail when it is saved and when it is loaded
again; then the session is as it was. -/
theorem restore (h : s.Sound) (catalog : Catalog σ) (w : σ) :
    (Session.restore catalog (s, w)).world.1.Sound := by
  rw [restore_apply]
  rcases catalog.restore w with ⟨_ | _,w,log⟩
  · exact h
  dsimp only
  rcases catalog.load w with ⟨_ | known,w,log'⟩
  · exact h
  dsimp only
  cases hm : Checklist.ofMarks known s.checklist.selected with
  | error e => exact h
  | ok c =>
    exact ⟨Checklist.sound_ofMarks hm,
      fun name hn => (Checklist.mem_names_ofMarks hm name).mpr (Or.inl hn)⟩

theorem commit (h : s.Sound) (send : Text → Action τ Unit) (override : Option Text) (w : τ) :
    (Session.commit send override (s, w)).world.1.Sound := by
  rw [commit_apply]
  rcases send (s.offer override) w with ⟨_ | _,w,log⟩
  · exact h
  · exact h.setHost _

theorem toggle (h : s.Sound) (name : Text) (direction : Direction) :
    (Session.toggle name direction s).world.Sound := by
  rw [toggle_apply]
  cases hset : s.checklist.set name direction.mark with
  | error e => exact h
  | ok c =>
    exact h.setChecklist (Checklist.sound_set h.checklist hset) (Checklist.names_subset_set hset)

theorem clear (h : s.Sound) (name : Text) : (Session.clear name s).world.Sound :=
  h.setChecklist (Checklist.sound_clear name h.checklist)
    (by rw [Checklist.clear, Checklist.names_withMark]; simp)

theorem clearAll (h : s.Sound) : (Session.clearAll s).world.Sound :=
  h.setChecklist (Checklist.sound_clearAll h.checklist) (by rw [Checklist.names_clearAll]; simp)

theorem perform_change (h : s.Sound) (c : Change) : (c.perform s).world.Sound := by
  cases c with
  | toggle name direction =>
    rw [Change.perform, Action.bind_apply, Action.ofExcept_apply]
    cases Direction.ofLabel direction with
    | error e => exact h
    | ok d => exact h.toggle name d
  | clear name => exact h.clear name
  | clearAll => exact h.clearAll

/-- One step: a session is in order after a command, whether or not it failed. -/
theorem perform (h : s.Sound) (catalog : Catalog σ) (command : Command σ) (w : σ) :
    (command.perform catalog (s, w)).world.1.Sound := by
  cases command <;> rw [Command.perform, Action.world_bind_pure]
  case change c => exact h.perform_change c
  case add name => exact h.addCategory catalog name w
  case delete name => exact h.deleteCategory catalog name w
  case restore => exact h.restore catalog w
  case commit send override => exact h.commit send override w

/-- By induction on the commands: a session stays in order. -/
theorem after (h : s.Sound) (catalog : Catalog σ) (commands : List (Command σ)) (w : σ) :
    (Command.after catalog commands (s, w)).1.Sound := by
  induction commands generalizing s w with
  | nil => exact h
  | cons command rest ih =>
    exact ih (h.perform catalog command w) (command.perform catalog (s, w)).world.2

end Sound

theorem Opens.sound {catalog : Catalog σ} {host : Text} {s : Session} {w : σ}
    (h : Opens catalog host (s, w)) : s.Sound := by
  obtain ⟨_,opening,_,hp,hchecklist,hknown,_⟩ := h.prepared
  obtain ⟨_,_,hm,_⟩ := prepare_cases hp
  rw [← hchecklist, ← hknown] at hm
  exact ⟨Checklist.sound_ofMarks hm,
    fun name hn => (Checklist.mem_names_ofMarks hm name).mpr (Or.inl hn)⟩

theorem session_of_deleteCategory {catalog : Catalog σ} {name draft : Text} {w : Session × σ}
    (h : (deleteCategory catalog name w).result = .ok draft) :
    (deleteCategory catalog name w).world.1 = w.1.forget name := by
  obtain ⟨s,w⟩ := w
  rw [deleteCategory_apply] at h ⊢
  rcases hdelete : catalog.delete name w with ⟨_ | _,w',log⟩
  · rw [hdelete] at h
    cases h
  · rfl

/-- The row that is left of a category which is taken out of the catalog: the one it had, unless
that was neutral, without the flag. -/
theorem mem_rows_forget_iff {s : Session} (h : s.Sound) (row : Row) :
    row ∈ (s.forget row.name).rows ↔
      row.mark ≠ .neutral ∧ row.inCatalog = false ∧ s.checklist.mark? row.name = some row.mark := by
  have hknown : decide (row.name ∈ (s.forget row.name).known) = false := by
    simp [Session.forget]
  rw [mem_rows_iff (h.forget row.name).checklist, hknown, Session.forget]
  by_cases hn : s.checklist.mark? row.name = some .neutral
  · rw [if_pos hn, Checklist.mark?_remove, if_pos rfl, hn, Option.some_inj]
    exact iff_of_false (fun hr => Option.some_ne_none _ hr.1.symm) fun hr => hr.1 hr.2.2.symm
  · rw [if_neg hn]
    constructor
    · rintro ⟨hmark,hflag⟩
      exact ⟨fun he => hn (he ▸ hmark),hflag,hmark⟩
    · rintro ⟨_,hflag,hmark⟩
      exact ⟨hmark,hflag⟩

/-- Every session that commands can reach, over any catalog and store and whichever of them fail, is
in order: the rows are in increasing order of names of categories; the names taken for the catalog
have rows; the draft reads as the rows that are not neutral; and the session counts as modified
exactly if its draft is not the expression of the host. A category that was taken out of the catalog
has a row exactly if it was included or excluded, and this row has its mark and no flag. -/
theorem rows_in_order {catalog : Catalog σ} {host : Text} {s : Session} {w : σ}
    (hopen : Opens catalog host (s, w)) (commands : List (Command σ)) :
    let reached := Command.after catalog commands (s, w)
    let rows := reached.1.rows
    (rows.map Row.name).SortedLT ∧ (∀ row ∈ rows, Category.isName row.name = true) ∧
    (∀ name ∈ reached.1.known, name ∈ rows.map Row.name) ∧
    (∀ name mark, Assoc.get? name (Expression.parse reached.1.draft) = some mark ↔
      mark ≠ .neutral ∧ ∃ row ∈ rows, row.name = name ∧ row.mark = mark) ∧
    (reached.1.isModified = true ↔ reached.1.draft ≠ reached.1.host) ∧
    ∀ name draft, (deleteCategory catalog name reached).result = .ok draft →
      ∀ row : Row, row.name = name → (row ∈ (deleteCategory catalog name reached).world.1.rows ↔
        row.mark ≠ .neutral ∧ row.inCatalog = false ∧
          ∃ before ∈ rows, before.name = name ∧ before.mark = row.mark) := by
  intro reached rows
  have h : reached.1.Sound := hopen.sound.after catalog commands w
  have hnames : rows.map Row.name = reached.1.checklist.names := names_rows reached.1
  refine ⟨?_,?_,?_,?_,?_,?_⟩
  · rw [hnames]
    exact h.checklist.ordered
  · intro row hrow
    apply h.checklist.named
    rw [← hnames]
    exact List.mem_map_of_mem hrow
  · intro name hn
    rw [hnames]
    exact h.known name hn
  · intro name mark
    rw [get?_parse_draft h.checklist, Option.filter_eq_some_iff, h.exists_row_iff name (· = mark),
      decide_eq_true_eq, exists_eq_right, and_comm]
  · rw [isModified, decide_eq_true_eq]
  · intro name draft hdone row hrow
    subst hrow
    rw [session_of_deleteCategory hdone, mem_rows_forget_iff h,
      h.exists_row_iff row.name (· = row.mark), exists_eq_right]

/-- A selected category that is taken out of the catalog keeps its row, also after a change and a
restoring that failed. -/
theorem rows_in_order_outage :
    let outage : Store.Outage := ⟨none, none, some (.invalidName "x")⟩
    let catalog : Catalog (Assoc Text × Store.Outage) := ⟨Store.memory.withOutage, "k", ["B", "A"]⟩
    let commands : List (Command (Assoc Text × Store.Outage)) :=
      [.change (.toggle "B" "exclude"), .change (.toggle "?" "include"), .restore, .add " C "]
    let opened := openAs "s" catalog "Category=A" ([], outage)
    ∃ s, Opens catalog "Category=A" (s, opened.world) ∧
      let reached := Command.after catalog commands (s, opened.world)
      (reached.1.rows.map Row.name).SortedLT ∧
        ⟨"B", .excluded, false⟩ ∈ (deleteCategory catalog "B" reached).world.1.rows := by
  intro outage catalog commands opened
  have hopen : Opens catalog "Category=A"
      (⟨"s", ⟨[("A", .included), ("B", .neutral)]⟩, ["A", "B"], "Category=A"⟩, opened.world) :=
    .named (show opened.result = _ by decide +kernel)
  obtain ⟨hsorted,_,_,_,_,hdelete⟩ := rows_in_order hopen commands
  have hrow := hdelete "B" "Category=A&Category!=B" (by decide +kernel) ⟨"B", .excluded, false⟩ rfl
  refine ⟨_,hopen,hsorted,hrow.mpr ⟨by decide,rfl,⟨"B", .excluded, true⟩,?_,rfl,rfl⟩⟩
  decide +kernel

end Session

end CategorySelection
