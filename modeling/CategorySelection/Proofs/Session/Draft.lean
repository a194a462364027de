import CategorySelection.Proofs.Checklist.Selected
import CategorySelection.Proofs.Session.Command
import CategorySelection.Proofs.Session.Outcome
/-!
What a draft depends on. The rows of a checklist come from the catalog, but what is selected in it
comes from the expression of the host and from the commands that switch and clear categories alone.
-/

namespace CategorySelection.Session

variable {σ τ : Type}

def marksAfter (changes : List Change) (marks : Assoc Mark) : Assoc Mark :=
  changes.foldl (fun marks c => c.effect marks) marks

structure Shows (s : Session) (marks : Assoc Mark) : Prop where
  sound : s.checklist.Sound
  selection : Selection marks
  selected : ∀ name, s.checklist.selected.get? name = marks.get? name

namespace Shows

variable {s : Session} {marks : Assoc Mark}

theorem selected_eq (h : s.Shows marks) : s.checklist.selected = marks.sorted :=
  Checklist.selected_eq_sorted h.sound h.selection.nodup h.selected

/-- The draft is the canonical expression of the marks that are shown. -/
theorem draft_eq (h : s.Shows marks) : s.draft = Expression.write marks.sorted := by
  rw [draft, Checklist.expression_eq_write_selected, h.selected_eq]

/-- Another checklist with the same selection shows the same marks. -/
theorem setChecklist (h : s.Shows marks) {c : Checklist} (hc : c.Sound)
    (hs : ∀ name, c.selected.get? name = s.checklist.selected.get? name) (known : List Text)
    (host : Text) : Shows ⟨s.id, c, known, host⟩ marks :=
  ⟨hc,h.selection,fun name => (hs name).trans (h.selected name)⟩

theorem forget (h : s.Shows marks) (name : Text) : (s.forget name).Shows marks := by
  by_cases hn : s.checklist.mark? name = some .neutral
  · have hs := h.setChecklist (Checklist.sound_remove name h.sound)
      (Checklist.get?_selected_remove h.sound hn) (s.known.filter (· ≠ name)) s.host
    rw [Session.forget, if_pos hn]
    exact hs
  · rw [Session.forget, if_neg hn]
    exact h.setChecklist h.sound (fun _ => rfl) _ _

/-- Adding a category to the catalog changes nothing that is selected. -/
theorem addCategory (h : s.Shows marks) (catalog : Catalog σ) (name : Text) (w : σ) :
    (Session.addCategory catalog name (s, w)).world.1.Shows marks := by
  rw [addCategory_apply]
  rcases catalog.add name w with ⟨_ | _ | why,w,log⟩
  · exact h
  · dsimp only
    cases ha : s.checklist.add name.trim with
    | error e => exact h
    | ok c =>
      exact h.setChecklist (Checklist.sound_add h.sound ha)
        (Checklist.get?_selected_add h.sound ha) _ _
  · exact h

/-- Deleting a category from the catalog changes nothing that is selected. -/
theorem deleteCategory (h : s.Shows marks) (catalog : Catalog σ) (name : Text) (w : σ) :
    (Session.deleteCategory catalog name (s, w)).world.1.Shows marks := by
  rw [deleteCategory_apply]
  rcases catalog.delete name w with ⟨_ | _,w,log⟩
  · exact h
  · exact h.forget name

/-- Restoring changes nothing that is selected: the rows are made anew, from other names but the
same selection. -/
theorem restore (h : s.Shows marks) (catalog : Catalog σ) (w : σ) :
    (Session.restore catalog (s, w)).world.1.Shows marks := by
  rw [restore_apply]
  rcases catalog.restore w with ⟨_ | _,w,log⟩
  · exact h
  dsimp only
  rcases catalog.load w with ⟨_ | known,w,log'⟩
  · exact h
  dsimp only
  cases hm : Checklist.ofMarks known s.checklist.selected with
  | error e => exact h
  | ok c =>
    have hmarked := (Checklist.selection_selected h.sound).marked
    exact h.setChecklist (Checklist.sound_ofMarks hm)
      (Checklist.get?_selected_ofMarks hmarked hm) _ _

theorem commit (h : s.Shows marks) (send : Text → Action τ Unit) (override : Option Text) (w : τ) :
    (Session.commit send override (s, w)).world.1.Shows marks := by
  rw [commit_apply]
  rcases send (s.offer override) w with ⟨_ | _,w,log⟩
  · exact h
  · exact h.setChecklist h.sound (fun _ => rfl) _ _

/-- A change leaves what it makes of the marks, or fails and leaves them. -/
theorem perform_change (h : s.Shows marks) (c : Change) :
    (c.perform s).result.isOk = c.isGood ∧
      (c.perform s).world.Shows (if c.isGood then c.effect marks else marks) := by
  cases c with
  | toggle name direction =>
    rw [Change.perform, Change.isGood, Change.effect, Action.bind_apply, Action.ofExcept_apply]
    cases Direction.ofLabel direction with
    | error e => exact ⟨rfl,h⟩
    | ok d =>
      dsimp only
      rw [toggle_apply]
      have hd : d.mark ≠ .neutral := by cases d <;> decide
      cases hset : s.checklist.set name d.mark with
      | error e =>
        have hname : Category.isName name = false := by
          rw [← Bool.not_eq_true, ← Checklist.set_eq_ok_iff name d.mark h.sound, hset]
          rintro ⟨c,hc⟩
          cases hc
        rw [hname]
        exact ⟨rfl,h⟩
      | ok c =>
        have hname := (Checklist.set_eq_ok_iff name d.mark h.sound).mp ⟨c,hset⟩
        rw [hname]
        refine ⟨rfl,Checklist.sound_set h.sound hset,h.selection.put hname hd,?_⟩
        intro other
        change c.selected.get? other = Assoc.get? other (marks.put name d.mark)
        rw [Checklist.get?_selected_set h.sound hd hset, Assoc.get?_put, h.selected]
  | clear name =>
    rw [Change.perform, clear_apply]
    refine ⟨rfl,Checklist.sound_clear name h.sound,h.selection.erase name,?_⟩
    intro other
    change (s.checklist.clear name).selected.get? other = Assoc.get? other (marks.erase name)
    rw [Checklist.get?_selected_clear name other h.sound, Assoc.get?_erase, h.selected]
  | clearAll =>
    rw [Change.perform, clearAll_apply]
    refine ⟨rfl,Checklist.sound_clearAll h.sound,.nil,?_⟩
    intro other
    exact Checklist.get?_selected_clearAll other h.sound

/-- One step: a good change has its effect on the marks, and no other command has any. -/
theorem perform (h : s.Shows marks) (catalog : Catalog σ) (command : Command σ) (w : σ) :
    (command.perform catalog (s, w)).world.1.Shows
      (marksAfter (command.change?.toList.filter Change.isGood) marks) := by
  cases command with
  | change c =>
    have hc := (h.perform_change c).2
    rw [Command.perform, Action.world_bind_pure]
    cases hgood : c.isGood <;> simpa [hgood, marksAfter, Command.change?] using hc
  | add name =>
    rw [Command.perform, Action.world_bind_pure]
    exact h.addCategory catalog name w
  | delete name =>
    rw [Command.perform, Action.world_bind_pure]
    exact h.deleteCategory catalog name w
  | restore =>
    rw [Command.perform, Action.world_bind_pure]
    exact h.restore catalog w
  | commit send override =>
    rw [Command.perform, Action.world_bind_pure]
    exact h.commit send override w

/-- A whole run: the good changes have their effect in their order. -/
theorem after (h : s.Shows marks) (catalog : Catalog σ) (commands : List (Command σ)) (w : σ) :
    (Command.after catalog commands (s, w)).1.Shows
      (marksAfter ((commands.filterMap Command.change?).filter Change.isGood) marks) := by
  induction commands generalizing s marks w with
  | nil => exact h
  | cons command rest ih =>
    have hrest := ih (h.perform catalog command w) (command.perform catalog (s, w)).world.2
    rw [Command.after]
    cases hc : command.change? with
    | none => simpa [hc, marksAfter] using hrest
    | some c => cases hgood : c.isGood <;> simpa [hc, hgood, marksAfter] using hrest

end Shows

/-- However a session was opened, it was got ready with its checklist, its known names and its
host. -/
theorem Opens.prepared {catalog : Catalog σ} {host : Text} {s : Session} {w : σ}
    (h : Opens catalog host (s, w)) :
    ∃ before opening log, prepare catalog host before = ⟨.ok opening, w, log⟩ ∧
      s.checklist = opening.checklist ∧ s.known = opening.known ∧ s.host = opening.host := by
  cases h with
  | @named id _ w ho =>
    rcases hout : openAs id catalog host w with ⟨_,w',log⟩
    rw [hout] at ho
    subst ho
    obtain ⟨opening,log',hp,rfl⟩ := openAs_cases hout
    exact ⟨w,opening,log',hp,rfl,rfl,rfl⟩
  | @numbered _ n w ho =>
    rcases hout : openNumbered catalog host (n, w) with ⟨_,⟨n',w'⟩,log⟩
    rw [hout] at ho
    subst ho
    obtain ⟨opening,log',hp,rfl,_⟩ := openNumbered_cases hout
    exact ⟨w,opening,log',hp,rfl,rfl,rfl⟩

/-- A session that is opened shows the marks of its expression. -/
theorem Opens.shows {catalog : Catalog σ} {host : Text} {s : Session} {w : σ}
    (h : Opens catalog host (s, w)) : s.Shows (Expression.parse host) := by
  obtain ⟨_,_,_,hp,hchecklist,_,_⟩ := h.prepared
  obtain ⟨_,_,hm,_⟩ := prepare_cases hp
  rw [Expression.parse_trim, ← hchecklist] at hm
  have hs := Expression.selection_parse host
  exact ⟨Checklist.sound_ofMarks hm,hs,Checklist.get?_selected_ofMarks hs.marked hm⟩

/-- A session that is opened has the expression of the host without the blanks at its ends. -/
theorem Opens.host_eq {catalog : Catalog σ} {host : Text} {s : Session} {w : σ}
    (h : Opens catalog host (s, w)) : s.host = host.trim := by
  obtain ⟨_,_,_,hp,_,_,hhost⟩ := h.prepared
  rw [hhost]
  exact (prepare_cases hp).2.2.2

end CategorySelection.Session
