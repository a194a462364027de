import CategorySelection.Session
import CategorySelection.Proofs.Action
/-!
What the commands of a session end with. Each command is given by what its calls of the catalog and
of the host end with; where one of these ends with a fault the session stays as it was.
-/

namespace CategorySelection.Session

variable {σ τ : Type}

def toggleRecord (name : Text) (direction : Direction) (s : Session) : Log.Record :=
  { s.note Log.Level.debug ("Toggled " ++ name ++ " to " ++ direction.label ++ ": " ++ s.draft) with
    context := (Log.Context.ofCategory name).extendedBy (.ofSession s.id) }

/-- What switching a category does: it is refused with nothing changed, or it leaves the checklist
with its mark. -/
theorem toggle_apply (name : Text) (direction : Direction) (s : Session) :
    toggle name direction s = match s.checklist.set name direction.mark with
      | .error e => ⟨.error e, s, []⟩
      | .ok checklist =>
        ⟨.ok checklist.expression, { s with checklist },
          [Checklist.markRecord name direction.mark.label,
            toggleRecord name direction { s with checklist }]⟩ := by
  rw [toggle, Action.bind_apply, Action.onPart, Checklist.setMark]
  cases h : s.checklist.set name direction.mark with
  | error e =>
    simp only [Action.bind_apply, Action.world_apply, Action.ofExcept_apply, h, List.append_nil]
  | ok checklist =>
    simp only [Action.bind_apply, Action.world_apply, Action.ofExcept_apply, Action.setWorld_apply,
      Action.record_apply, Action.pure_apply, h, List.nil_append, List.append_nil, List.cons_append]
    rfl

theorem clear_apply (name : Text) (s : Session) :
    clear name s = ⟨.ok (s.checklist.clear name).expression,
      { s with checklist := s.checklist.clear name }, []⟩ := rfl

theorem clearAll_apply (s : Session) :
    clearAll s = ⟨.ok s.checklist.clearAll.expression,
      { s with checklist := s.checklist.clearAll }, []⟩ := rfl

/-- What adding through a session does: only if the catalog takes the name does the session get
it. -/
theorem addCategory_apply (catalog : Catalog σ) (name : Text) (s : Session) (w : σ) :
    addCategory catalog name (s, w) = match catalog.add name w with
      | ⟨.error e, w, log⟩ => ⟨.error e, (s, w), log⟩
      | ⟨.ok (some why), w, log⟩ => ⟨.ok (some why), (s, w), log⟩
      | ⟨.ok none, w, log⟩ =>
        match s.checklist.add name.trim with
        | .error e => ⟨.error e, (s, w), log⟩
        | .ok checklist =>
          ⟨.ok none, ({ s with checklist, known := Text.insertSorted name.trim s.known }, w),
            log⟩ := by
  rw [addCategory, Action.bind_apply, Action.onSecond_apply]
  rcases catalog.add name w with ⟨_ | _ | why,w,log⟩
  · rfl
  · cases h : s.checklist.add name.trim <;> simp [Action.bind_apply, h]
  · simp only [Action.pure_apply, List.append_nil]

/-- What deleting through a session does: once the catalog is done, the session forgets the name. -/
theorem deleteCategory_apply (catalog : Catalog σ) (name : Text) (s : Session) (w : σ) :
    deleteCategory catalog name (s, w) = match catalog.delete name w with
      | ⟨.error e, w, log⟩ => ⟨.error e, (s, w), log⟩
      | ⟨.ok (), w, log⟩ => ⟨.ok (s.forget name).draft, (s.forget name, w), log⟩ := by
  rw [deleteCategory, Action.bind_apply, Action.onSecond_apply]
  rcases catalog.delete name w with ⟨_ | _,w,log⟩
  · rfl
  · simp [Action.bind_apply]

/-- What restoring through a session does: the checklist is made anew of what is loaded then. -/
theorem restore_apply (catalog : Catalog σ) (s : Session) (w : σ) :
    restore catalog (s, w) = match catalog.restore w with
      | ⟨.error e, w, log⟩ => ⟨.error e, (s, w), log⟩
      | ⟨.ok (), w, log⟩ =>
        match catalog.load w with
        | ⟨.error e, w, log'⟩ => ⟨.error e, (s, w), log ++ log'⟩
        | ⟨.ok known, w, log'⟩ =>
          match Checklist.ofMarks known s.checklist.selected with
          | .error e => ⟨.error e, (s, w), log ++ log'⟩
          | .ok checklist =>
            ⟨.ok checklist.expression, ({ s with checklist, known }, w), log ++ log'⟩ := by
  rw [restore, Action.bind_apply, Action.onSecond_apply]
  rcases catalog.restore w with ⟨_ | _,w,log⟩
  · rfl
  dsimp only
  rw [Action.bind_apply, Action.onSecond_apply]
  rcases catalog.load w with ⟨_ | known,w,log'⟩
  · rfl
  · cases h : Checklist.ofMarks known s.checklist.selected <;> simp [Action.bind_apply, h, draft]

def commitRecord (value : Text) (s : Session) : Log.Record :=
  let shown : Text := if value.isEmpty then "<empty>" else value
  s.note Log.Level.info ("Committed filter expression: " ++ shown)

/-- What a commit does: what is offered becomes what the host has, unless it is refused. -/
theorem commit_apply (send : Text → Action τ Unit) (override : Option Text) (s : Session) (w : τ) :
    commit send override (s, w) = match send (s.offer override) w with
      | ⟨.error e, w, log⟩ => ⟨.error e, (s, w), log⟩
      | ⟨.ok (), w, log⟩ =>
        ⟨.ok (s.offer override), ({ s with host := s.offer override }, w),
          log ++ [commitRecord (s.offer override) { s with host := s.offer override }]⟩ := by
  rw [commit, Action.bind_apply, Action.world_apply]
  dsimp only
  rw [Action.bind_apply, Action.onSecond_apply]
  rcases send (s.offer override) w with ⟨_ | _,w,log⟩
  · rfl
  · simp only [Action.bind_apply, Action.onFirst_apply, Action.change_apply, Action.world_apply,
      Action.record_apply, Action.pure_apply, List.nil_append, List.append_nil]
    rfl

/-- What getting a session ready does: the catalog is loaded, and the rest only reads. -/
theorem prepare_apply (catalog : Catalog σ) (host : Text) (w : σ) :
    prepare catalog host w = match catalog.load w with
      | ⟨.error e, w, log⟩ => ⟨.error e, w, log⟩
      | ⟨.ok known, w, log⟩ =>
        let marks := Expression.parse host.trim
        let records := log ++ (Expression.parseRecords host.trim ++
          Checklist.unknownRecords known marks.names)
        match Checklist.ofMarks known marks with
        | .error e => ⟨.error e, w, records⟩
        | .ok checklist => ⟨.ok ⟨checklist, known, host.trim, marks.length⟩, w, records⟩ := by
  rw [prepare, Action.bind_apply]
  rcases catalog.load w with ⟨_ | known,w,log⟩
  · rfl
  · simp only [Expression.read, Checklist.start, Action.bind_apply, Action.write_apply,
      Action.pure_apply, Action.ofExcept_apply, List.append_nil]
    cases Checklist.ofMarks known (Expression.parse host.trim) <;> rfl

/-- An opening that was got ready shows the names of the catalog and the marks of the expression. -/
theorem prepare_cases {catalog : Catalog σ} {host : Text} {w w' : σ} {opening : Opening}
    {log : List Log.Record} (h : prepare catalog host w = ⟨.ok opening, w', log⟩) :
    (catalog.load w).result = .ok opening.known ∧ (catalog.load w).world = w' ∧
      Checklist.ofMarks opening.known (Expression.parse host.trim) = .ok opening.checklist ∧
      opening.host = host.trim := by
  rw [prepare_apply] at h
  rcases hload : catalog.load w with ⟨_ | known,w₁,log₁⟩
  · rw [hload] at h
    cases h
  · rw [hload] at h
    dsimp only at h
    cases hmarks : Checklist.ofMarks known (Expression.parse host.trim) with
    | error e =>
      rw [hmarks] at h
      cases h
    | ok checklist =>
      rw [hmarks] at h
      cases h
      exact ⟨rfl,rfl,hmarks,rfl⟩

/-- A session that is opened is made of what was got ready. -/
theorem openAs_cases {id : Text} {catalog : Catalog σ} {host : Text} {w w' : σ} {s : Session}
    {log : List Log.Record} (h : openAs id catalog host w = ⟨.ok s, w', log⟩) :
    ∃ opening log', prepare catalog host w = ⟨.ok opening, w', log'⟩ ∧
      s = ⟨id, opening.checklist, opening.known, opening.host⟩ := by
  rw [openAs, Action.bind_apply] at h
  rcases hprepare : prepare catalog host w with ⟨_ | opening,w₁,log₁⟩
  · rw [hprepare] at h
    cases h
  · rw [hprepare] at h
    cases h
    exact ⟨opening,log₁,rfl,rfl⟩

/-- A session that is opened under the next number is made of what was got ready. -/
theorem openNumbered_cases {catalog : Catalog σ} {host : Text} {n n' : Nat} {w w' : σ} {s : Session}
    {log : List Log.Record} (h : openNumbered catalog host (n, w) = ⟨.ok s, (n', w'), log⟩) :
    ∃ opening log', prepare catalog host w = ⟨.ok opening, w', log'⟩ ∧
      s = ⟨numberedId (n+1), opening.checklist, opening.known, opening.host⟩ ∧ n' = n+1 := by
  rw [openNumbered, Action.bind_apply, Action.onSecond_apply] at h
  rcases hprepare : prepare catalog host w with ⟨_ | opening,w₁,log₁⟩
  · rw [hprepare] at h
    cases h
  · rw [hprepare] at h
    simp only [Action.bind_apply, Action.world_apply, Action.onFirst_apply, Action.setWorld_apply,
      begin, Action.record_apply, Action.pure_apply, Outcome.mk.injEq, Except.ok.injEq,
      Prod.mk.injEq] at h
    obtain ⟨hs,⟨hn,rfl⟩,_⟩ := h
    exact ⟨opening,log₁,rfl,hs.symm,hn.symm⟩

end CategorySelection.Session
