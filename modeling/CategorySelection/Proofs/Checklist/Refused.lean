import CategorySelection.Proofs.Checklist.Indexed
/-!
Updates that fail. A name is looked at before anything is changed. A value that stands for no mark
is looked at only once its row is there, so a new row stays behind, as a neutral one.
-/

namespace CategorySelection.Checklist

/-- Marks a category by a value of any kind, given by what comes of looking at it: the mark that it
stands for, or the fault with which it is refused. -/
def Indexed.setGiven (name : Text) (given : Except Fault Mark) : Action Indexed Unit := do
  let _ ← addRow name
  let mark ← Action.ofExcept given
  putMark name mark
  Action.record (markRecord name mark.label)

inductive Update
  | add (name : Text)
  | set (name : Text) (given : Except Fault Mark)
  | setFlags (name : Text) (included excluded : Bool)

def Update.perform : Update → Action Indexed Unit
  | .add name => do
    let _ ← Indexed.addRow name
    return ()
  | .set name given => Indexed.setGiven name given
  | .setFlags name included excluded => do
    let _ ← Indexed.setFlags name included excluded
    return ()

theorem setLabel_eq_setGiven (name label : Text) :
    Indexed.setLabel name label = Indexed.setGiven name (Mark.ofLabel label) := rfl

variable {i : Indexed} {c : Checklist}

/-- A row is added if it is missing and the name is good, and a bad name is refused. -/
theorem Indexed.addRow_apply (name : Text) (i : Indexed) :
    Indexed.addRow name i =
      if i.has name then ⟨.ok false, i, []⟩
      else if Category.isName name then
        ⟨.ok true, ⟨Text.insertByBisection name i.index, i.marks.put name .neutral⟩, []⟩
      else ⟨.error (.invalidName name), i, []⟩ := by
  rw [Indexed.addRow, Action.bind_apply, Action.world_apply]
  dsimp only
  split_ifs with hhas hname
  · rfl
  all_goals
    rw [Action.bind_apply, Action.ofExcept_apply, Category.checkName]
    simp only [hname, Bool.false_eq_true, ↓reduceIte]
    rfl

/-- Whether an update gives a category that has no row a value that stands for no mark. The row is
then added before the value is looked at. -/
def Update.addsFirst (i : Indexed) : Update → Bool
  | .set name given => !i.has name && Category.isName name && !given.isOk
  | .add _ | .setFlags .. => false

section Fail

variable {name : Text} {e : Fault}

/-- A row that is refused leaves the checklist as it was. -/
theorem world_of_addRow_error (h : (Indexed.addRow name i).result = .error e) :
    (Indexed.addRow name i).world = i := by
  rw [Indexed.addRow_apply] at h ⊢
  split_ifs at h ⊢
  rfl

/-- A mark that is refused leaves the checklist with the row that was added. -/
theorem world_setGiven_of_error (fault : Fault) :
    (Indexed.setGiven name (.error fault) i).world = (Indexed.addRow name i).world := by
  rw [Indexed.setGiven, Action.bind_apply]
  rcases Indexed.addRow name i with ⟨_ | new,j,log⟩ <;> rfl

/-- A mark can always be put, so with one only the row can be refused. -/
theorem world_setGiven_of_ok {mark : Mark}
    (he : (Indexed.setGiven name (.ok mark) i).result = .error e) :
    (Indexed.setGiven name (.ok mark) i).world = i := by
  rcases hadd : Indexed.addRow name i with ⟨fault | new,j,log⟩
  · have hworld := world_of_addRow_error (congrArg Outcome.result hadd)
    rw [hadd] at hworld
    rw [Indexed.setGiven, Action.bind_apply, hadd]
    exact hworld
  · rw [Indexed.setGiven, Action.bind_of_ok hadd] at he
    cases he

/-- Two wishes make a mark in any case. -/
theorem setFlags_eq_setGiven (included excluded : Bool) :
    Indexed.setFlags name included excluded = (do
      let _ ← Indexed.setGiven name (.ok (Mark.ofFlags included excluded))
      return Mark.ofFlags included excluded) := by
  rw [← ofLabel_label, ← setLabel_eq_setGiven]
  rfl

theorem result_of_silent_error {α β : Type} {x : Action Indexed α} {b : β}
    (h : ((do let _ ← x; return b) i).result = .error e) : (x i).result = .error e := by
  rw [Action.result_bind_pure x fun _ => b] at h
  cases hx : (x i).result with
  | error fault =>
    rw [hx] at h
    exact congrArg Except.error (Except.error.inj h)
  | ok a =>
    rw [hx] at h
    cases h

/-- One update: if it fails, it leaves what there was, unless a row was added first. That is so just
if the row is missing and the name is good. -/
theorem world_of_error {u : Update} (he : (u.perform i).result = .error e) :
    (u.addsFirst i = false ∧ (u.perform i).world = i) ∨
      (u.addsFirst i = true ∧ ∃ name, u = .set name (.error e) ∧
        (u.perform i).world = (Indexed.addRow name i).world) := by
  cases u with
  | add name =>
    refine Or.inl ⟨rfl,?_⟩
    rw [Update.perform, Action.world_bind_pure _ fun _ => ()]
    exact world_of_addRow_error (result_of_silent_error he)
  | setFlags name included excluded =>
    refine Or.inl ⟨rfl,?_⟩
    rw [Update.perform, setFlags_eq_setGiven] at he ⊢
    rw [Action.world_bind_pure _ fun _ => (),
      Action.world_bind_pure _ fun _ => Mark.ofFlags included excluded]
    exact world_setGiven_of_ok (result_of_silent_error (result_of_silent_error he))
  | set name given =>
    rw [Update.perform] at he ⊢
    cases given with
    | ok mark =>
      have hfirst : (Update.set name (.ok mark)).addsFirst i = false := Bool.and_false _
      exact Or.inl ⟨hfirst,world_setGiven_of_ok he⟩
    | error fault =>
      have hfirst : (Update.set name (.error fault)).addsFirst i =
          (!i.has name && Category.isName name) :=
        Bool.and_true _
      have hadd := Indexed.addRow_apply name i
      rw [hfirst, world_setGiven_of_error]
      split_ifs at hadd with hhas hname
      · refine Or.inl ⟨?_,by rw [hadd]⟩
        rw [hhas]
        rfl
      · rw [Bool.not_eq_true] at hhas
        rw [Indexed.setGiven, Action.bind_of_ok hadd] at he
        obtain rfl := Except.error.inj he
        refine Or.inr ⟨?_,name,rfl,rfl⟩
        rw [hhas, hname]
        rfl
      · refine Or.inl ⟨?_,by rw [hadd]⟩
        rw [Bool.not_eq_true] at hname
        rw [hname]
        exact Bool.and_false _

end Fail

/-- The rows that there are once a row was added: the new one stands among those from before. -/
theorem rows_addRow (h : i.Shows c) {name : Text} (hnew : i.has name = false)
    (hname : Category.isName name = true) :
    (Indexed.addRow name i).world.rows = .ok (insertRow (name, .neutral) c.rows) := by
  have hadd : c.add name = .ok ⟨insertRow (name, .neutral) c.rows⟩ := by
    rw [Checklist.add, ← h.has, hnew, Category.checkName, hname]
    rfl
  have hshows := (h.addRow name).shows
  rw [addRow_apply, hadd] at hshows
  exact hshows.rows

/-- An update that fails leaves a checklist as it was, with one exception: a category without a row
which is given a value that stands for no mark has a neutral row afterwards, among the rows from
before. -/
theorem failed_update_keeps_rows (i : Indexed) (u : Update) {e : Fault}
    (he : (u.perform i).result = .error e) :
    let j := (u.perform i).world
    (u.addsFirst i = false → j = i) ∧
      (u.addsFirst i = true → ∃ name, u = .set name (.error e) ∧
        j.index = Text.insertByBisection name i.index ∧ j.marks = i.marks.put name .neutral ∧
        ∀ c, i.Shows c → j.rows = .ok (insertRow (name, .neutral) c.rows)) := by
  intro j
  rcases world_of_error he with ⟨hfirst,hworld⟩ | ⟨hfirst,name,rfl,hworld⟩
  · refine ⟨fun _ => hworld,fun hadds => ?_⟩
    rw [hfirst] at hadds
    cases hadds
  · refine ⟨fun hadds => ?_,fun _ => ?_⟩
    · rw [hfirst] at hadds
      cases hadds
    · have hj : j = (Indexed.addRow name i).world := hworld
      simp only [Update.addsFirst, Bool.and_eq_true, Bool.not_eq_true'] at hfirst
      obtain ⟨⟨hnew,hname⟩,_⟩ := hfirst
      have hadd := Indexed.addRow_apply name i
      rw [hnew, if_neg Bool.false_ne_true, if_pos hname] at hadd
      refine ⟨name,rfl,?_,?_,fun c h => ?_⟩
      · rw [hj, hadd]
      · rw [hj, hadd]
      · rw [hj]
        exact rows_addRow h hnew hname

/-- A word that stands for no mark, given to a category with a row and to one without. -/
theorem failed_update_keeps_rows_of_words :
    let i : Indexed := ⟨["Smoke"], [("Smoke", .excluded)]⟩
    let word : Except Fault Mark := Mark.ofLabel "maybe"
    ((Update.set "Smoke" word).perform i).result = .error (.unknownMark "maybe") ∧
      ((Update.set "Smoke" word).perform i).world = i ∧
      ((Update.set "New" word).perform i).result = .error (.unknownMark "maybe") ∧
      ((Update.set "New" word).perform i).world.index = ["New", "Smoke"] := by
  intro i word
  have hknown : ((Update.set "Smoke" word).perform i).result = .error (.unknownMark "maybe") := by
    decide
  have hnew : ((Update.set "New" word).perform i).result = .error (.unknownMark "maybe") := by
    decide
  obtain ⟨name,hname,hindex,_⟩ := (failed_update_keeps_rows i _ hnew).2 (by decide)
  obtain rfl : name = Text.ofString "New" := (Update.set.inj hname).1.symm
  exact ⟨hknown,(failed_update_keeps_rows i _ hknown).1 (by decide),hnew,hindex.trans (by cbv)⟩

/-- A category that is given a word which stands for no mark has a row afterwards, though it had
none. -/
theorem failed_update_adds_row :
    ∃ (i : Indexed) (u : Update) (e : Fault), (u.perform i).result = .error e ∧
      i.rows = .ok [("Smoke", .neutral)] ∧
      (u.perform i).world.rows = .ok [("New", .neutral), ("Smoke", .neutral)] := by
  refine ⟨⟨["Smoke"],[("Smoke",.neutral)]⟩,.set "New" (Mark.ofLabel "maybe"),
    .unknownMark "maybe",?_,?_,?_⟩
  · decide
  · decide
  · cbv

end CategorySelection.Checklist
