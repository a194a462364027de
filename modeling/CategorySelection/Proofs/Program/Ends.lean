import CategorySelection.Proofs.Program.Edit
import CategorySelection.Proofs.Session.Target
import CategorySelection.Proofs.Store.Spared
/-!
How the command `edit` ends. Whatever the catalog is, the session comes to show the marks that the
edit leaves; its draft is printed and written to the file, unless a name or the file is refused.
-/

namespace CategorySelection

namespace Session

variable {s : Session} {marks : Assoc Mark}

theorem toggle_of_isName (h : s.Shows marks) {name : Text} (hname : Category.isName name = true)
    (direction : Direction) :
    ∃ t log, toggle name direction s = ⟨.ok t.draft,t,log⟩ ∧
      t.Shows (marks.put name direction.mark) := by
  have hword : Direction.ofLabel direction.label = .ok direction := by cases direction <;> decide
  obtain ⟨_,hshows⟩ := h.perform_change (.toggle name direction.label)
  rw [Change.perform, Action.bind_apply, Action.ofExcept_apply, Change.isGood, Change.effect,
    hword] at hshows
  dsimp only at hshows
  rw [hname] at hshows
  obtain ⟨checklist,hset⟩ := (Checklist.set_eq_ok_iff name direction.mark h.sound).mpr hname
  rw [toggle_apply, hset] at hshows ⊢
  exact ⟨{ s with checklist },_,rfl,hshows⟩

/-- Switching a bad name is refused and changes nothing, for no row has a bad name, so one would
have to be added for it. -/
theorem toggle_of_not_isName (h : s.Shows marks) {name : Text}
    (hname : Category.isName name = false) (direction : Direction) :
    toggle name direction s = ⟨.error (.invalidName name),s,[]⟩ := by
  have hrow : ¬s.checklist.has name = true := by
    rw [Checklist.has_iff]
    intro hm
    rw [h.sound.named name hm] at hname
    cases hname
  have hset : s.checklist.set name direction.mark = .error (.invalidName name) := by
    rw [Checklist.set, Checklist.add, if_neg hrow, Category.checkName, hname]
    rfl
  rw [toggle_apply, hset]

end Session

namespace Program

open Session

variable {s : Session} {marks : Assoc Mark} {e : PlainEdit}

section Names

variable {names : List Text}

/-- A run over names does the first of them and goes on with the others, unless the first one
fails. -/
theorem withNames_cons_apply (f : Text → Action Session Text) (name : Text)
    (rest : List (Arguments.Given Text)) (s : Session) :
    withNames f (.value name :: rest) s = match f name s with
      | ⟨.error e,t,log⟩ => ⟨.error e,t,log⟩
      | ⟨.ok _,t,log⟩ =>
        ⟨(withNames f rest t).result,(withNames f rest t).world,
          log ++ (withNames f rest t).log⟩ := by
  rw [withNames, Action.forEach, Action.bind_apply, needed, Action.bind_apply, Action.pure_apply]
  dsimp only
  rw [Action.bind_apply]
  rcases f name s with ⟨_ | _,t,log⟩
  · rfl
  · simp only [Action.pure_apply, List.nil_append, List.append_nil]
    rfl

/-- By induction on the names: switching good names puts the mark of each of them. -/
theorem withNames_toggle_of_named (h : s.Shows marks) (direction : Direction)
    (hnames : ∀ name ∈ names, Category.isName name = true) :
    ∃ t log, withNames (toggle · direction) (names.map .value) s = ⟨.ok (),t,log⟩ ∧
      t.Shows (names.foldl (fun marks name => marks.put name direction.mark) marks) := by
  induction names generalizing s marks with
  | nil => exact ⟨s,_,rfl,h⟩
  | cons name rest ih =>
    obtain ⟨hname,hrest⟩ := List.forall_mem_cons.mp hnames
    obtain ⟨t,log,htoggle,ht⟩ := toggle_of_isName h hname direction
    obtain ⟨t',log',hrun,ht'⟩ := ih ht hrest
    refine ⟨t',log ++ log',?_,ht'⟩
    rw [List.map_cons, withNames_cons_apply, htoggle]
    dsimp only
    rw [hrun]

/-- The first bad name ends the run. Switching a good name goes well, whatever the session shows, so
the bad one is still to come. -/
theorem withNames_toggle_of_misnamed (h : s.Shows marks) (direction : Direction) {bad : Text}
    (hbad : names.find? (!Category.isName ·) = some bad) :
    (withNames (toggle · direction) (names.map .value) s).result = .error (.invalidName bad) := by
  induction names generalizing s marks with
  | nil => cases hbad
  | cons name rest ih =>
    rw [List.map_cons, withNames_cons_apply]
    cases hname : Category.isName name with
    | true =>
      rw [List.find?_cons_of_neg (by rw [hname]; exact Bool.false_ne_true)] at hbad
      obtain ⟨t,log,htoggle,ht⟩ := toggle_of_isName h hname direction
      rw [htoggle]
      exact ih ht hbad
    | false =>
      rw [List.find?_cons_of_pos (by rw [hname]; rfl)] at hbad
      obtain rfl := Option.some_inj.mp hbad
      rw [toggle_of_not_isName h hname direction]

/-- Clearing is never refused. -/
theorem withNames_clear (h : s.Shows marks) (names : List Text) :
    ∃ t log, withNames Session.clear (names.map .value) s = ⟨.ok (),t,log⟩ ∧
      t.Shows (names.foldl (fun marks name => marks.erase name) marks) := by
  induction names generalizing s marks with
  | nil => exact ⟨s,_,rfl,h⟩
  | cons name rest ih =>
    have ht := (h.perform_change (.clear name)).2
    rw [Change.perform, clear_apply] at ht
    obtain ⟨t,log,hrun,ht'⟩ := ih (s := { s with checklist := s.checklist.clear name }) ht
    refine ⟨t,log,?_,ht'⟩
    rw [List.map_cons, withNames_cons_apply, clear_apply]
    dsimp only
    rw [hrun]
    rfl

end Names

section Switch

def switched (e : PlainEdit) (marks : Assoc Mark) : Assoc Mark :=
  let kept : Assoc Mark := if e.clearAll then [] else marks
  let included := e.includes.foldl (fun marks name => marks.put name .included) kept
  e.excludes.foldl (fun marks name => marks.put name .excluded) included

def switchNames (e : PlainEdit) : Action Session Unit := do
  withNames (toggle · .including) (e.includes.map .value)
  withNames (toggle · .excluding) (e.excludes.map .value)

/-- The switches of an edit come after everything was cleared or left. -/
theorem switch_apply (h : s.Shows marks) (e : PlainEdit) :
    ∃ t log, t.Shows (if e.clearAll then [] else marks) ∧ switch e.toEdit s =
      ⟨(switchNames e t).result,(switchNames e t).world,log ++ (switchNames e t).log⟩ := by
  rw [switch, PlainEdit.toEdit]
  dsimp only
  cases hall : e.clearAll with
  | false => exact ⟨s,[],h,rfl⟩
  | true =>
    have ht := (h.perform_change .clearAll).2
    rw [Change.perform, clearAll_apply] at ht
    exact ⟨{ s with checklist := s.checklist.clearAll },[],ht,rfl⟩

/-- The switches of good names are done and put their marks. -/
theorem switch_of_named (h : s.Shows marks) (hnamed : e.IsNamed) :
    ∃ t log, switch e.toEdit s = ⟨.ok (),t,log⟩ ∧ t.Shows (switched e marks) := by
  obtain ⟨hincludes,hexcludes⟩ := List.forall_mem_append.mp hnamed
  obtain ⟨t₁,log₁,h₁,hswitch⟩ := switch_apply h e
  obtain ⟨t₂,log₂,hinclude,h₂⟩ := withNames_toggle_of_named h₁ .including hincludes
  obtain ⟨t₃,log₃,hexclude,h₃⟩ := withNames_toggle_of_named h₂ .excluding hexcludes
  rw [hswitch, switchNames, Action.bind_of_ok hinclude, hexclude]
  exact ⟨t₃,_,rfl,h₃⟩

/-- The first bad name ends the switches. -/
theorem switch_of_misnamed (h : s.Shows marks) {bad : Text}
    (hbad : (e.includes ++ e.excludes).find? (!Category.isName ·) = some bad) :
    (switch e.toEdit s).result = .error (.invalidName bad) := by
  obtain ⟨t₁,log₁,h₁,hswitch⟩ := switch_apply h e
  rw [hswitch, switchNames]
  rw [List.find?_append] at hbad
  cases hfirst : e.includes.find? (!Category.isName ·) with
  | some first =>
    rw [hfirst] at hbad
    obtain rfl : first = bad := Option.some_inj.mp hbad
    have hinclude := withNames_toggle_of_misnamed h₁ .including hfirst
    rw [Action.bind_apply]
    rcases hrun : withNames (toggle · .including) (e.includes.map .value) t₁
      with ⟨_ | _,t₂,log₂⟩ <;>
      rw [hrun] at hinclude <;> cases hinclude
    rfl
  | none =>
    rw [hfirst, Option.none_or] at hbad
    have hincludes : ∀ name ∈ e.includes, Category.isName name = true := by
      intro name hname
      simpa using List.find?_eq_none.mp hfirst name hname
    obtain ⟨t₂,log₂,hinclude,h₂⟩ := withNames_toggle_of_named h₁ .including hincludes
    rw [Action.bind_of_ok hinclude]
    exact withNames_toggle_of_misnamed h₂ .excluding hbad

end Switch

/-- After the clears, what is selected is what the edit leaves. What the expression gives is never
neutral. -/
theorem get?_cleared (e : PlainEdit) (name : Text) :
    Assoc.get? name (e.clears.foldl (fun marks name => marks.erase name)
      (switched e (Expression.parse e.expression))) = e.selected.get? name := by
  have herase (table : Assoc Mark) (name other : Text) := Assoc.get?_erase name other table
  have hput (mark : Mark) (table : Assoc Mark) (name other : Text) :=
    Assoc.get?_put name other mark table
  have hmarked := (Expression.selection_parse e.expression).marked name
  rw [Assoc.get?_foldl herase, switched, Assoc.get?_foldl (hput .excluded),
    Assoc.get?_foldl (hput .included), PlainEdit.get?_selected, PlainEdit.mark, PlainEdit.settle]
  split_ifs
  · rfl
  · rfl
  · rfl
  · rfl
  · cases hgiven : (Expression.parse e.expression).get? name with
    | none => rfl
    | some mark =>
      cases mark with
      | neutral => exact absurd hgiven hmarked
      | included => rfl
      | excluded => rfl

/-- After the switches and the clears the draft is the line of the edit. -/
theorem draft_cleared (h : s.Shows (e.clears.foldl (fun marks name => marks.erase name)
    (switched e (Expression.parse e.expression)))) : s.draft = e.line := by
  have hnodup := h.selection.nodup
  rw [h.draft_eq]
  refine (PlainEdit.line_eq_write (Assoc.sorted_names_sortedLT _ hnodup) fun name => ?_).symm
  rw [Assoc.get?_sorted name _ hnodup, get?_cleared]

section Hand

variable {p : Path} {d : Disk}

theorem hand_of_none (houtput : e.output = none) (s : Session) (w : World) :
    hand e.toEdit (s, w) = ⟨.ok (),(s, w),[]⟩ := by
  rw [hand, PlainEdit.toEdit, houtput]
  rfl

theorem hand_of_some (houtput : e.output = some p) (s : Session) (n : Nat) (d : Disk) :
    hand e.toEdit (s, (n, d)) = match sendToFile p s.draft d with
      | ⟨.error why,d,log⟩ => ⟨.error why,(s, (n, d)),log⟩
      | ⟨.ok _,d,log⟩ => ⟨.ok (),({ s with host := s.draft }, (n, d)),
        log ++ [commitRecord s.draft { s with host := s.draft }]⟩ := by
  rw [hand, PlainEdit.toEdit, houtput]
  dsimp only [Option.map]
  rw [Action.bind_apply, commit_apply]
  dsimp only [needed]
  rw [Action.bind_apply, Action.pure_apply]
  dsimp only
  rw [Action.onSecond_apply]
  dsimp only [offer]
  rcases sendToFile p s.draft d with ⟨_ | _,d,log⟩
  · rfl
  · simp only [Action.pure_apply, List.nil_append, List.append_nil]

/-- The line is read from the file that it was written to. -/
theorem readText_put_line (h : d.CanOpen p) {line : Text} (hline : Json.IsKept (line ++ "\n")) :
    (d.put (d.target p) (.file (lineBytes line))).readText p = .ok (line ++ "\n") := by
  rw [Disk.readText, Disk.readBytes_put h]
  dsimp only
  rw [lineBytes, Utf8.decode_flatMap hline.isEncodable]
  dsimp only
  rw [hline.unifyLineEnds_eq_self]

end Hand

section Ends

/-- Once the names are switched and cleared, the edit ends as handing the draft to the file does. -/
theorem change_of_cleared {e : Edit} {t u : Session} {w : World} {log log' : List Log.Record}
    (hswitch : switch e s = ⟨.ok (),t,log⟩)
    (hclear : withNames Session.clear e.clears t = ⟨.ok (),u,log'⟩) :
    (change e (s, w)).result = (match (hand e (u, w)).result with
      | .error why => if why.kind = .commit then .ok (.refused why.message) else .error why
      | .ok () => .ok { lines := [(hand e (u, w)).world.1.draft] }) ∧
    (change e (s, w)).world.2 = (hand e (u, w)).world.2 := by
  rw [change, Action.bind_apply, Action.attempt_apply, Action.onFirst_apply, hswitch]
  dsimp only
  rw [Action.bind_apply, Action.onFirst_apply, hclear]
  dsimp only
  rw [Action.bind_apply, Action.attempt_apply]
  rcases hand e (u, w) with ⟨why | _,v,log⟩
  · dsimp only
    split_ifs <;> exact ⟨rfl,rfl⟩
  · exact ⟨rfl,rfl⟩

/-- An edit of bad names is refused with the first of them. -/
theorem change_of_misnamed {e : Edit} {bad : Text} {w : World}
    (hswitch : (switch e s).result = .error (.invalidName bad)) :
    (change e (s, w)).result = .ok (.refused (Fault.invalidName bad).message) ∧
      (change e (s, w)).world.2 = w := by
  rw [change, Action.bind_apply, Action.attempt_apply, Action.onFirst_apply]
  rcases hrun : switch e s with ⟨_ | _,t,log⟩ <;> rw [hrun] at hswitch <;> cases hswitch
  exact ⟨rfl,rfl⟩

/-- The line of an edit of good names comes back from a file as it was. -/
theorem isKept_line (h : e.IsNamed) : Json.IsKept (e.line ++ "\n") := by
  have hline : Json.IsKept e.line := by
    intro c hc
    rw [PlainEdit.line_eq_write_selected] at hc
    have hgraphic := Expression.isGraphic_of_mem_write (PlainEdit.isName_of_mem_selected h) hc
    simp only [Expression.isGraphic, CodePoint.isBetween, Bool.and_eq_true,
      decide_eq_true_eq] at hgraphic
    exact Json.isKept_of_isBetween (by omega)
  exact hline.append (Json.isKept_of_all rfl)

/-- In an open session the edit ends as it should, whatever else the checklist shows. With good
names, every way to end comes after the switches and the clears. -/
theorem ends_change (h : s.Shows (Expression.parse e.expression))
    (htakable : ∀ p, e.output = some p → Disk.checkPath p = .ok ()) (n : Nat) (d : Disk) :
    e.Ends d (change e.toEdit (s, (n, d))).result (change e.toEdit (s, (n, d))).world.2.2 := by
  constructor
  case misnamed =>
    intro bad hbad
    obtain ⟨hresult,hworld⟩ := change_of_misnamed (w := (n, d)) (switch_of_misnamed h hbad)
    exact ⟨hresult,congrArg Prod.snd hworld⟩
  all_goals
    intro hnamed
    obtain ⟨t,log,hswitch,ht⟩ := switch_of_named h hnamed
    obtain ⟨u,log',hclear,hu⟩ := withNames_clear ht e.clears
    obtain ⟨hresult,hworld⟩ := change_of_cleared (w := (n, d)) hswitch hclear
    have hdraft := draft_cleared hu
    have hkept := isKept_line hnamed
    have hline : e.line.isEncodable = true := (isEncodable_line e.line).symm.trans hkept.isEncodable
  case shown =>
    intro houtput
    rw [hresult, hworld, hand_of_none houtput, hdraft]
    exact ⟨rfl,rfl⟩
  case written =>
    intro p houtput hwrite
    have hsend := sendToFile_of_hasRoom (htakable p houtput) hwrite.1 hline hwrite.2
    have hafter : ({ u with host := e.line } : Session).draft = e.line := hdraft
    rw [hresult, hworld, hand_of_some houtput, hdraft, hsend]
    dsimp only
    rw [hafter]
    exact ⟨rfl,rfl,readText_put_line hwrite.1 hkept⟩
  case unopenable =>
    intro p why houtput hopen
    rw [hresult, hworld, hand_of_some houtput, sendToFile_of_unopenable (htakable p houtput) hopen]
    exact ⟨rfl,rfl⟩
  case unfinished =>
    intro p houtput hopen hroom
    have hsend := sendToFile_of_not_hasRoom (htakable p houtput) hopen hline hroom
    rw [hresult, hworld, hand_of_some houtput, hdraft, hsend]
    exact ⟨_,rfl,rfl⟩

/-- Over any catalog that can be loaded the edit ends as it should, on the disk that loading left.
Opening the session loads the catalog once, and touches the disk by nothing else. -/
theorem ends_edit {catalog : Catalog Disk} (hseeds : Catalog.AllNamed catalog.seeds) {d d' : Disk}
    {known : List Text} {log : List Log.Record} (hload : catalog.load d = ⟨.ok known,d',log⟩)
    {e : PlainEdit} (htakable : ∀ p, e.output = some p → Disk.checkPath p = .ok ()) (n : Nat) :
    e.Ends d' (edit catalog e.toEdit (n, d)).result (edit catalog e.toEdit (n, d)).world.2 := by
  have hready := isOk_prepare hseeds (congrArg Outcome.result hload) e.expression
  rw [← isOk_openNumbered_iff catalog e.expression n d] at hready
  rcases hopen : openNumbered catalog e.expression (n, d) with ⟨_ | s,⟨m,d₁⟩,log₁⟩ <;>
    rw [hopen] at hready
  · cases hready
  obtain ⟨opening,log₂,hprepare,_,_⟩ := openNumbered_cases hopen
  obtain ⟨_,hworld,_,_⟩ := prepare_cases hprepare
  obtain rfl : d' = d₁ := by rw [← hworld, hload]
  have hopens := Opens.numbered (congrArg Outcome.result hopen)
  have hends := ends_change hopens.shows htakable m d'
  have hexpression : e.toEdit.expression = e.expression := rfl
  rw [edit, hexpression, Action.bind_of_ok hopen]
  exact hends

end Ends

end Program

end CategorySelection
