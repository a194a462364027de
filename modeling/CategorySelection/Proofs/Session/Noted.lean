import CategorySelection.Proofs.Catalog.Noted
import CategorySelection.Proofs.Checklist.Operation
import CategorySelection.Proofs.Expression.Merged
import CategorySelection.Proofs.Session.Rows
/-!
What expressions, checklists and sessions note. Names of categories have no end of a line, and other
text of an expression is quoted. As they were given are repeated the names that a checklist is
started with although the catalog has none of them, and a text that is committed in place of the
draft.
-/

namespace CategorySelection

open Log (Record)

variable {σ τ : Type}

namespace Expression

variable {usable : σ → Prop} {w : σ}

theorem isTidy_readingRecord_iff (t : Text) : (readingRecord t).IsTidy ↔ t.IsOneLine :=
  (Record.isTidy_note_iff (.of_all rfl) _ t {} _).trans (and_iff_right Log.Context.isOneLine_empty)

theorem isTidy_of_mem_leftRecords (left : Text) : ∀ r ∈ leftRecords left, r.IsTidy := by
  rw [leftRecords.eq_def]
  split
  · exact List.forall_mem_nil _
  · refine List.forall_mem_singleton.mpr ((isTidy_readingRecord_iff _).mpr ?_)
    exact .append (.of_all rfl) (Text.isOneLine_quoted _)

/-- The atoms that contradict others are atoms of the expression. -/
theorem mem_of_mem_contradictions {marks : Assoc Mark} {as : List Atom} {a : Atom}
    (h : a ∈ contradictions marks as) : a ∈ as := by
  induction as generalizing marks with
  | nil => cases h
  | cons b rest ih =>
    rw [contradictions] at h
    split_ifs at h
    · rcases List.mem_cons.mp h with rfl | h
      · exact List.mem_cons_self
      · exact List.mem_cons_of_mem b (ih h)
    · exact List.mem_cons_of_mem b (ih h)

theorem isTidy_of_mem_parseRecords (t : Text) : ∀ r ∈ parseRecords t, r.IsTidy := by
  refine List.forall_mem_append.mpr ⟨isTidy_of_mem_leftRecords _,
    List.forall_mem_map.mpr fun a ha => ?_⟩
  have hname : a.name.IsOneLine :=
    .of_isName (proper_of_mem_atoms (mem_of_mem_contradictions ha)).named
  exact (isTidy_readingRecord_iff _).mpr (.append (.append (.of_all rfl) hname) (.of_all rfl))

theorem scan_notes (hw : usable w) (given : Option Text) :
    (scan given w).Notes usable Record.IsTidy fun _ => True := by
  cases given with
  | none => exact .pure hw trivial
  | some t =>
    rw [scan_some_apply]
    exact ⟨hw,isTidy_of_mem_leftRecords _,fun _ _ => trivial⟩

theorem collect_notes (hw : usable w) (given : Option Text) :
    (collect given w).Notes usable Record.IsTidy fun _ => True := by
  cases given with
  | none => exact .silent hw rfl
  | some t =>
    rw [collect_some]
    exact (Outcome.Notes.write hw (isTidy_of_mem_parseRecords t)).bind fun _ _ _ ht =>
      .pure ht trivial

end Expression

namespace Checklist

theorem isTidy_markRecord {name : Text} (hname : Category.isName name = true) (mark : Mark) :
    (markRecord name mark.label).IsTidy := by
  have hname : name.IsOneLine := .of_isName hname
  have hmark : mark.label.IsOneLine := by cases mark <;> exact .of_all rfl
  refine (Record.isTidy_note_iff (.of_all rfl) _ _ _ _).mpr
    ⟨(Log.Context.isOneLine_ofCategory name).mpr hname,?_⟩
  exact .append (.append (.append (.of_all rfl) hname) (.of_all rfl)) hmark

/-- The names that are missing from the catalog are repeated as they were given. -/
theorem isTidy_unknownRecords_iff (known marked : List Text) :
    (∀ r ∈ unknownRecords known marked, r.IsTidy) ↔
      ∀ name ∈ unknownNames known marked, name.IsOneLine := by
  rw [unknownRecords]
  cases unknownNames known marked with
  | nil => exact ⟨fun _ => List.forall_mem_nil _,fun _ => List.forall_mem_nil _⟩
  | cons name rest =>
    have hnames : (Text.join ", " (name :: rest)).IsOneLine ↔
        ∀ part ∈ name :: rest, Text.IsOneLine part :=
      Text.IsOneLine.join_iff (.of_all rfl)
    rw [List.forall_mem_singleton, ← hnames]
    refine (Record.isTidy_note_iff (.of_all rfl) _ _ {} none).trans ?_
    rw [and_iff_right Log.Context.isOneLine_empty, Text.IsOneLine.append_iff,
      and_iff_right (.of_all rfl)]

/-- The operations of a sound checklist note only what is tidy. -/
theorem operation_notes {c : Checklist} (hc : c.Sound) (o : Operation) :
    (o.perform c).Notes Sound Record.IsTidy fun _ => True := by
  have hadd {name : Text} {d : Checklist} (h : c.add name = .ok d) : d.Sound ∧
      Category.isName name = true := by
    have hd := sound_add hc h
    refine ⟨hd,hd.named name ?_⟩
    exact (mem_names_add h name).mpr (Or.inl rfl)
  cases o with
  | add name =>
    have hrow : (addRow name c).Notes Sound Record.IsTidy fun _ => True := by
      rw [addRow_apply]
      cases h : c.add name with
      | error e => exact .silent hc rfl
      | ok d => exact .silent (hadd h).1 rfl
    exact hrow.bind fun _ _ _ ht => .pure ht trivial
  | remove name => exact .silent (sound_remove name hc) rfl
  | clear name => exact .silent (sound_clear name hc) rfl
  | clearAll => exact .silent (sound_clearAll hc) rfl
  | set name label =>
    rw [Operation.perform, setLabel_apply]
    cases h : c.add name with
    | error e => exact .silent hc rfl
    | ok d =>
      obtain ⟨hd,hname⟩ := hadd h
      dsimp only
      cases Mark.ofLabel label with
      | error e => exact .silent hd rfl
      | ok mark =>
        exact ⟨sound_withMark name mark hd,
          List.forall_mem_singleton.mpr (isTidy_markRecord hname mark),fun _ _ => trivial⟩
  | setFlags name included excluded =>
    have hflags : (Checklist.setFlags name included excluded c).Notes Sound Record.IsTidy
        fun _ => True := by
      rw [setFlags_apply]
      cases h : c.add name with
      | error e => exact .silent hc rfl
      | ok d =>
        obtain ⟨hd,hname⟩ := hadd h
        exact ⟨sound_withMark name _ hd,List.forall_mem_singleton.mpr (isTidy_markRecord hname _),
          fun _ _ => trivial⟩
    exact hflags.bind fun _ _ _ ht => .pure ht trivial

end Checklist

namespace Session

section Records

theorem isTidy_note_iff (s : Session) (level : Log.Level) (t : Text) :
    (s.note level t).IsTidy ↔ s.id.IsOneLine ∧ t.IsOneLine :=
  (Record.isTidy_note_iff (.of_all rfl) level t (.ofSession s.id) none).trans
    (and_congr_left' (Log.Context.isOneLine_ofSession s.id))

theorem isOneLine_draft {s : Session} (h : s.checklist.Sound) : s.draft.IsOneLine := by
  have hplain : s.draft.IsPlain := by
    intro c hc
    have hgraphic := Expression.isGraphic_of_mem_write h.named hc
    simp only [Expression.isGraphic, CodePoint.isPlain, CodePoint.isBetween, Bool.and_eq_true,
      decide_eq_true_eq] at hgraphic ⊢
    omega
  exact hplain.isOneLine

/-- What is noted of a category that is switched is tidy, as its name was checked. -/
theorem isTidy_toggleRecord {s : Session} (h : s.checklist.Sound) (hid : s.id.IsOneLine)
    {name : Text} (hname : Category.isName name = true) (direction : Direction) :
    (toggleRecord name direction s).IsTidy := by
  have hname : name.IsOneLine := .of_isName hname
  have hdirection : direction.label.IsOneLine := by cases direction <;> exact .of_all rfl
  refine (Record.isTidy_note_iff (.of_all rfl) _ _ _ none).mpr
    ⟨(Log.Context.isOneLine_inSession name s.id).mpr ⟨hid,hname⟩,?_⟩
  simp only [Text.IsOneLine.append_iff, and_assoc]
  exact ⟨.of_all rfl,hname,.of_all rfl,hdirection,.of_all rfl,isOneLine_draft h⟩

/-- The record of a commit is tidy just if the text that was committed is one line. -/
theorem isTidy_commitRecord_iff (value : Text) {s : Session} (hid : s.id.IsOneLine) :
    (commitRecord value s).IsTidy ↔ value.IsOneLine := by
  rw [commitRecord, isTidy_note_iff, and_iff_right hid, Text.IsOneLine.append_iff,
    and_iff_right (.of_all rfl)]
  split_ifs with hempty
  · rw [List.isEmpty_iff.mp hempty]
    exact ⟨fun _ => .nil,fun _ => .of_all rfl⟩
  · exact Iff.rfl

end Records

section Openings

variable {catalog : Catalog σ} {usable : σ → Prop} {w : σ}
    (hs : catalog.store.IsTidy catalog.key usable) (hkey : catalog.key.IsOneLine)
    (hseeds : Catalog.AllNamed catalog.seeds) (hw : usable w)

include hs hkey hseeds hw in
/-- The names that an expression marks are names of categories, so they may be repeated. -/
theorem prepare_notes (host : Text) :
    (prepare catalog host w).Notes usable Record.IsTidy fun _ => True := by
  refine (Catalog.load_notes hs hkey hseeds hw).bind fun known w₁ _ h₁ => ?_
  have hread : (Expression.read host.trim w₁).Notes usable Record.IsTidy (· =
      Expression.parse host.trim) :=
    (Outcome.Notes.write h₁ (Expression.isTidy_of_mem_parseRecords _)).bind
      fun _ _ _ ht => .pure ht rfl
  refine hread.bind fun marks w₂ hmarks h₂ => ?_
  have hunknown : ∀ r ∈ Checklist.unknownRecords known marks.names, r.IsTidy := by
    rw [Checklist.isTidy_unknownRecords_iff, hmarks]
    intro name hname
    have hmarked := (List.mem_filter.mp ((Text.mem_sortedSet name _).mp hname)).1
    exact .of_isName ((Expression.selection_parse _).named name hmarked)
  have hstart : (Checklist.start known marks w₂).Notes usable Record.IsTidy fun _ => True :=
    (Outcome.Notes.write h₂ hunknown).bind fun _ _ _ ht => .ofExcept ht fun _ _ => trivial
  exact hstart.bind fun _ _ _ ht => .pure ht trivial

theorem begin_notes {id : Text} (hid : id.IsOneLine) (opening : Opening) (hw : usable w) :
    (begin id opening w).Notes usable Record.IsTidy (·.id = id) := by
  have hrecord (n m : Nat) :
      Text.IsOneLine ("Opened filter session with " ++ Text.ofNat n ++ " categories (" ++
      Text.ofNat m ++ " selected)") := by
    simp only [Text.IsOneLine.append_iff, and_assoc]
    exact ⟨.of_all rfl,(Text.IsPlain.ofNat n).isOneLine,.of_all rfl,
      (Text.IsPlain.ofNat m).isOneLine,.of_all rfl⟩
  exact (Outcome.Notes.record hw ((isTidy_note_iff _ _ _).mpr ⟨hid,hrecord _ _⟩)).bind
    fun _ _ _ ht => .pure ht rfl

include hs hkey hseeds hw in
theorem openAs_notes {id : Text} (hid : id.IsOneLine) (host : Text) :
    (openAs id catalog host w).Notes usable Record.IsTidy fun s => s.Sound ∧ s.id.IsOneLine := by
  have hopened : (openAs id catalog host w).Notes usable Record.IsTidy (·.id = id) :=
    (prepare_notes hs hkey hseeds hw host).bind fun opening _ _ ht => begin_notes hid opening ht
  refine ⟨hopened.world,hopened.log,fun s hresult => ⟨Opens.sound (.named hresult),?_⟩⟩
  rw [hopened.value s hresult]
  exact hid

include hs hkey hseeds hw in
theorem openNumbered_notes (host : Text) (n : Nat) : (openNumbered catalog host (n,w)).Notes
    (fun nw => usable nw.2) Record.IsTidy fun s => s.Sound ∧ s.id.IsOneLine := by
  have hprepare : ((prepare catalog host).onSecond (n,w)).Notes (fun nw => usable nw.2)
      Record.IsTidy
      fun _ => True :=
    (prepare_notes hs hkey hseeds hw host).onPart fun _ ht => ht
  have hopened : (openNumbered catalog host (n,w)).Notes (fun nw => usable nw.2) Record.IsTidy
      (·.id.IsOneLine) := by
    refine hprepare.bind fun opening nw _ hnw => ?_
    have hnow : (Action.world nw).Notes (fun nw : Nat × σ => usable nw.2) Record.IsTidy
        fun _ => True :=
      .silent hnw rfl
    refine hnow.bind fun now nw _ hnw => ?_
    have hcount : ((Action.setWorld (now.1+1)).onFirst nw).Notes (fun nw : Nat × σ => usable nw.2)
        Record.IsTidy
        fun _ => True := .silent hnw rfl
    refine hcount.bind fun _ nw _ hnw => ?_
    have hnumber : (numberedId (now.1+1)).IsOneLine := (Text.IsPlain.ofHex 32 _).isOneLine
    have hbegin := begin_notes hnumber opening hnw
    refine ⟨hbegin.world,hbegin.log,fun s hresult => ?_⟩
    rw [hbegin.value s hresult]
    exact hnumber
  exact ⟨hopened.world,hopened.log,fun s hresult => ⟨Opens.sound (.numbered hresult),
    hopened.value s hresult⟩⟩

end Openings

namespace Command

/-- The texts that a command repeats in its records as they were given: the one that is to be
added, if the catalog can be loaded, and the one that takes the place of the draft, if the host
takes it. -/
def repeated (catalog : Catalog σ) (w : Session × σ) : Command σ → List Text
  | .add name => if (catalog.load w.2).result.isOk then [name.trim] else []
  | .commit send override =>
    if (send (w.1.offer override) w.2).result.isOk then override.toList.map Text.trim else []
  | _ => []

def IsTidy (usable : σ → Prop) : Command σ → Prop
  | .commit send _ => ∀ t w, usable w → (send t w).Notes usable Record.IsTidy fun _ => True
  | _ => True

end Command

section Commands

variable {catalog : Catalog σ} {usable : σ → Prop} {s : Session} {w : σ}

/-- A change notes only what is tidy: the name was checked when its row was added, and the draft is
made anew from the rows. -/
theorem change_notes (h : s.checklist.Sound) (hid : s.id.IsOneLine) (c : Change) :
    (c.perform s).Notes (·.id.IsOneLine) Record.IsTidy fun _ => True := by
  cases c with
  | clear name => exact .silent hid rfl
  | clearAll => exact .silent hid rfl
  | toggle name direction =>
    rw [Change.perform, Action.bind_apply, Action.ofExcept_apply]
    cases Direction.ofLabel direction with
    | error e => exact .silent hid rfl
    | ok d =>
      dsimp only
      rw [toggle_apply]
      cases hset : s.checklist.set name d.mark with
      | error e => exact .silent hid rfl
      | ok c =>
        have hname := (Checklist.set_eq_ok_iff name d.mark h).mp ⟨c,hset⟩
        have hc := Checklist.sound_set h hset
        refine ⟨hid,List.forall_mem_cons.mpr ⟨?_,List.forall_mem_singleton.mpr ?_⟩,
          fun _ _ => trivial⟩
        · exact Checklist.isTidy_markRecord hname d.mark
        · exact isTidy_toggleRecord (s := { s with checklist := c }) hc hid hname d

theorem log_addCategory (catalog : Catalog σ) (name : Text) (s : Session) (w : σ) :
    (addCategory catalog name (s,w)).log = (catalog.add name w).log := by
  rw [addCategory_apply]
  rcases catalog.add name w with ⟨_ | _ | why,w₁,log⟩
  · rfl
  · dsimp only
    cases s.checklist.add name.trim <;> rfl
  · rfl

variable (hs : catalog.store.IsTidy catalog.key usable) (hkey : catalog.key.IsOneLine)
  (hseeds : Catalog.AllNamed catalog.seeds) (h : s.Sound) (hid : s.id.IsOneLine) (hw : usable w)

include hs hkey hseeds hid hw in
/-- Adding through a session notes what adding to the catalog does. -/
theorem addCategory_notes (name : Text) : (addCategory catalog name (s,w)).Notes
    (fun w => w.1.id.IsOneLine ∧ usable w.2)
    (fun r => ((catalog.load w).result.isOk = true → name.trim.IsOneLine) →
      r.IsTidy) fun _ => True := by
  have hadd := Catalog.add_notes hs hkey hseeds hw name
  rw [addCategory_apply]
  rcases hout : catalog.add name w with ⟨_ | _ | why,w₁,log⟩ <;> rw [hout] at hadd
  · exact ⟨⟨hid,hadd.world⟩,hadd.log,fun _ _ => trivial⟩
  · dsimp only
    cases s.checklist.add name.trim with
    | error e => exact ⟨⟨hid,hadd.world⟩,hadd.log,fun _ _ => trivial⟩
    | ok c => exact ⟨⟨hid,hadd.world⟩,hadd.log,fun _ _ => trivial⟩
  · exact ⟨⟨hid,hadd.world⟩,hadd.log,fun _ _ => trivial⟩

include hs hkey hseeds hid hw in
theorem deleteCategory_notes (name : Text) : (deleteCategory catalog name (s,w)).Notes
    (fun w => w.1.id.IsOneLine ∧ usable w.2) Record.IsTidy fun _ => True := by
  have hdelete := Catalog.delete_notes hs hkey hseeds hw name
  rw [deleteCategory_apply]
  rcases hout : catalog.delete name w with ⟨_ | _,w₁,log⟩ <;> rw [hout] at hdelete
  · exact ⟨⟨hid,hdelete.world⟩,hdelete.log,fun _ _ => trivial⟩
  · exact ⟨⟨hid,hdelete.world⟩,hdelete.log,fun _ _ => trivial⟩

include hs hkey hseeds hid hw in
/-- Restoring through a session notes only what is tidy. -/
theorem restore_notes : (Session.restore catalog (s,w)).Notes
    (fun w => w.1.id.IsOneLine ∧ usable w.2) Record.IsTidy fun _ => True := by
  have hrestore := Catalog.restore_notes hs hkey hw
  rw [restore_apply]
  rcases hout : catalog.restore w with ⟨_ | _,w₁,log⟩ <;> rw [hout] at hrestore
  · exact ⟨⟨hid,hrestore.world⟩,hrestore.log,fun _ _ => trivial⟩
  have hload := Catalog.load_notes hs hkey hseeds hrestore.world
  dsimp only at hload ⊢
  rcases hout' : catalog.load w₁ with ⟨_ | known,w₂,log'⟩ <;> rw [hout'] at hload
  all_goals have hlog := List.forall_mem_append.mpr ⟨hrestore.log,hload.log⟩
  · exact ⟨⟨hid,hload.world⟩,hlog,fun _ _ => trivial⟩
  · dsimp only
    cases Checklist.ofMarks known s.checklist.selected with
    | error e => exact ⟨⟨hid,hload.world⟩,hlog,fun _ _ => trivial⟩
    | ok c => exact ⟨⟨hid,hload.world⟩,hlog,fun _ _ => trivial⟩

include h hid hw in
/-- A commit notes what the host notes, and then the text that the host took. -/
theorem commit_notes {send : Text → Action σ Unit}
    (hsend : (Command.commit send none).IsTidy usable) (override : Option Text) :
    (commit send override (s,w)).Notes (fun w => w.1.id.IsOneLine ∧ usable w.2)
    (fun r => (∀ t ∈ (Command.commit send override).repeated catalog (s,w), t.IsOneLine) → r.IsTidy)
      fun _ => True := by
  have htaken := hsend (s.offer override) w hw
  rw [commit_apply, Command.repeated]
  rcases hout : send (s.offer override) w with ⟨_ | _,w₁,log⟩ <;> rw [hout] at htaken
  · exact ⟨⟨hid,htaken.world⟩,fun r hr _ => htaken.log r hr,fun _ _ => trivial⟩
  · refine ⟨⟨hid,htaken.world⟩,fun r hr htexts => ?_,fun _ _ => trivial⟩
    rcases List.mem_append.mp hr with hr | hr
    · exact htaken.log r hr
    · rw [List.mem_singleton.mp hr]
      refine (isTidy_commitRecord_iff _ hid).mpr ?_
      cases override with
      | none => exact isOneLine_draft h.checklist
      | some t => exact htexts _ (List.mem_singleton_self _)

include hs hkey hseeds h hid hw in
/-- One command: its records are tidy if the texts that it repeats have no end of a line. -/
theorem command_notes {command : Command σ} (hc : command.IsTidy usable) :
    (command.perform catalog (s,w)).Notes (fun w => w.1.Sound ∧ w.1.id.IsOneLine ∧ usable w.2)
      (fun r => (∀ t ∈ command.repeated catalog (s,w), t.IsOneLine) → r.IsTidy) fun _ => True := by
  have hnotes : (command.perform catalog (s,w)).Notes (fun w => w.1.id.IsOneLine ∧ usable w.2)
      (fun r => (∀ t ∈ command.repeated catalog (s,w), t.IsOneLine) → r.IsTidy) fun _ => True := by
    cases command with
    | change c =>
      have hchange : (c.perform.onFirst (s,w)).Notes (fun w => w.1.id.IsOneLine ∧
          usable w.2) Record.IsTidy
          fun _ => True := (change_notes h.checklist hid c).onPart fun _ ht => ⟨ht,hw⟩
      exact (hchange.mono fun r hr _ => hr).map fun _ _ => trivial
    | add name =>
      refine ((addCategory_notes hs hkey hseeds hid hw name).mono fun r hr htexts =>
        hr fun hok => ?_).map
        fun _ _ => trivial
      rw [Command.repeated, if_pos hok] at htexts
      exact htexts _ (List.mem_singleton_self _)
    | delete name =>
      exact ((deleteCategory_notes hs hkey hseeds hid hw name).mono fun r hr _ => hr).map
        fun _ _ => trivial
    | restore =>
      exact ((restore_notes hs hkey hseeds hid hw).mono fun r hr _ => hr).map fun _ _ => trivial
    | commit send override => exact (commit_notes h hid hw hc override).map fun _ _ => trivial
  exact ⟨⟨h.perform catalog command w,hnotes.world⟩,hnotes.log,hnotes.value⟩

include hid in
/-- A text with the end of a line in it comes through to the log if a command repeats it. -/
theorem exists_untidy_of_command {command : Command σ} {t : Text}
    (ht : t ∈ command.repeated catalog (s,w)) (hbroken : ¬t.IsOneLine) :
    ∃ r ∈ (command.perform catalog (s,w)).log, ¬r.IsTidy := by
  cases command <;> rw [Command.perform, Action.log_bind_pure] <;> rw [Command.repeated] at ht
  case add name =>
    split_ifs at ht with hok
    · obtain rfl := List.mem_singleton.mp ht
      rw [log_addCategory]
      exact Catalog.exists_untidy_of_add hok hbroken
    · cases ht
  case commit send override =>
    split_ifs at ht with hok
    · cases override with
      | none => cases ht
      | some u =>
        obtain rfl := List.mem_singleton.mp ht
        rw [commit_apply]
        rcases hout : send (s.offer (some u)) w with ⟨_ | _,w₁,log⟩ <;> rw [hout] at hok
        · cases hok
        · refine ⟨_,List.mem_append_right log (List.mem_singleton_self _),?_⟩
          exact mt (isTidy_commitRecord_iff _ hid).mp hbroken
    · cases ht
  all_goals cases ht

end Commands

end Session

end CategorySelection
