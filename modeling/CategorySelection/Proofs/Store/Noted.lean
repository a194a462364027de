import CategorySelection.Proofs.Disk.Footprint
import CategorySelection.Proofs.Log.Noting
import CategorySelection.Proofs.Store.Beside
import CategorySelection.Proofs.Store.Change
/-!
What a store in a file notes. The place of a temporary file that stays behind is noted as it is, and
so is the path of the file when it cannot be read, so both must have no end of a line. What the file
holds is never repeated.
-/

namespace CategorySelection

open Log (Record)

namespace Path

structure IsOneLine (p : Path) : Prop where
  text : p.text.IsOneLine
  parts : ∀ part ∈ p.parts, part.IsOneLine

theorem IsOneLine.name {p : Path} (h : p.IsOneLine) : p.name.IsOneLine := by
  rw [Path.name]
  cases hlast : p.parts.getLast? with
  | none => exact .nil
  | some part => exact h.parts part (List.mem_of_getLast? hlast)

/-- A path whose text is one line has parts that are, for it is shown as its root and these. -/
theorem isOneLine_of_text {p : Path} (h : p.text.IsOneLine) : p.IsOneLine := by
  refine ⟨h,fun part hpart => ?_⟩
  have htext : p.text = p.root ++ Text.join "/" p.parts := by
    rw [text.eq_def]
    split
    · next hparts =>
      rw [hparts] at hpart
      cases hpart
    · rfl
  rw [htext, Text.IsOneLine.append_iff, Text.IsOneLine.join_iff (.of_all rfl)] at h
  exact h.2 part hpart

end Path

namespace Disk

def IsOneLine (d : Disk) : Prop := ∀ name ∈ d.current.toList, Text.IsOneLine name

variable {d d' : Disk} {p : Path}

/-- A location is one line: a step goes up or down by one name, so the names come from the path and
from the location at the start. -/
theorem isOneLine_target (hd : d.IsOneLine) (hp : ∀ part ∈ p.parts, Text.IsOneLine part) :
    (Location.text (d.target p)).IsOneLine := by
  have hsteps (names : List Text) (hnames : ∀ name ∈ names, Text.IsOneLine name) (l : Location)
      (hl : ∀ name ∈ l.toList, Text.IsOneLine name) :
      ∀ name ∈ (names.foldl step l).toList, Text.IsOneLine name := by
    induction names generalizing l with
    | nil => exact hl
    | cons first rest ih =>
      obtain ⟨hfirst,hrest⟩ := List.forall_mem_cons.mp hnames
      refine ih hrest (step l first) ?_
      rw [step]
      split_ifs
      · rw [Array.toList_pop]
        exact fun name hname => hl name (List.dropLast_subset _ hname)
      · rw [Array.toList_push]
        exact List.forall_mem_append.mpr ⟨hl,List.forall_mem_singleton.mpr hfirst⟩
  have hstart : ∀ name ∈ (if p.root.isEmpty then d.current else #[]).toList,
      Text.IsOneLine name := by
    split_ifs
    · exact hd
    · exact List.forall_mem_nil _
  exact .append (.of_all rfl) ((Text.IsOneLine.join_iff (.of_all rfl)).mpr
    (hsteps p.parts hp _ hstart))

theorem isOneLine_makeDirectory (hd : d.IsOneLine) (h : d.makeDirectory p = .ok d') :
    d'.IsOneLine := by
  obtain ⟨_,rfl⟩ := makeDirectory_eq_ok h
  exact hd

theorem ensureDirectoryAt_notes (hd : d.IsOneLine) (p : Path) :
    (ensureDirectoryAt p d).Notes IsOneLine Record.IsTidy fun _ => True := by
  refine (Outcome.Notes.world_eq hd).bind fun now d₁ hnow h₁ => ?_
  subst hnow
  cases hmake : now.makeDirectory p with
  | ok made => exact .setWorld (isOneLine_makeDirectory hd hmake)
  | error e =>
    dsimp only
    split_ifs
    · exact .fail _ h₁
    · have hlook : (Action.ofExcept ((now.hasDirectory p).mapError Fault.system) d₁).Notes IsOneLine
          Record.IsTidy
          fun _ => True := .silent h₁ rfl
      refine hlook.bind fun there d _ hd => ?_
      cases there with
      | true => exact .pure hd trivial
      | false => exact .fail _ hd

/-- By induction on the names from the last one up: making directories notes nothing. -/
theorem ensureDirectory_notes (hd : d.IsOneLine) (root : Text) (reversed : List Text) :
    (ensureDirectory root reversed d).Notes IsOneLine Record.IsTidy fun _ => True := by
  induction reversed generalizing d with
  | nil => exact ensureDirectoryAt_notes hd _
  | cons name above ih =>
    refine (Outcome.Notes.world_eq hd).bind fun now d₁ hnow h₁ => ?_
    subst hnow
    cases hmake : now.makeDirectory ⟨root,(name :: above).reverse⟩ with
    | ok made => exact .setWorld (isOneLine_makeDirectory hd hmake)
    | error e =>
      dsimp only
      split_ifs
      · exact (ih h₁).bind fun _ d _ hd => ensureDirectoryAt_notes hd _
      · exact ensureDirectoryAt_notes h₁ _

theorem ensure_notes (hd : d.IsOneLine) (p : Path) :
    (ensure p d).Notes IsOneLine Record.IsTidy fun _ => True := by
  have hcheck : (Action.ofExcept (checkPath p) d).Notes IsOneLine Record.IsTidy fun _ => True :=
    .silent hd rfl
  exact hcheck.bind fun _ d _ hd => ensureDirectory_notes hd p.root p.parts.reverse

end Disk

namespace Store.File

open Disk

variable {d : Disk} {p : Path} {options : FileOptions}

theorem isTidy_leftoverRecord (hd : d.IsOneLine) (hp : p.IsOneLine) (n : Nat) :
    (leftoverRecord (d.target (p.sibling (temporaryName p n)))).IsTidy := by
  have hnumber : (Text.ofNatPadded 8 n).IsOneLine := (Text.IsPlain.ofNatPadded 8 n).isOneLine
  have htemporary : (temporaryName p n).IsOneLine := by
    simp only [temporaryName, Text.IsOneLine.append_iff, and_assoc]
    exact ⟨.of_all rfl,hp.name,.of_all rfl,hnumber,.of_all rfl⟩
  have hparts : ∀ part ∈ (p.sibling (temporaryName p n)).parts, Text.IsOneLine part :=
    List.forall_mem_append.mpr ⟨fun part hpart => hp.parts part (List.dropLast_subset _ hpart),
      List.forall_mem_singleton.mpr htemporary⟩
  exact (Record.isTidy_note_iff (.of_all rfl) _ _ {} none).mpr
    ⟨Log.Context.isOneLine_empty,.append (.of_all rfl) (isOneLine_target hd hparts)⟩

/-- Giving up a temporary file is noted only if the system refuses to take it away. -/
theorem giveUp_notes {filled : Disk} {l : Location} (hfilled : filled.IsOneLine)
    (hleftover : (leftoverRecord l).IsTidy) (p : Path) (e : SystemFault) (d : Disk) :
    (giveUp p l e filled d).Notes Disk.IsOneLine Record.IsTidy fun _ => True := by
  rw [giveUp]
  cases hremove : filled.remove l with
  | ok removed =>
    rw [Disk.remove] at hremove
    split_ifs at hremove
    obtain rfl := Except.ok.inj hremove
    have hgone : (filled.erase l).IsOneLine := hfilled
    exact (Outcome.Notes.setWorld hgone).bind fun _ _ _ ht => .fail _ ht
  | error refused =>
    refine (Outcome.Notes.setWorld hfilled).bind fun _ _ _ ht => ?_
    exact (Outcome.Notes.record ht hleftover).bind fun _ _ _ ht => .fail _ ht

theorem write_notes (hd : d.IsOneLine) (hp : p.IsOneLine) (fields : Assoc Json) :
    (write p fields d).Notes Disk.IsOneLine Record.IsTidy fun _ => True := by
  refine (Outcome.Notes.world_eq hd).bind fun now d₁ hnow h₁ => ?_
  subst hnow
  cases hopen : openTemporary now p with
  | error e => exact .fail _ h₁
  | ok opened =>
    obtain ⟨l,d₂⟩ := opened
    obtain ⟨n,hl,_,hd₂⟩ := openTemporary_eq_ok hopen
    have hleftover : (leftoverRecord l).IsTidy := hl ▸ isTidy_leftoverRecord hd hp n
    rcases encodeChunks (Json.pageChunks (.object fields)) with ⟨bytes,fault⟩
    have hfilled : (d₂.fill l bytes).1.IsOneLine := hd₂ ▸ hd
    dsimp only
    generalize d₂.fill l bytes = fill at hfilled
    obtain ⟨filled,trouble⟩ := fill
    cases trouble with
    | error e => exact giveUp_notes hfilled hleftover p e d₁
    | ok _ =>
      cases fault with
      | some e => exact (Outcome.Notes.setWorld hfilled).bind fun _ _ _ ht => .fail _ ht
      | none =>
        dsimp only
        cases hmove : filled.move l p with
        | ok moved =>
          obtain ⟨_,_,_,_,_,rfl⟩ := move_eq_ok hmove
          exact .setWorld hfilled
        | error e => exact giveUp_notes hfilled hleftover p e d₁

/-- What is done under the lock notes what it notes without it. -/
theorem locked_notes {α : Type} {told : α → Prop} {x : Action Disk α} (hd : d.IsOneLine)
    (hx : ∀ d : Disk, d.IsOneLine → (x d).Notes Disk.IsOneLine Record.IsTidy told) :
    (locked options x d).Notes Disk.IsOneLine Record.IsTidy told := by
  rw [locked]
  by_cases hname : options.path.name.isEmpty = true
  · rw [if_pos hname]
    exact .fail _ hd
  rw [if_neg hname]
  have hcheck : (Action.ofExcept (checkPath (lockPath options.path)) d).Notes Disk.IsOneLine
      Record.IsTidy
      fun _ => True := .silent hd rfl
  refine hcheck.bind fun _ d _ hd => (Outcome.Notes.world_eq hd).bind fun now d₁ hnow h₁ => ?_
  subst hnow
  cases hopen : now.openEmpty (lockPath options.path) with
  | error e => exact .fail _ h₁
  | ok opened =>
    obtain ⟨l,d₂⟩ := opened
    obtain ⟨_,_,rfl⟩ := openEmpty_eq_ok hopen
    have hlock : (now.put l (.file [])).IsOneLine := hd
    refine (Outcome.Notes.setWorld hlock).bind fun _ d _ hd => ?_
    split_ifs
    · exact hx d hd
    · have hfree : ((now.put l (.file [])).letGo l).IsOneLine := hlock
      exact (Outcome.Notes.setWorld hfree).bind fun _ d _ hd => hx d hd
    · exact .fail _ hd

theorem change_notes (hd : d.IsOneLine) (hp : options.path.IsOneLine)
    (edit : Assoc Json → Option (Assoc Json)) :
    (change options edit d).Notes Disk.IsOneLine Record.IsTidy fun _ => True := by
  refine locked_notes hd fun d hd => ?_
  have hnow : (Action.world d).Notes Disk.IsOneLine Record.IsTidy fun _ => True := .silent hd rfl
  refine hnow.bind fun now d _ hd => ?_
  have hread : (Action.ofExcept (entries now options.path) d).Notes Disk.IsOneLine Record.IsTidy
      fun _ => True :=
    .silent hd rfl
  refine hread.bind fun fields d _ hd => ?_
  cases edit fields with
  | none => exact .pure hd trivial
  | some changed => exact write_notes hd hp changed

theorem get_apply (options : FileOptions) (key : Text) (d : Disk) :
    get options key d = ⟨(checkPath options.path).bind fun _ => entry d options.path key,d,[]⟩ := by
  cases hcheck : checkPath options.path with
  | error e =>
    rw [get, hcheck]
    rfl
  | ok u => exact get_eq hcheck key d

section Messages

variable {e : Fault}

/-- The faults with which the entries cannot be had name the path of the file. What else they tell
is quoted, counted, or one of a few words. -/
theorem isOneLine_of_entries (hp : p.text.IsOneLine) (h : entries d p = .error e) :
    e.message.IsOneLine := by
  have hunreadable (trouble : ReadTrouble) :
      (StorageFault.unreadable p.text trouble).message.IsOneLine := by
    simp only [StorageFault.message, Text.IsOneLine.append_iff, and_assoc]
    exact ⟨.of_all rfl,hp,.of_all rfl,trouble.isOneLine_message⟩
  rw [entries] at h
  split at h
  · split_ifs at h
    obtain rfl := Except.error.inj h
    exact hunreadable _
  · obtain rfl := Except.error.inj h
    exact hunreadable _
  · split_ifs at h
    split at h
    · cases h
    · obtain rfl := Except.error.inj h
      change Text.IsOneLine (_ ++ _ ++ _ ++ _)
      exact .append (.append (.append (.of_all rfl) hp) (.of_all rfl)) (Json.isOneLine_kindName _)
    · next fault _ _ _ _ =>
      obtain rfl := Except.error.inj h
      exact .append (.append (.append (.of_all rfl) hp) (.of_all rfl))
        (Json.ReadFault.isOneLine_message _)
    · obtain rfl := Except.error.inj h
      exact Json.ReadFault.isOneLine_message _

theorem isOneLine_of_heldText {key : Text} {found : Option Json} (hp : p.text.IsOneLine)
    (h : heldText key p.text found = .error e) : e.message.IsOneLine := by
  have hnotText (value : Json) :
      (StorageFault.notText key p.text value.kindName).message.IsOneLine := by
    simp only [StorageFault.message, Text.IsOneLine.append_iff, and_assoc]
    exact ⟨.of_all rfl,key.isOneLine_quoted,.of_all rfl,hp,.of_all rfl,
      value.isOneLine_kindName,.of_all rfl⟩
  rw [heldText.eq_def] at h
  split at h
  · cases h
  · cases h
  · cases h
  · obtain rfl := Except.error.inj h
    exact hnotText _

/-- What getting an entry complains about is told on one line. A path that the system cannot take is
no outage. -/
theorem isOneLine_of_get {key : Text} (hp : options.path.text.IsOneLine)
    (h : (get options key d).result = .error e) (he : e.kind.isUnavailable = true) :
    e.message.IsOneLine := by
  rw [get_apply] at h
  cases hcheck : checkPath options.path with
  | error fault =>
    rw [hcheck] at h
    obtain rfl := Except.error.inj h
    rw [checkPath] at hcheck
    split at hcheck
    · obtain rfl := Except.error.inj hcheck
      cases he
    · split_ifs at hcheck
      obtain rfl := Except.error.inj hcheck
      cases he
  | ok u =>
    rw [hcheck] at h
    have hentry : entry d options.path key = .error e := h
    rw [entry_eq] at hentry
    cases hentries : entries d options.path with
    | error fault =>
      rw [hentries] at hentry
      obtain rfl := Except.error.inj hentry
      exact isOneLine_of_entries hp hentries
    | ok fields =>
      rw [hentries] at hentry
      exact isOneLine_of_heldText hp hentry

end Messages

/-- A file on a path of one line has nothing untidy to note. -/
theorem isTidy_file (hp : options.path.text.IsOneLine) (key : Text) :
    (file options).IsTidy key Disk.IsOneLine := by
  have hpath := Path.isOneLine_of_text hp
  constructor
  · intro d hd
    have hget : (file options).get key d = get options key d := rfl
    rw [hget, get_apply]
    exact .silent hd rfl
  · intro d e _ hresult he
    exact isOneLine_of_get hp hresult he
  · intro value d hd
    have hset : (file options).set key value = set options key value := rfl
    rw [hset, set_eq]
    exact (ensure_notes hd _).bind fun _ d _ hd => change_notes hd hpath _
  · intro d hd
    have hremove : (file options).remove key d = remove options key d := rfl
    rw [hremove, remove_eq]
    refine (Outcome.Notes.world_eq hd).bind fun now d _ hd => ?_
    have hhas : (Action.ofExcept ((now.has options.path).mapError Fault.system) d).Notes
        Disk.IsOneLine
        Record.IsTidy fun _ => True := .silent hd rfl
    refine hhas.bind fun there d _ hd => ?_
    split_ifs
    · exact change_notes hd hpath _
    · exact .pure hd trivial

end Store.File

end CategorySelection
