import CategorySelection.Proofs.Store.Contents
/-!
Changes of a file. Setting and removing an entry read the entries under the lock, change them and
write the file anew. Such a change is done, or it ends with a fault and the file stays as it was.
-/

namespace CategorySelection

namespace Store.File

open Disk

def change (options : FileOptions) (edit : Assoc Json → Option (Assoc Json)) : Action Disk Unit :=
  locked options do
    let fields ← Action.ofExcept (entries (← Action.world) options.path)
    match edit fields with
    | some changed => write options.path changed
    | none => pure ()

/-- To set an entry is to make the directories and to change the file. -/
theorem set_eq (options : FileOptions) (key value : Text) :
    set options key value = (do
      Disk.ensure options.path.parent
      change options fun fields => some (fields.put key (.string value))) := rfl

def erasing (key : Text) (fields : Assoc Json) : Option (Assoc Json) :=
  if fields.has key then some (fields.erase key) else none

/-- To remove an entry is to change the file if it is there. -/
theorem remove_eq (options : FileOptions) (key : Text) :
    remove options key = (do
      if ← Action.ofExcept (((← Action.world).has options.path).mapError .system) then
        change options (erasing key)) := by
  have hedit (fields : Assoc Json) :
      (match erasing key fields with
        | some changed => write options.path changed
        | none => pure ()) =
      (if fields.has key then write options.path (fields.erase key) else pure () :
        Action Disk Unit) := by
    rw [erasing]
    split_ifs <;> rfl
  simp only [remove, change, hedit]

variable {options : FileOptions} {d d' : Disk}

theorem isUsable_of_mem_lock : ∀ c ∈ Text.ofString ".lock", isUsable c = true :=
  List.all_eq_true.mp (by decide)

/-- For a path that names a file the lock can be named too, so only opening it and waiting for it
can fail. -/
theorem locked_eq {α : Type} (hp : options.path.NamesFile) (x : Action Disk α) :
    locked options x = (do
      match (← Action.world).openEmpty (lockPath options.path) with
      | .error e => Action.fail (.storage (.unlockable options.path.text e))
      | .ok (l,d) =>
        Action.setWorld d
        if !d.isHeld l then x
        else if options.isEndless then do
          Action.setWorld (d.letGo l)
          x
        else Action.fail (.storage (.lockHeld options.path.text (options.patience.fixed 1)))) := by
  have hlock : checkPath (lockPath options.path) = .ok () :=
    (hp.usable_beside isUsable_of_mem_lock).2
  have hname : ¬options.path.name.isEmpty = true := by
    rw [List.isEmpty_iff]
    exact hp.named
  unfold locked
  simp only [hname, hlock, Bool.false_eq_true, ↓reduceIte]
  rfl

/-- What is done under the lock is done on the disk with the lock opened, unless the path, the
system or the lock refuses it. -/
theorem locked_cases {α : Type} (options : FileOptions) (x : Action Disk α) (d : Disk) :
    (∃ e, (locked options x d).result = .error e ∧ (options.path.NamesFile → e.isOutage = true) ∧
      (locked options x d).world = d) ∨
    (options.path.NamesFile ∧ ∃ d₁, Locks options.path d d₁ ∧
      ((∃ e, (locked options x d).result = .error e ∧ e.isOutage = true ∧
        (locked options x d).world = d₁) ∨
        locked options x d = x d₁)) := by
  by_cases hname : options.path.name = []
  · rw [locked, hname]
    exact Or.inl ⟨_,rfl,fun hp => absurd hname hp.named,rfl⟩
  have hnamed : ¬options.path.name.isEmpty = true := by rwa [List.isEmpty_iff]
  simp only [locked, hnamed, Bool.false_eq_true, ↓reduceIte, Action.bind_apply,
    Action.ofExcept_apply]
  cases hcheck : checkPath (lockPath options.path) with
  | error e =>
    refine Or.inl ⟨e,rfl,fun hp => ?_,rfl⟩
    have hlock : checkPath (lockPath options.path) = .ok () :=
      (hp.usable_beside isUsable_of_mem_lock).2
    rw [hlock] at hcheck
    cases hcheck
  | ok u =>
    simp only [Action.world_apply]
    cases hopen : d.openEmpty (lockPath options.path) with
    | error e => exact Or.inl ⟨_,rfl,fun _ => rfl,rfl⟩
    | ok opened =>
      obtain ⟨l,d₁⟩ := opened
      have hlocks := locks_of_openEmpty hopen
      refine Or.inr ⟨Path.namesFile_of_longer hname hcheck,?_⟩
      simp only [Action.bind_apply, Action.setWorld_apply]
      split_ifs
      · exact ⟨d₁,hlocks d₁.held,Or.inr rfl⟩
      · exact ⟨d₁.letGo l,hlocks _,Or.inr rfl⟩
      · exact ⟨d₁,hlocks d₁.held,Or.inl ⟨_,rfl,rfl,rfl⟩⟩

/-- A change under the lock ends with the fault with which the entries cannot be read, does nothing,
or writes the entries anew. -/
theorem change_under_lock (options : FileOptions) (edit : Assoc Json → Option (Assoc Json))
    (d : Disk) :
    (∃ e, (change options edit d).result = .error e ∧ (options.path.NamesFile → e.isOutage = true) ∧
      (change options edit d).world = d) ∨
    (options.path.NamesFile ∧ ∃ d₁, Locks options.path d d₁ ∧
      ((∃ e, (change options edit d).result = .error e ∧ e.isOutage = true ∧
          (change options edit d).world = d₁) ∨
        change options edit d = match entries d₁ options.path with
          | .error e => ⟨.error e,d₁,[]⟩
          | .ok fields =>
            match edit fields with
            | none => ⟨.ok (),d₁,[]⟩
            | some changed => write options.path changed d₁)) := by
  rcases locked_cases options (do
      let fields ← Action.ofExcept (entries (← Action.world) options.path)
      match edit fields with
      | some changed => write options.path changed
      | none => pure ()) d with hrefused | ⟨hp,d₁,hlocks,hheld | hdone⟩
  · exact Or.inl hrefused
  · exact Or.inr ⟨hp,d₁,hlocks,Or.inl hheld⟩
  · refine Or.inr ⟨hp,d₁,hlocks,Or.inr (hdone.trans ?_)⟩
    simp only [Action.bind_apply, Action.world_apply, Action.ofExcept_apply]
    cases entries d₁ options.path with
    | error e => rfl
    | ok fields =>
      dsimp only
      cases edit fields with
      | none => rfl
      | some changed => rfl

/-- A change under the lock: the system or the lock refuses it, or the entries cannot be read, or it
is done with the entries that were read. -/
theorem change_cases (hp : options.path.NamesFile) (edit : Assoc Json → Option (Assoc Json))
    (d : Disk) :
    (∃ e, (change options edit d).result = .error e ∧ e.isOutage = true ∧
      Spares (d.target options.path) d (change options edit d).world) ∨
    ∃ d₁, Spares (d.target options.path) d d₁ ∧
      change options edit d = match entries d₁ options.path with
        | .error e => ⟨.error e,d₁,[]⟩
        | .ok fields =>
          match edit fields with
          | none => ⟨.ok (),d₁,[]⟩
          | some changed => write options.path changed d₁ := by
  rcases change_under_lock options edit d with
    ⟨e,hresult,he,hworld⟩ | ⟨_,d₁,hlocks,⟨e,hresult,he,hworld⟩ | hdone⟩
  · refine Or.inl ⟨e,hresult,he hp,?_⟩
    rw [hworld]
    exact .refl _ d
  · exact Or.inl ⟨e,hresult,he,hworld ▸ hlocks.spares (target_ne_lock hp.named d)⟩
  · exact Or.inr ⟨d₁,hlocks.spares (target_ne_lock hp.named d),hdone⟩

/-- What a call does with the entries at the place of a file: it ends with a fault of the system
and they stay, or with the fault with which they are read, or it is done and they are the edited
ones. -/
def Edits (p : Path) (f : Assoc Json → Assoc Json) (r : Except Fault (Assoc Json))
    (o : Outcome Disk Unit) :
    Prop :=
  (∃ e, o.result = .error e ∧ e.isOutage = true ∧ Holds p r o.world) ∨
    (o.result = r.map (fun _ => ()) ∧ Holds p (r.map f) o.world)

theorem Edits.holds {f : Assoc Json → Assoc Json} {fields : Assoc Json} {o : Outcome Disk Unit}
    (h : Edits p f (.ok fields) o) (hdone : o.result = .ok ()) :
    Holds p (.ok (f fields)) o.world := by
  rcases h with ⟨e,hresult,_⟩ | ⟨_,hholds⟩
  · rw [hresult] at hdone
    cases hdone
  · exact hholds

def edited (edit : Assoc Json → Option (Assoc Json)) (fields : Assoc Json) : Assoc Json :=
  match edit fields with
  | some changed => settled changed
  | none => fields

variable {r : Except Fault (Assoc Json)}

/-- A change edits the entries: with the lock taken, what can be read is as before unless the system
refuses to read it, and as the changed entries can be written, only the system can refuse to. -/
theorem edits_change (hp : options.path.NamesFile) (h : Holds options.path r d)
    (edit : Assoc Json → Option (Assoc Json))
    (hedit : ∀ fields changed, r = .ok fields → edit fields = some changed →
      Json.Writable Json.maxNesting (.object changed)) :
    Edits options.path (edited edit) r (change options edit d) := by
  rcases change_cases hp edit d with ⟨e,hresult,he,hspares⟩ | ⟨d₁,hspares,hcases⟩
  · exact Or.inl ⟨e,hresult,he,h.spares hspares⟩
  have h₁ := h.spares hspares
  rcases h₁.entries with hentries | ⟨e,hentries,he⟩ <;> rw [hentries] at hcases
  · cases r with
    | error e =>
      rw [hcases]
      exact Or.inr ⟨rfl,h₁⟩
    | ok fields =>
      have hdone : Except.map (edited edit) (.ok fields : Except Fault (Assoc Json)) =
          .ok (edited edit fields) := rfl
      dsimp only at hcases
      rw [Edits, hdone, edited]
      cases hchanged : edit fields with
      | none =>
        rw [hchanged] at hcases
        rw [hcases]
        exact Or.inr ⟨rfl,h₁⟩
      | some changed =>
        rw [hchanged] at hcases
        obtain ⟨hencode,hcontents⟩ :=
          contents_written (hedit fields changed rfl hchanged) options.path.text
        rw [hcases]
        rcases write_cases hp.named changed d₁ with
          ⟨e,hwrite,he,hspares'⟩ | ⟨e,hfault,_⟩ | ⟨_,hwrite,hreplaced⟩
        · exact Or.inl ⟨e,hwrite,he,h₁.spares hspares'⟩
        · rw [hencode] at hfault
          cases hfault
        · refine Or.inr ⟨hwrite,?_⟩
          rw [← hcontents]
          exact .replaced hreplaced
  · rw [hcases]
    exact Or.inl ⟨e,rfl,he,h₁⟩

/-- To set an entry, the directories above the file are made first. -/
theorem edits_set (hp : options.path.NamesFile) (h : Holds options.path r d) (key : Text)
    {value : Text} (hwritable : ∀ fields, r = .ok fields →
      Json.Writable Json.maxNesting (.object (fields.put key (.string value)))) :
    Edits options.path (fun fields => settled (fields.put key (.string value))) r
      (set options key value d) := by
  have hparent : checkPath options.path.parent = .ok () :=
    (hp.usable_beside (List.forall_mem_nil _)).1
  obtain ⟨hspares,hfails⟩ := makesDirectories_ensure hparent d
  rw [set_eq, Action.bind_apply]
  rcases hensure : Disk.ensure options.path.parent d with ⟨e | _,d₁,log⟩ <;>
    rw [hensure] at hspares hfails
  · obtain ⟨cause,rfl⟩ := hfails e rfl
    exact Or.inl ⟨_,rfl,rfl,h.spares (hspares _)⟩
  · refine edits_change hp (h.spares (hspares _))
      (fun fields => some (fields.put key (.string value))) ?_
    intro fields changed hr hchanged
    obtain rfl := Option.some_inj.mp hchanged
    exact hwritable fields hr

theorem eq_of_erasing {key : Text} {fields changed : Assoc Json}
    (h : erasing key fields = some changed) :
    changed = fields.erase key := by
  rw [erasing] at h
  split_ifs at h
  exact (Option.some_inj.mp h).symm

/-- Without an entry of the key, erasing it is no change. -/
theorem edited_erasing (key : Text) (fields : Assoc Json) :
    edited (erasing key) fields = settled (fields.erase key) ∨
      edited (erasing key) fields = fields.erase key := by
  rw [edited, erasing]
  by_cases hhas : fields.has key = true
  · rw [if_pos hhas]
    exact Or.inl rfl
  · rw [if_neg hhas, Assoc.erase_eq_self hhas]
    exact Or.inr rfl

/-- Removing an entry edits the entries. Where nothing is found there are none to take away. -/
theorem edits_remove (hp : options.path.NamesFile) (h : Holds options.path r d) (key : Text)
    (hwritable : ∀ fields, r = .ok fields →
      Json.Writable Json.maxNesting (.object (fields.erase key))) :
    Edits options.path (edited (erasing key)) r (remove options key d) := by
  have hchange := edits_change hp h (erasing key) (by
    intro fields changed hr hchanged
    rw [eq_of_erasing hchanged]
    exact hwritable fields hr)
  rw [remove_eq]
  simp only [Action.bind_apply, Action.world_apply, Action.ofExcept_apply]
  cases hhas : d.has options.path with
  | error cause => exact Or.inl ⟨_,rfl,rfl,h⟩
  | ok there =>
    cases there with
    | true => exact hchange
    | false =>
      rcases h with ⟨rfl,hplace⟩ | ⟨bytes,hfind,rfl⟩
      · exact Or.inr ⟨rfl,Or.inl ⟨rfl,hplace⟩⟩
      · rw [Disk.has, look, hp.usable, hfind] at hhas
        cases hhas

end Store.File

end CategorySelection
