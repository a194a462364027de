import CategorySelection.Proofs.Catalog.Beside
import CategorySelection.Proofs.Catalog.Refinement
import CategorySelection.Proofs.Session.Rows
/-!
The flags of rows. A session has its own copy of the names of the catalog, which its commands change
apart from what is saved. While nobody else edits the catalog and its store does not fail, the two
are the same.
-/

namespace CategorySelection

/-- What can be loaded can be read. -/
theorem Catalog.InMemory.exists_decode {catalog : Catalog (Assoc Text)} (hc : catalog.InMemory)
    {table : Assoc Text} {names : List Text} (h : (catalog.load table).result = .ok names) :
    ∀ raw, table.get? catalog.key = some raw → ∃ saved, decode raw = .ok saved := by
  intro raw hraw
  cases hd : decode raw with
  | ok saved => exact ⟨saved,rfl⟩
  | error e =>
    have hget := hc.get_apply table
    rw [hraw] at hget
    obtain ⟨log,hload⟩ := load_of_refused hget hd
    rw [hload] at h
    cases h

namespace Session

variable {τ : Type}

/-- A command that leaves the table of the catalog alone where it hands an expression to the
host. -/
def Command.Spares : Command (Assoc Text × τ) → Prop
  | .commit send _ => ∀ t w, (send t w).world.1 = w.1
  | _ => True

/-- A session in order that takes for the catalog the very names that the table holds for it. -/
structure Agrees (catalog : Catalog (Assoc Text)) (s : Session) (table : Assoc Text)
    (S : Finset Text) :
    Prop where
  sound : s.Sound
  holds : catalog.Holds table S
  known : ∀ name, name ∈ s.known ↔ name ∈ S

theorem known_perform_change (c : Change) (s : Session) : (c.perform s).world.known = s.known := by
  cases c with
  | toggle name direction =>
    rw [Change.perform, Action.bind_apply, Action.ofExcept_apply]
    cases Direction.ofLabel direction with
    | error e => rfl
    | ok d =>
      dsimp only
      rw [toggle_apply]
      cases s.checklist.set name d.mark <;> rfl
  | clear name => rfl
  | clearAll => rfl

namespace Agrees

variable {catalog : Catalog (Assoc Text)} {s : Session} {table : Assoc Text} {S : Finset Text}

/-- Adding a category keeps both copies of the names alike. Where nothing is added, they stay as
they are. -/
theorem addCategory (h : s.Agrees catalog table S) (hc : catalog.InMemory)
    (name : Text) (rest : τ) :
    let left := (Session.addCategory catalog.beside name (s, table, rest)).world
    ∃ T, left.1.Agrees catalog left.2.1 T := by
  intro left
  have hsound : left.1.Sound := h.sound.addCategory catalog.beside name (table, rest)
  have happly := addCategory_apply (catalog.beside : Catalog (Assoc Text × τ)) name s (table, rest)
  rw [Catalog.add_beside, Action.onFirst_apply] at happly
  rcases h.holds.add_cases hc name
    with ⟨table',log,hadd,hname,hholds⟩ | ⟨why,table',log,hadd,hholds⟩
  · obtain ⟨c,hrow⟩ := (Checklist.add_eq_ok_iff name.trim s.checklist h.sound.checklist).mpr hname
    rw [hadd] at happly
    dsimp only at happly
    rw [hrow] at happly
    dsimp only [left] at hsound ⊢
    rw [happly] at hsound ⊢
    refine ⟨_,hsound,hholds,?_⟩
    intro other
    rw [Text.mem_insertSorted, Finset.mem_insert, h.known]
  · rw [hadd] at happly
    dsimp only [left] at hsound ⊢
    rw [happly] at hsound ⊢
    exact ⟨S,h.sound,hholds,h.known⟩

/-- Deleting a category keeps both copies of the names alike. -/
theorem deleteCategory (h : s.Agrees catalog table S) (hc : catalog.InMemory)
    (name : Text) (rest : τ) :
    let left := (Session.deleteCategory catalog.beside name (s, table, rest)).world
    left.1.Agrees catalog left.2.1 (S.erase name) := by
  intro left
  obtain ⟨hresult,hholds,_⟩ := h.holds.delete hc name
  have happly := deleteCategory_apply (catalog.beside : Catalog (Assoc Text × τ)) name s
    (table, rest)
  rw [Catalog.delete_beside, Action.onFirst_apply, hresult] at happly
  dsimp only [left]
  rw [happly]
  refine ⟨h.sound.forget name,hholds,?_⟩
  intro other
  rw [Finset.mem_erase, ← h.known, Session.forget, List.mem_filter, decide_eq_true_eq, and_comm]

/-- Restoring makes both copies the seeds. The rows are their names and the selected ones. -/
theorem restore (h : s.Agrees catalog table S) (hc : catalog.InMemory) (rest : τ) :
    ∃ checklist table' log, checklist.Sound ∧
      Checklist.ofMarks (catalog.seeds.toFinset.sort (· ≤ ·)) s.checklist.selected = .ok checklist ∧
      catalog.Holds table' catalog.seeds.toFinset ∧
      Session.restore catalog.beside (s, table, rest) = ⟨.ok checklist.expression,
        ({ s with checklist, known := catalog.seeds.toFinset.sort (· ≤ ·) }, table', rest),
          log⟩ := by
  obtain ⟨hresult,hholds⟩ := Catalog.Holds.restore hc table
  rcases hrestore : catalog.restore table with ⟨_,table₁,log₁⟩
  rw [hrestore] at hresult hholds
  obtain rfl : _ = Except.ok () := hresult
  obtain ⟨log₂,hload⟩ := hholds.load hc
  have hnamed : ∀ name ∈ catalog.seeds.toFinset.sort (· ≤ ·) ++ Assoc.names s.checklist.selected,
      Category.isName name = true := by
    intro name hname
    rcases List.mem_append.mp hname with hname | hname
    · exact hholds.named name ((Finset.mem_sort _).mp hname)
    · exact (Checklist.selection_selected h.sound.checklist).named name hname
  obtain ⟨checklist,hmarks⟩ := Checklist.ofMarks_eq_ok hnamed
  have happly := restore_apply (catalog.beside : Catalog (Assoc Text × τ)) s (table, rest)
  rw [Catalog.restore_beside, Catalog.load_beside, Action.onFirst_apply, hrestore] at happly
  dsimp only at happly
  rw [Action.onFirst_apply, hload] at happly
  dsimp only at happly
  rw [hmarks] at happly
  exact ⟨checklist,_,_,Checklist.sound_ofMarks hmarks,hmarks,hholds.started hc,happly⟩

/-- One step: the copies agree after a command, whether or not it failed. -/
theorem perform (h : s.Agrees catalog table S) (hc : catalog.InMemory) (rest : τ)
    {command : Command (Assoc Text × τ)} (hspares : command.Spares) :
    let left := (command.perform catalog.beside (s, table, rest)).world
    ∃ T, left.1.Agrees catalog left.2.1 T := by
  have hsound := h.sound.perform catalog.beside command (table, rest)
  cases command <;> rw [Command.perform, Action.world_bind_pure] at *
  case change c =>
    refine ⟨S,hsound,h.holds,?_⟩
    intro name
    rw [← h.known name]
    exact iff_of_eq (congrArg (name ∈ ·) (known_perform_change c s))
  case add name => exact h.addCategory hc name rest
  case delete name => exact ⟨_,h.deleteCategory hc name rest⟩
  case restore =>
    obtain ⟨checklist,table',log,hchecklist,hmarks,hholds,hrestore⟩ := h.restore hc rest
    rw [hrestore] at hsound ⊢
    refine ⟨_,hsound,hholds,?_⟩
    intro name
    dsimp only
    rw [Finset.mem_sort]
  case commit send override =>
    have hsame : (send (s.offer override) (table, rest)).world.1 = table := hspares _ _
    rw [commit_apply] at hsound ⊢
    rcases hsend : send (s.offer override) (table, rest) with ⟨_ | _,w,log⟩ <;>
      rw [hsend] at hsame hsound <;>
      exact ⟨S,hsound,hsame.symm ▸ h.holds,h.known⟩

/-- A whole run of commands. -/
theorem after (h : s.Agrees catalog table S) (hc : catalog.InMemory) (rest : τ)
    {commands : List (Command (Assoc Text × τ))} (hspares : ∀ command ∈ commands, command.Spares) :
    let reached := Command.after catalog.beside commands (s, table, rest)
    ∃ T, reached.1.Agrees catalog reached.2.1 T := by
  induction commands generalizing s table S rest with
  | nil => exact ⟨S,h⟩
  | cons command more ih =>
    rw [List.forall_mem_cons] at hspares
    obtain ⟨T,hnext⟩ := h.perform hc rest hspares.1
    exact ih hnext _ hspares.2

end Agrees

/-- A session that is opened takes for the catalog what the table holds. -/
theorem Opens.agrees {catalog : Catalog (Assoc Text)} (hc : catalog.InMemory) {host : Text}
    {s : Session} {w : Assoc Text × τ} (h : Opens catalog.beside host (s, w)) :
    ∃ S, s.Agrees catalog w.1 S := by
  obtain ⟨⟨table,rest⟩,opening,_,hp,_,hknown,_⟩ := h.prepared
  obtain ⟨hresult,hworld,_⟩ := prepare_cases hp
  rw [Catalog.load_beside, Action.onFirst_apply] at hresult hworld
  obtain ⟨S,hS⟩ := hc.exists_holds (hc.exists_decode hresult)
  obtain ⟨log,hload⟩ := hS.load hc
  rw [hload] at hresult hworld
  have hnames : s.known = S.sort (· ≤ ·) := hknown.trans (Except.ok.inj hresult).symm
  refine ⟨S,h.sound,?_,?_⟩
  · rw [← hworld]
    exact hS.started hc
  · intro name
    rw [hnames, Finset.mem_sort]

/-- A session can be opened on every text that is saved, unless the reader refuses it for its
size. -/
theorem exists_opening {catalog : Catalog (Assoc Text)} (hc : catalog.InMemory) {table : Assoc Text}
    (hread : ∀ raw, table.get? catalog.key = some raw → ∃ saved, Catalog.decode raw = .ok saved)
    (host : Text) (rest : τ) :
    ∃ opening w log, prepare (catalog.beside : Catalog (Assoc Text × τ)) host (table, rest) =
      ⟨.ok opening, w, log⟩ := by
  obtain ⟨S,hS⟩ := hc.exists_holds hread
  obtain ⟨log,hload⟩ := hS.load hc
  have hnamed : ∀ name ∈ S.sort (· ≤ ·) ++ (Expression.parse host.trim).names,
      Category.isName name = true := by
    intro name hname
    rcases List.mem_append.mp hname with hname | hname
    · exact hS.named name ((Finset.mem_sort _).mp hname)
    · exact (Expression.selection_parse host.trim).named name hname
  obtain ⟨checklist,hmarks⟩ := Checklist.ofMarks_eq_ok hnamed
  rw [prepare_apply, Catalog.load_beside, Action.onFirst_apply, hload]
  dsimp only
  rw [hmarks]
  exact ⟨_,_,_,rfl⟩

/-- While a session is the only user of a catalog whose table does not fail, the names that its rows
are flagged as having in the catalog are the names that the catalog loads, after any commands,
whether or not some of them failed; restoring leaves rows for these names and for the selected ones.
A session can be opened on every table whose text is not refused for its size, be it an array of
names, something else, or no JSON. -/
theorem flags_agree_with_catalog (key : Text) (seeds : List Text) (before : Assoc Text × τ)
    (catalog : Catalog (Assoc Text × τ))
    (hmake : (Catalog.make (Store.memory.onPart Prod.fst fun table w => (table, w.2)) key seeds
      before).result = .ok catalog) (host : Text) :
    (∀ (table : Assoc Text) (rest : τ),
      (∀ raw, table.get? key = some raw → ∃ saved, Catalog.decode raw = .ok saved) →
      (∀ id, ∃ s, (openAs id catalog host (table, rest)).result = .ok s) ∧
      ∀ n, ∃ s, (openNumbered catalog host (n, table, rest)).result = .ok s) ∧
    ∀ (s : Session) (w : Assoc Text × τ), Opens catalog host (s, w) →
      ∀ commands : List (Command (Assoc Text × τ)), (∀ command ∈ commands, command.Spares) →
      let reached := Command.after catalog commands (s, w)
      let restored := Session.restore catalog reached
      (∃ names, (catalog.load reached.2).result = .ok names ∧
        ∀ name, name ∈ names ↔ ∃ row ∈ reached.1.rows, row.name = name ∧ row.inCatalog = true) ∧
      restored.result.isOk = true ∧
      ∃ names, (catalog.load restored.world.2).result = .ok names ∧
        ∀ name, name ∈ restored.world.1.rows.map Row.name ↔
          name ∈ names ∨ ∃ row ∈ reached.1.rows, row.name = name ∧ row.mark ≠ .neutral := by
  rw [Catalog.make_apply, Except.ok.injEq] at hmake
  subst hmake
  let inner : Catalog (Assoc Text) := ⟨Store.memory,key,seeds.filter Category.isName⟩
  have hc : inner.InMemory := Catalog.inMemory_make key seeds
  have hload {table : Assoc Text} {S : Finset Text} (h : inner.Holds table S) (rest : τ) :
      ((inner.beside : Catalog (Assoc Text × τ)).load (table, rest)).result =
      .ok (S.sort (· ≤ ·)) := by
    obtain ⟨log,hload⟩ := h.load hc
    rw [Catalog.load_beside, Action.onFirst_apply, hload]
  constructor
  · intro table rest hread
    obtain ⟨opening,w,log,hp⟩ := exists_opening hc hread host rest
    constructor
    · intro id
      exact ⟨_,congrArg Outcome.result (Action.bind_of_ok hp (begin id))⟩
    · intro n
      have hsecond : ((prepare inner.beside host).onSecond : Action (Nat × Assoc Text × τ) Opening)
          (n, table, rest) = ⟨.ok opening, (n, w), log⟩ := by rw [Action.onSecond_apply, hp]
      exact ⟨_,congrArg Outcome.result (Action.bind_of_ok hsecond _)⟩
  · intro s w hopen commands hspares reached restored
    obtain ⟨S,hS⟩ := hopen.agrees hc
    obtain ⟨T,hT⟩ : ∃ T, reached.1.Agrees inner reached.2.1 T := hS.after hc w.2 hspares
    obtain ⟨checklist,table,log,hchecklist,hmarks,hholds,hrestore⟩ := hT.restore hc reached.2.2
    have hrestored : restored = _ := hrestore
    refine ⟨⟨_,hload hT.holds reached.2.2,?_⟩,?_⟩
    · intro name
      rw [Finset.mem_sort, ← hT.known, hT.sound.mem_known_iff]
    · rw [hrestored]
      refine ⟨rfl,_,hload hholds _,?_⟩
      intro name
      rw [names_rows, Checklist.mem_names_ofMarks hmarks,
        Checklist.mem_names_selected hT.sound.checklist,
        hT.sound.exists_row_iff name (· ≠ .neutral)]

/-- Names are added without the blanks at their ends, and taken away only as they are given; the
host may refuse an expression. -/
theorem flags_agree_with_catalog_untidy :
    let catalog : Catalog (Assoc Text × List Text) :=
      ⟨Store.memory.onPart Prod.fst fun table w => (table, w.2), "k", ["z"]⟩
    let refuse : Text → Action (Assoc Text × List Text) Unit := fun t => do
      Action.change fun w => (w.1, t :: w.2)
      Action.fail (.foreign .commit "no")
    let commands : List (Command (Assoc Text × List Text)) :=
      [.add " c ", .delete " a", .commit refuse none, .delete "b", .add "a"]
    let opened := openAs "s" catalog "Category=b" ([("k", "[\"b\", \"b b\", \"a\"]")], [])
    ∃ s, Opens catalog "Category=b" (s, opened.world) ∧
      let reached := Command.after catalog commands (s, opened.world)
      (catalog.load reached.2).result = .ok ["a", "c"] ∧
        (∃ row ∈ reached.1.rows, row.name = Text.ofString "c" ∧ row.inCatalog = true) ∧
        ¬∃ row ∈ reached.1.rows, row.name = Text.ofString "b" ∧ row.inCatalog = true := by
  intro catalog refuse commands opened
  let s : Session := ⟨"s", ⟨[("a", .neutral), ("b", .included)]⟩, ["a", "b"], "Category=b"⟩
  have hopen : Opens catalog "Category=b" (s, opened.world) :=
    .named (show opened.result = _ by decide +kernel)
  have hspares : ∀ command ∈ commands, command.Spares := by
    simp [commands, Command.Spares, refuse, Action.bind_apply]
  obtain ⟨⟨names,hnames,hflags⟩,_⟩ := (flags_agree_with_catalog "k" ["z", "?"] ([], []) catalog rfl
    "Category=b").2 _ _ hopen commands hspares
  have hload : (catalog.load (Command.after catalog commands (s, opened.world)).2).result =
      .ok ["a", "c"] := by decide +kernel
  rw [hload, Except.ok.injEq] at hnames
  subst hnames
  refine ⟨s,hopen,hload,(hflags "c").mp (by decide),?_⟩
  exact fun h => absurd ((hflags "b").mpr h) (by decide)

end Session

end CategorySelection
