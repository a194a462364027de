import CategorySelection.Proofs.Catalog.Beside
import CategorySelection.Proofs.Catalog.Returns
import CategorySelection.Proofs.Expression.Canonical
import CategorySelection.Proofs.Session.Rows
/-!
Commits. The expression of the host is the last one that it took; nothing but a commit that the host
takes changes it, and a commit changes nothing else.
-/

namespace CategorySelection.Session

variable {σ τ : Type}

structure Sending where
  value : Text
  taken : Bool
  deriving Repr, DecidableEq

def noting (send : Text → Action σ Unit) (t : Text) : Action (σ × List Text) Unit := do
  Action.change fun w => (w.1, w.2 ++ [t])
  (send t).onFirst

namespace Command

def offered? (s : Session) : Command σ → Option Text
  | .change _ | .add _ | .delete _ | .restore => none
  | .commit _ override => some (s.offer override)

def noted : Command σ → Command (σ × List Text)
  | .change c => .change c
  | .add name => .add name
  | .delete name => .delete name
  | .restore => .restore
  | .commit send override => .commit (noting send) override

def sendings (catalog : Catalog σ) : List (Command σ) → Session × σ → List Sending
  | [], _ => []
  | command :: rest, w =>
    let outcome := command.perform catalog w
    ((command.offered? w.1).map fun value => ⟨value, outcome.result.isOk⟩).toList ++
      sendings catalog rest outcome.world

end Command

/-- The expression of a host after some were handed to it: the last one that it took. -/
def hostAfter (host : Text) (sendings : List Sending) : Text :=
  ((sendings.filter Sending.taken).getLast?.map Sending.value).getD host

/-- What the host has after more sendings is told by what it had before them. -/
theorem hostAfter_append (host : Text) (earlier later : List Sending) :
    hostAfter host (earlier ++ later) = hostAfter (hostAfter host earlier) later := by
  rw [hostAfter, hostAfter, hostAfter, List.filter_append, List.getLast?_append]
  cases (later.filter Sending.taken).getLast? <;> rfl

section Step

variable {s : Session}

theorem host_perform_change (c : Change) (s : Session) : (c.perform s).world.host = s.host := by
  cases c with
  | toggle name direction =>
    rw [Change.perform, Action.bind_apply, Action.ofExcept_apply]
    cases Direction.ofLabel direction with
    | error e => rfl
    | ok d =>
      dsimp only
      rw [toggle_apply]
      cases s.checklist.set name d.mark <;> rfl
  | clear name => rfl
  | clearAll => rfl

theorem host_addCategory (catalog : Catalog σ) (name : Text) (s : Session) (w : σ) :
    (addCategory catalog name (s, w)).world.1.host = s.host := by
  rw [addCategory_apply]
  rcases catalog.add name w with ⟨_ | _ | why,w,log⟩
  · rfl
  · dsimp only
    cases s.checklist.add name.trim <;> rfl
  · rfl

theorem host_deleteCategory (catalog : Catalog σ) (name : Text) (s : Session) (w : σ) :
    (deleteCategory catalog name (s, w)).world.1.host = s.host := by
  rw [deleteCategory_apply]
  rcases catalog.delete name w with ⟨_ | _,w,log⟩ <;> rfl

theorem host_restore (catalog : Catalog σ) (s : Session) (w : σ) :
    (Session.restore catalog (s, w)).world.1.host = s.host := by
  rw [restore_apply]
  rcases catalog.restore w with ⟨_ | _,w,log⟩
  · rfl
  dsimp only
  rcases catalog.load w with ⟨_ | known,w,log'⟩
  · rfl
  dsimp only
  cases Checklist.ofMarks known s.checklist.selected <;> rfl

/-- A commit that the host does not take leaves the session. -/
theorem commit_of_error {send : Text → Action τ Unit} {override : Option Text} {w : τ} {e : Fault}
    (h : (send (s.offer override) w).result = .error e) :
    (Session.commit send override (s, w)).result = .error e ∧
      (Session.commit send override (s, w)).world.1 = s := by
  rw [commit_apply]
  rcases hsend : send (s.offer override) w with ⟨_ | _,w',log⟩ <;> rw [hsend] at h <;> cases h
  exact ⟨rfl,rfl⟩

/-- A commit that the host takes changes the expression of the host and nothing else. -/
theorem commit_of_ok {send : Text → Action τ Unit} {override : Option Text} {w : τ}
    (h : (send (s.offer override) w).result = .ok ()) :
    (Session.commit send override (s, w)).result = .ok (s.offer override) ∧
      (Session.commit send override (s, w)).world.1 = { s with host := s.offer override } := by
  rw [commit_apply]
  rcases hsend : send (s.offer override) w with ⟨_ | _,w',log⟩ <;> rw [hsend] at h <;> cases h
  exact ⟨rfl,rfl⟩

/-- One step: the host has what it was given if it took it, and else what it had. -/
theorem host_perform (catalog : Catalog σ) (command : Command σ) (s : Session) (w : σ) :
    let outcome := command.perform catalog (s, w)
    outcome.world.1.host = hostAfter s.host
      ((command.offered? s).map fun value => ⟨value,outcome.result.isOk⟩).toList := by
  intro outcome
  cases command with
  | change c =>
    change ((Command.change c).perform catalog (s, w)).world.1.host = s.host
    rw [Command.perform, Action.world_bind_pure]
    exact host_perform_change c s
  | add name =>
    change ((Command.add name).perform catalog (s, w)).world.1.host = s.host
    rw [Command.perform, Action.world_bind_pure]
    exact host_addCategory catalog name s w
  | delete name =>
    change ((Command.delete name).perform catalog (s, w)).world.1.host = s.host
    rw [Command.perform, Action.world_bind_pure]
    exact host_deleteCategory catalog name s w
  | restore =>
    change (Command.restore.perform catalog (s, w)).world.1.host = s.host
    rw [Command.perform, Action.world_bind_pure]
    exact host_restore catalog s w
  | commit send override =>
    dsimp only [outcome]
    rw [Command.perform, Action.world_bind_pure, Action.isOk_bind_pure, Command.offered?,
      commit_apply]
    rcases send (s.offer override) w with ⟨_ | _,w',log⟩ <;> rfl

/-- One step with the host noting: it is given the one expression that a commit offers, and nothing
by another command. -/
theorem perform_noted (catalog : Catalog σ) (command : Command σ) (s : Session) (w : σ)
    (seen : List Text) :
    let outcome := command.perform catalog (s, w)
    command.noted.perform catalog.beside (s, (w, seen)) =
      ⟨outcome.result, (outcome.world.1, (outcome.world.2, seen ++ (command.offered? s).toList)),
        outcome.log⟩ := by
  intro outcome
  dsimp only [outcome]
  cases command with
  | change c =>
    rw [Command.noted, Command.perform, Command.perform, Action.bind_apply, Action.bind_apply]
    simp only [Action.onFirst_apply, Command.offered?, Option.toList_none, List.append_nil]
    rcases c.perform s with ⟨_ | _,t,log⟩ <;> rfl
  | add name =>
    rw [Command.noted, Command.perform, Command.perform, Action.bind_apply, Action.bind_apply,
      addCategory_apply, addCategory_apply, Catalog.add_beside, Action.onFirst_apply,
      Command.offered?, Option.toList_none, List.append_nil]
    rcases catalog.add name w with ⟨_ | _ | why,w',log⟩
    · rfl
    · dsimp only
      cases s.checklist.add name.trim <;> rfl
    · rfl
  | delete name =>
    rw [Command.noted, Command.perform, Command.perform, Action.bind_apply, Action.bind_apply,
      deleteCategory_apply, deleteCategory_apply, Catalog.delete_beside, Action.onFirst_apply,
      Command.offered?, Option.toList_none, List.append_nil]
    rcases catalog.delete name w with ⟨_ | _,w',log⟩ <;> rfl
  | restore =>
    rw [Command.noted, Command.perform, Command.perform, Action.bind_apply, Action.bind_apply,
      restore_apply, restore_apply, Catalog.restore_beside, Action.onFirst_apply, Command.offered?,
      Option.toList_none, List.append_nil]
    rcases catalog.restore w with ⟨_ | _,w',log⟩
    · rfl
    dsimp only
    rw [Catalog.load_beside, Action.onFirst_apply]
    rcases catalog.load w' with ⟨_ | known,w'',log'⟩
    · rfl
    dsimp only
    cases Checklist.ofMarks known s.checklist.selected <;> rfl
  | commit send override =>
    have hnoting (t : Text) : noting send t (w, seen) =
        ⟨(send t w).result,((send t w).world,seen ++ [t]),(send t w).log⟩ := rfl
    rw [Command.noted, Command.perform, Command.perform, Action.bind_apply, Action.bind_apply,
      commit_apply, commit_apply, hnoting, Command.offered?, Option.toList_some]
    rcases send (s.offer override) w with ⟨_ | _,w',log⟩ <;> rfl

end Step

/-- A whole run: the host has the last expression that it took. -/
theorem host_after (catalog : Catalog σ) (commands : List (Command σ)) (s : Session) (w : σ) :
    (Command.after catalog commands (s, w)).1.host =
      hostAfter s.host (Command.sendings catalog commands (s, w)) := by
  induction commands generalizing s w with
  | nil => rfl
  | cons command rest ih =>
    rw [Command.after, Command.sendings, hostAfter_append, ← host_perform catalog command s w]
    exact ih _ _

/-- A whole run with hosts that note: they see every expression that is handed over, once each. -/
theorem after_noted (catalog : Catalog σ) (commands : List (Command σ)) (s : Session) (w : σ)
    (seen : List Text) :
    let reached := Command.after catalog commands (s, w)
    Command.after catalog.beside (commands.map Command.noted) (s, (w, seen)) =
      (reached.1,
        (reached.2, seen ++ (Command.sendings catalog commands (s, w)).map Sending.value)) := by
  induction commands generalizing s w seen with
  | nil => exact congrArg (fun all => (s, (w, all))) (List.append_nil seen).symm
  | cons command rest ih =>
    rw [List.map_cons, Command.after, Command.after, perform_noted, Command.sendings]
    dsimp only
    rw [ih, List.map_append, List.append_assoc]
    cases command.offered? s <;> rfl

section Again

variable {s : Session}

theorem trim_draft (h : s.Sound) : s.draft.trim = s.draft := Expression.trim_write h.checklist.named

/-- Any expression can be opened over a catalog that can be loaded. -/
theorem isOk_prepare {catalog : Catalog τ} (hseeds : Catalog.AllNamed catalog.seeds) {v : τ}
    {names : List Text} (hload : (catalog.load v).result = .ok names) (host : Text) :
    (prepare catalog host v).result.isOk = true := by
  have hnamed : ∀ name ∈ names ++ (Expression.parse host.trim).names,
      Category.isName name = true := by
    intro name hname
    exact (List.mem_append.mp hname).elim (Catalog.allNamed_of_load hseeds hload name)
      ((Expression.selection_parse host.trim).named name)
  obtain ⟨checklist,hchecklist⟩ := Checklist.ofMarks_eq_ok hnamed
  rw [prepare_apply]
  rcases hout : catalog.load v with ⟨_ | known,v',log⟩ <;> rw [hout] at hload <;> cases hload
  dsimp only
  rw [hchecklist]
  rfl

theorem isOk_openAs_iff (id : Text) (catalog : Catalog τ) (host : Text) (v : τ) :
    (openAs id catalog host v).result.isOk = (prepare catalog host v).result.isOk := by
  rw [openAs, Action.bind_apply]
  rcases prepare catalog host v with ⟨_ | opening,v',log⟩ <;> rfl

theorem isOk_openNumbered_iff (catalog : Catalog τ) (host : Text) (n : Nat) (v : τ) :
    (openNumbered catalog host (n, v)).result.isOk = (prepare catalog host v).result.isOk := by
  rw [openNumbered, Action.bind_apply, Action.onSecond_apply]
  rcases prepare catalog host v with ⟨_ | opening,v',log⟩ <;> rfl

/-- A session that was opened on the draft of another one selects the same, and is not modified. -/
theorem Opens.of_draft (h : s.Sound) {catalog : Catalog τ} {t : Session} {v : τ}
    (hopen : Opens catalog s.draft (t, v)) :
    t.checklist.selected = s.checklist.selected ∧ t.draft = s.draft ∧ t.isModified = false := by
  have hselected : t.checklist.selected = s.checklist.selected := by
    apply Assoc.eq_of_get?_eq (Checklist.names_selected_sortedLT hopen.shows.sound)
      (Checklist.names_selected_sortedLT h.checklist)
    intro name
    rw [hopen.shows.selected, get?_parse_draft h.checklist,
      Checklist.get?_selected name h.checklist]
  have hdraft : t.draft = s.draft := by
    rw [draft, draft, Checklist.expression_eq_write_selected, hselected,
      ← Checklist.expression_eq_write_selected]
  refine ⟨hselected,hdraft,?_⟩
  rw [isModified, hdraft, hopen.host_eq, trim_draft h, decide_eq_false_iff_not, not_not]

end Again

/-- The expression of the host is that of the last commit which the host took, and the trimmed
expression that the session was opened on before there was one. In every session that commands can
reach, each commit gives its host one expression, the draft or the text in its place; it leaves the
session if the host does not take it, and changes nothing but the expression of the host if it does.
A session that commits its draft is not modified, and opening another one on it, over any catalog
that can be loaded, selects the same. -/
theorem host_tracks_commits {catalog : Catalog σ} {host : Text} {s : Session} {w : σ}
    (hopen : Opens catalog host (s, w)) (commands : List (Command σ)) :
    let reached := Command.after catalog commands (s, w)
    let sent := Command.sendings catalog commands (s, w)
    reached.1.host = hostAfter host.trim sent ∧
    Command.after catalog.beside (commands.map Command.noted) (s, (w, [])) =
      (reached.1, (reached.2, sent.map Sending.value)) ∧
    (∀ (send : Text → Action σ Unit) (override : Option Text),
      let value := override.elim reached.1.draft Text.trim
      let outcome := Session.commit send override reached
      (∀ e, (send value reached.2).result = .error e →
        outcome.result = .error e ∧ outcome.world.1 = reached.1) ∧
      ((send value reached.2).result = .ok () →
        outcome.result = .ok value ∧ outcome.world.1.host = value ∧
          outcome.world.1.rows = reached.1.rows ∧ outcome.world.1.draft = reached.1.draft)) ∧
    ∀ (send : Text → Action σ Unit) (value : Text),
      (Session.commit send none reached).result = .ok value →
      (Session.commit send none reached).world.1.isModified = false ∧
      ∀ {τ : Type} (store : Store τ) (key : Text) (seeds : List Text) (v₀ v : τ) (other : Catalog τ)
        (names : List Text), (Catalog.make store key seeds v₀).result = .ok other →
        (other.load v).result = .ok names →
        (∀ id, (openAs id other value v).result.isOk = true) ∧
        (∀ n, (openNumbered other value (n, v)).result.isOk = true) ∧
        ∀ t v', Opens other value (t, v') →
          t.checklist.selected = reached.1.checklist.selected ∧ t.draft = reached.1.draft ∧
            t.isModified = false := by
  intro reached sent
  have hsound : reached.1.Sound := hopen.sound.after catalog commands w
  have hoffer (override : Option Text) :
      reached.1.offer override = override.elim reached.1.draft Text.trim := by
    cases override <;> rfl
  refine ⟨?_,after_noted catalog commands s w [],?_,?_⟩
  · rw [← hopen.host_eq]
    exact host_after catalog commands s w
  · intro send override value outcome
    have hvalue : reached.1.offer override = value := hoffer override
    refine ⟨fun e he => commit_of_error (hvalue ▸ he),fun hok => ?_⟩
    have htaken : (send (reached.1.offer override) reached.2).result = .ok () := hvalue ▸ hok
    obtain ⟨hresult,hworld⟩ := commit_of_ok htaken
    have hend : outcome.world.1 = { reached.1 with host := reached.1.offer override } := hworld
    rw [hend, ← hvalue]
    exact ⟨hresult,rfl,rfl,rfl⟩
  · intro send value hdone
    rcases hsend : (send (reached.1.offer none) reached.2).result with e | u
    · have hfailed := (commit_of_error hsend).1
      rw [hdone] at hfailed
      cases hfailed
    obtain ⟨hresult,hworld⟩ := commit_of_ok hsend
    obtain rfl : value = reached.1.draft := Except.ok.inj (hdone.symm.trans hresult)
    refine ⟨?_,?_⟩
    · rw [hworld, isModified, decide_eq_false_iff_not, not_not]
      rfl
    · intro τ store key seeds v₀ v other names hmake hload
      rw [Catalog.make_apply] at hmake
      obtain rfl := Except.ok.inj hmake
      have hseeds : Catalog.AllNamed (seeds.filter Category.isName) :=
        fun _ h => (List.mem_filter.mp h).2
      have hready := isOk_prepare hseeds hload reached.1.draft
      refine ⟨fun id => (isOk_openAs_iff id _ _ v).trans hready,
        fun n => (isOk_openNumbered_iff _ _ n v).trans hready,fun t v' ht => ht.of_draft hsound⟩

/-- A text that the host took stays its expression when it refuses the draft. -/
theorem host_tracks_commits_refused :
    let catalog : Catalog (Assoc Text) := ⟨Store.memory, "k", ["A"]⟩
    let taking : Text → Action (Assoc Text) Unit := fun _ => pure ()
    let refusing : Text → Action (Assoc Text) Unit := fun _ => Action.fail (.invalidName "x")
    let commands : List (Command (Assoc Text)) :=
      [.change (.toggle "B" "exclude"), .commit taking (some " x "), .commit refusing none]
    ∃ s w, Opens catalog " Category=A " (s, w) ∧
      (Command.after catalog commands (s, w)).1.host = "x" ∧
      (Command.after catalog.beside (commands.map Command.noted) (s, (w, []))).2.2 =
        ["x", "Category=A&Category!=B"] := by
  intro catalog taking refusing commands
  have hopen : Opens catalog " Category=A " (⟨"s", ⟨[("A", .included)]⟩, ["A"], "Category=A"⟩, _) :=
    .named (show (openAs "s" catalog " Category=A " []).result = _ by decide +kernel)
  obtain ⟨hhost,hnoted,_⟩ := host_tracks_commits hopen commands
  refine ⟨_,_,hopen,hhost.trans ?_,(congrArg (fun w => w.2.2) hnoted).trans ?_⟩
  · decide +kernel
  · decide +kernel

end CategorySelection.Session
