import CategorySelection.Proofs.Checklist.Map
import CategorySelection.Proofs.Session.Noted
import CategorySelection.Proofs.Session.Target
import CategorySelection.Proofs.Store.Noted
/-!
The log of a whole run. Catalogs, expressions, checklists and sessions are called in any order, with
any texts for names, expressions and directions; the session and the checklist that are at hand are
the ones that were made last, and a call that fails leaves what it leaves.
-/

namespace CategorySelection

open Log (Record)

/-- What is at hand: the world of a store, a checklist, a session, and the number of the last
session that was given one. -/
structure Desk (σ : Type) where
  store : σ
  checklist : Checklist
  session : Session
  opened : Nat

namespace Desk

variable {σ : Type}

inductive Call (σ : Type)
  | make (seeds : List Text)
  | catalog (operation : Catalog.Operation)
  | scan (expression : Option Text)
  | collect (expression : Option Text)
  | build (known : List Text) (labels : Assoc Text)
  | checklist (operation : Checklist.Operation)
  | openAs (id host : Text)
  | openNumbered (host : Text)
  | command (c : Session.Command σ)

def onStore {α : Type} (x : Action σ α) : Action (Desk σ) α :=
  x.onPart Desk.store fun w d => { d with store := w }

namespace Call

def perform (catalog : Catalog σ) : Call σ → Action (Desk σ) Unit
  | .make seeds => do
    let _ ← onStore (Catalog.make catalog.store catalog.key seeds)
    return ()
  | .catalog operation => do
    let _ ← onStore (operation.perform catalog)
    return ()
  | .scan expression => do
    let _ ← Expression.scan expression
    return ()
  | .collect expression => do
    let _ ← Expression.collect expression
    return ()
  | .build known labels => do
    let c ← Checklist.startLabelled known labels
    Action.change ({ · with checklist := c })
  | .checklist operation =>
    operation.perform.onPart Desk.checklist fun c d => { d with checklist := c }
  | .openAs id host => do
    let s ← onStore (Session.openAs id catalog host)
    Action.change ({ · with session := s })
  | .openNumbered host => do
    let s ← (Session.openNumbered catalog host).onPart (fun d => (d.opened, d.store))
      fun w d => { d with opened := w.1, store := w.2 }
    Action.change ({ · with session := s })
  | .command c => do
    let _ ← (c.perform catalog).onPart (fun d => (d.session, d.store))
      fun w d => { d with session := w.1, store := w.2 }
    return ()

def repeated (catalog : Catalog σ) (d : Desk σ) : Call σ → List Text
  | .catalog operation => operation.repeated catalog d.store
  | .build known labels => Checklist.unknownNames known labels.names
  | .command c => c.repeated catalog (d.session, d.store)
  | _ => []

/-- A call whose host notes only tidy records, and that gives a session no name with the end of a
line in it. -/
def IsTidy (usable : σ → Prop) : Call σ → Prop
  | .openAs id _ => id.IsOneLine
  | .command c => c.IsTidy usable
  | _ => True

def records (catalog : Catalog σ) : List (Call σ) → Desk σ → List Record
  | [], _ => []
  | call :: rest, d =>
    (call.perform catalog d).log ++ records catalog rest (call.perform catalog d).world

def repeatedAll (catalog : Catalog σ) : List (Call σ) → Desk σ → List Text
  | [], _ => []
  | call :: rest, d =>
    call.repeated catalog d ++ repeatedAll catalog rest (call.perform catalog d).world

end Call

/-- A desk as calls make it: the store is usable, and the checklist and the session are in order. -/
structure IsUsual (usable : σ → Prop) (d : Desk σ) : Prop where
  store : usable d.store
  checklist : d.checklist.Sound
  session : d.session.Sound
  id : d.session.id.IsOneLine

def fresh (w : σ) : Desk σ := ⟨w,{},⟨[],{},[],[]⟩,0⟩

/-- Over a usable store nothing at hand is a usual desk. -/
theorem isUsual_fresh {usable : σ → Prop} {w : σ} (hw : usable w) : (fresh w).IsUsual usable := by
  have hnone : Checklist.Sound {} := ⟨List.Pairwise.nil.sortedLT,List.forall_mem_nil _⟩
  exact ⟨hw,hnone,⟨hnone,List.forall_mem_nil _⟩,.nil⟩

/-- A file notes nothing, whether it takes the expression or not. -/
theorem isTidy_commit_sendToFile (p : Path) (override : Option Text) :
    (Call.command (.commit (Session.sendToFile p) override)).IsTidy Disk.IsOneLine := by
  intro t d hd
  rw [Session.sendToFile_apply]
  cases Disk.checkPath p with
  | error why => exact .silent hd rfl
  | ok _ =>
    dsimp only
    cases hopen : d.openEmpty p with
    | error why => exact .silent hd rfl
    | ok opened =>
      obtain ⟨l,emptied⟩ := opened
      obtain ⟨_,_,rfl⟩ := Disk.openEmpty_eq_ok hopen
      dsimp only
      cases Utf8.encode (t ++ "\n") with
      | error why => exact .silent hd rfl
      | ok bytes => exact .silent hd rfl

section Steps

variable {catalog : Catalog σ} {usable : σ → Prop} {d : Desk σ}
    (hs : catalog.store.IsTidy catalog.key usable) (hkey : catalog.key.IsOneLine)
    (hseeds : Catalog.AllNamed catalog.seeds) (hd : d.IsUsual usable)

include hs hkey hseeds hd in
/-- One call: its records are tidy if the texts that it repeats have no end of a line. -/
theorem call_notes {call : Call σ} (hcall : call.IsTidy usable) :
    (call.perform catalog d).Notes (IsUsual usable)
    (fun r => (∀ t ∈ call.repeated catalog d, t.IsOneLine) → r.IsTidy) fun _ => True := by
  have hstore {fine : Record → Prop} {α : Type} {told : α → Prop} {x : Action σ α}
      (hx : (x d.store).Notes usable fine told) : (onStore x d).Notes (IsUsual usable) fine told :=
    hx.onPart fun w hw => ⟨hw,hd.checklist,hd.session,hd.id⟩
  cases call with
  | make seeds =>
    have hmake : (Catalog.make catalog.store catalog.key seeds d.store).Notes usable Record.IsTidy
        fun _ => True :=
      (Outcome.Notes.write hd.store (Catalog.isTidy_of_mem_noteInvalid hkey
        (.of_all rfl) seeds)).bind
        fun _ _ _ ht => .pure ht trivial
    exact ((hstore hmake).mono fun r hr _ => hr).map fun _ _ => trivial
  | catalog operation =>
    exact (hstore (Catalog.operation_notes hs hkey hseeds hd.store operation)).map
      fun _ _ => trivial
  | scan expression =>
    exact ((Expression.scan_notes hd expression).mono fun r hr _ => hr).map fun _ _ => trivial
  | collect expression =>
    exact ((Expression.collect_notes hd expression).mono fun r hr _ => hr).map fun _ _ => trivial
  | checklist operation =>
    have hoperation : (operation.perform.onPart Desk.checklist (fun c d => { d with
        checklist := c }) d).Notes
        (IsUsual usable) Record.IsTidy fun _ => True :=
      (Checklist.operation_notes hd.checklist operation).onPart
        fun c hc => ⟨hd.store,hc,hd.session,hd.id⟩
    exact hoperation.mono fun r hr _ => hr
  | build known labels =>
    have hwrite : (Action.write (Checklist.unknownRecords known labels.names) d).Notes
        (IsUsual usable)
        (fun r => (∀ t ∈ Checklist.unknownNames known labels.names, t.IsOneLine) →
          r.IsTidy) fun _ => True :=
      .write hd fun r hr htexts =>
        (Checklist.isTidy_unknownRecords_iff known labels.names).mpr htexts r hr
    have hstart : (Checklist.startLabelled known labels d).Notes (IsUsual usable)
        (fun r => (∀ t ∈ Checklist.unknownNames known labels.names, t.IsOneLine) →
          r.IsTidy) Checklist.Sound :=
      hwrite.bind fun _ _ _ ht => .ofExcept ht fun c hc => Checklist.Starts.sound (.ofLabels hc)
    exact hstart.bind fun c d hc hd => .silent ⟨hd.store,hc,hd.session,hd.id⟩ rfl
  | openAs id host =>
    have hopen := Session.openAs_notes hs hkey hseeds hd.store hcall host
    refine ((hstore hopen).mono fun r hr _ => hr).bind fun s d hopened hd => ?_
    exact .silent ⟨hd.store,hd.checklist,hopened.1,hopened.2⟩ rfl
  | openNumbered host =>
    have hopen : ((Session.openNumbered catalog host).onPart (fun d => (d.opened,d.store))
        (fun w d => { d with opened := w.1, store := w.2 }) d).Notes (IsUsual usable) Record.IsTidy
          fun s => s.Sound ∧ s.id.IsOneLine :=
      Outcome.Notes.onPart (Session.openNumbered_notes hs hkey hseeds hd.store host d.opened)
        fun w hw => ⟨hw,hd.checklist,hd.session,hd.id⟩
    refine (hopen.mono fun r hr _ => hr).bind fun s d hopened hd => ?_
    exact .silent ⟨hd.store,hd.checklist,hopened.1,hopened.2⟩ rfl
  | command c =>
    have hcommand : ((c.perform catalog).onPart (fun d => (d.session,d.store))
        (fun w d => { d with session := w.1, store := w.2 }) d).Notes (IsUsual usable)
          (fun r => (∀ t ∈ c.repeated catalog (d.session,d.store), t.IsOneLine) →
            r.IsTidy) fun _ => True :=
      Outcome.Notes.onPart (Session.command_notes hs hkey hseeds hd.session hd.id hd.store hcall)
        fun w hw => ⟨hw.2.2,hd.checklist,hw.1,hw.2.1⟩
    exact hcommand.map fun _ _ => trivial

include hd in
/-- A text with the end of a line in it comes through to the log if a call repeats it. The names of
a checklist are noted before they are looked at, so it does not matter whether the checklist is
made. -/
theorem exists_untidy_of_call {call : Call σ} {t : Text} (ht : t ∈ call.repeated catalog d)
    (hbroken : ¬t.IsOneLine) : ∃ r ∈ (call.perform catalog d).log, ¬r.IsTidy := by
  cases call with
  | catalog operation =>
    rw [Call.perform, Action.log_bind_pure]
    exact Catalog.exists_untidy_of_operation ht hbroken
  | command c =>
    rw [Call.perform, Action.log_bind_pure]
    exact Session.exists_untidy_of_command hd.id ht hbroken
  | build known labels =>
    have huntidy : ∃ r ∈ Checklist.unknownRecords known labels.names, ¬r.IsTidy := by
      by_contra! htidy
      exact hbroken ((Checklist.isTidy_unknownRecords_iff known labels.names).mp htidy t ht)
    obtain ⟨r,hr,hbad⟩ := huntidy
    have hstart : Checklist.startLabelled known labels d =
        ⟨Checklist.ofLabels known labels,d,Checklist.unknownRecords known labels.names⟩ := by
      rw [Checklist.startLabelled, Action.bind_apply, Action.write_apply]
      simp only [Action.ofExcept_apply, List.append_nil]
    refine ⟨r,?_,hbad⟩
    rw [Call.perform, Action.bind_apply, hstart]
    cases Checklist.ofLabels known labels with
    | error e => exact hr
    | ok c => exact List.mem_append_left _ hr
  | make seeds | scan expression | collect expression | checklist operation | openAs id host
  | openNumbered host => cases ht

end Steps

/-- A run of calls with any texts, over any store that has nothing untidy to note: every record that
carries no fault is written on one line just if none of the texts that are repeated as they were
given has the end of a line in it. These are the text that is to be added to a catalog, the text
that is committed in place of a draft, and the names that a checklist is started with although the
catalog has none of them. An expression that is read, the name that is deleted, switched, marked or
cleared and the word for a direction or a mark are never among them. -/
theorem one_line_iff_repeated (catalog : Catalog σ) (usable : σ → Prop)
    (hs : catalog.store.IsTidy catalog.key usable) (hkey : catalog.key.IsOneLine)
    (hseeds : Catalog.AllNamed catalog.seeds) (d : Desk σ) (hd : d.IsUsual usable)
    (calls : List (Call σ)) (hcalls : ∀ call ∈ calls, call.IsTidy usable) :
    (∀ r ∈ Call.records catalog calls d, r.trouble = none → r.IsOneLine) ↔
      ∀ t ∈ Call.repeatedAll catalog calls d, t.IsOneLine := by
  induction calls generalizing d with
  | nil => exact ⟨fun _ => List.forall_mem_nil _,fun _ => List.forall_mem_nil _⟩
  | cons call rest ih =>
    obtain ⟨hcall,hrest⟩ := List.forall_mem_cons.mp hcalls
    have hnotes := call_notes hs hkey hseeds hd hcall
    have hfirst : (∀ r ∈ (call.perform catalog d).log, r.IsTidy) ↔
        ∀ t ∈ call.repeated catalog d, t.IsOneLine := by
      refine ⟨fun htidy t ht => ?_,fun htexts r hr => hnotes.log r hr htexts⟩
      by_contra hbroken
      obtain ⟨r,hr,hbad⟩ := exists_untidy_of_call hd ht hbroken
      exact hbad (htidy r hr)
    rw [Call.records, Call.repeatedAll, List.forall_mem_append, List.forall_mem_append]
    exact and_congr hfirst (ih _ hnotes.world hrest)

/-- On an empty disk: a draft that a file takes, a name that is not there to be deleted and an
expression with other text in it are noted on one line each, whatever ends of lines they have; the
name that is refused after that is not. -/
theorem one_line_iff_repeated_in_files :
    let catalog : Catalog Disk :=
      ⟨Store.file ⟨⟨"/",["s.json"]⟩,Store.FileOptions.defaultPatience⟩,"k",[]⟩
    let calls : List (Call Disk) :=
      [.command (.commit (Session.sendToFile ⟨"/",["filter.txt"]⟩) none),
      .catalog (.request (.delete "A\nB")),.collect (some "x\ny")]
    (∀ r ∈ Call.records catalog calls (fresh {}), r.trouble = none → r.IsOneLine) ∧
      ¬∀ r ∈ Call.records catalog (calls ++ [.catalog (.request (.tryAdd "A\nB"))]) (fresh {}),
        r.trouble = none → r.IsOneLine := by
  intro catalog calls
  have hs : catalog.store.IsTidy catalog.key Disk.IsOneLine :=
    Store.File.isTidy_file (.of_all rfl) catalog.key
  have hkey : catalog.key.IsOneLine := .of_all rfl
  have hd : (fresh ({} : Disk)).IsUsual Disk.IsOneLine := isUsual_fresh (List.forall_mem_nil _)
  have hcalls : ∀ call ∈ calls, call.IsTidy Disk.IsOneLine :=
    List.forall_mem_cons.mpr ⟨isTidy_commit_sendToFile _ none,List.forall_mem_cons.mpr
      ⟨trivial,List.forall_mem_singleton.mpr trivial⟩⟩
  have hrepeated : Call.repeatedAll catalog calls (fresh {}) = [] := by decide +kernel
  have hrepeated' : Call.repeatedAll catalog (calls ++ [.catalog (.request (.tryAdd "A\nB"))])
      (fresh {}) =
      [Text.ofString "A\nB"] := by decide +kernel
  constructor
  · refine (one_line_iff_repeated catalog _ hs hkey (List.forall_mem_nil _) _ hd calls hcalls).mpr
      ?_
    rw [hrepeated]
    exact List.forall_mem_nil _
  · intro hlines
    have hcalls' : ∀ call ∈ calls ++ [.catalog (.request (.tryAdd "A\nB"))],
        call.IsTidy Disk.IsOneLine :=
      List.forall_mem_append.mpr ⟨hcalls,List.forall_mem_singleton.mpr trivial⟩
    have htexts :=
      (one_line_iff_repeated catalog _ hs hkey (List.forall_mem_nil _) _ hd _ hcalls').mp hlines
    rw [hrepeated'] at htexts
    exact Text.IsOneLine.not_of_mem (.tail _ (.head _)) rfl (htexts _ (List.mem_singleton_self _))

/-- A name with a line feed is refused with a record of two lines, and the second one begins as the
name wants it. -/
theorem refused_name_breaks_line :
    let catalog : Catalog (Assoc Text) := ⟨Store.memory,"k",[]⟩
    let log :=
      (Call.perform catalog (.catalog (.request (.tryAdd "A\nB"))) (fresh [("k","[]")])).log
    (log.map fun r => (r.trouble,(r.line (.int 0)).toOption.map Log.Line.text)) =
        [(none,some
          (Text.ofString
            "1970-01-01 00:00:00.000 [WARNING ] [catalog   ] [category=A\nB storage_key=k] " ++
          Text.ofString "Category name 'A\nB' must contain only letters and digits"))] ∧
      ¬∀ r ∈ log, r.trouble = none → r.IsOneLine := by
  intro catalog log
  refine ⟨by decide +kernel,fun hlines => ?_⟩
  have hd : (fresh [(Text.ofString "k",Text.ofString "[]")]).IsUsual fun _ => True :=
    isUsual_fresh trivial
  have hrefused : Text.ofString "A\nB" ∈ (Call.catalog (.request (.tryAdd "A\nB"))).repeated catalog
      (fresh [("k","[]")]) := by decide +kernel
  have hbroken : ¬(Text.ofString "A\nB").IsOneLine :=
    Text.IsOneLine.not_of_mem (.tail _ (.head _)) rfl
  obtain ⟨r,hr,hbad⟩ := exists_untidy_of_call hd hrefused hbroken
  exact hbad (hlines r hr)

end Desk

end CategorySelection
