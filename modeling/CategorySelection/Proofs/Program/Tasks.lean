import CategorySelection.Program.Run
import CategorySelection.Proofs.Catalog.Apart
import CategorySelection.Proofs.Program.Launch
/-!
The command `categories` from run to run. Every run of the program sets up a catalog of its own, so
that nothing is left of the one before but the file. The runs show what a machine shows that keeps a
set of names and is never stopped.
-/

namespace CategorySelection

open Catalog Store Store.File

namespace CatalogTask

def request : CatalogTask → Request
  | .list => .load
  | .add name => .tryAdd name
  | .delete name => .delete name
  | .restore => .restore

def refusal (S : Finset Text) : CatalogTask → Option Rejection
  | .add name => Request.refusal S name.trim
  | .list | .delete _ | .restore => none

/-- Only a name that is to be added is refused: if nothing is left of it, if it is not good, and if
it is there already. -/
def IsRefused (S : Finset Text) : CatalogTask → Prop
  | .add name => name.trim = [] ∨ Category.isName name.trim = false ∨ name.trim ∈ S
  | .list | .delete _ | .restore => False

instance (S : Finset Text) (task : CatalogTask) : Decidable (task.IsRefused S) :=
  match task with
  | .add _ => inferInstanceAs (Decidable (_ ∨ _ ∨ _))
  | .list | .delete _ | .restore => inferInstanceAs (Decidable False)

/-- What the machine of a set of names shows for a task: its status, and the names. -/
def shown (seeds S : Finset Text) (task : CatalogTask) : Nat × List Text :=
  if task.IsRefused S then (1,[]) else (0,Text.inOrder (task.request.next seeds S))

def shownAll (seeds : Finset Text) : List CatalogTask → Finset Text → List (Nat × List Text)
  | [], _ => []
  | task :: rest, S => task.shown seeds S :: shownAll seeds rest (task.request.next seeds S)

/-- The catalog refuses a task just as the machine does. -/
theorem refusal_eq_none_iff (S : Finset Text) (task : CatalogTask) :
    task.refusal S = none ↔ ¬task.IsRefused S := by
  cases task with
  | add name =>
    rw [refusal, Request.refusal_eq_none_iff, IsRefused]
    simp only [not_or, Bool.not_eq_false]
    refine ⟨fun hgood => ⟨?_,hgood⟩,And.right⟩
    intro hempty
    rw [hempty] at hgood
    cases hgood.1
  | list | delete name | restore => exact ⟨fun _ => id,fun _ => rfl⟩

theorem named_next {seeds S : Finset Text} (hseeds : ∀ name ∈ seeds, Category.isName name = true)
    (hS : ∀ name ∈ S, Category.isName name = true) (task : CatalogTask) :
    ∀ name ∈ task.request.next seeds S, Category.isName name = true := by
  cases task with
  | list => exact hS
  | add name =>
    rw [request, Request.next]
    split_ifs with hgood
    · exact (Finset.forall_mem_insert _ _ _).mpr ⟨hgood.1,hS⟩
    · exact hS
  | delete name => exact fun other hother => hS other (Finset.mem_of_mem_erase hother)
  | restore => exact hseeds

/-- By induction on the tasks: what is shown are names of categories, in strictly increasing
order. -/
theorem shownAll_sortedLT {seeds S : Finset Text}
    (hseeds : ∀ name ∈ seeds, Category.isName name = true)
    (hS : ∀ name ∈ S, Category.isName name = true) (tasks : List CatalogTask) :
    ∀ shown ∈ shownAll seeds tasks S,
      shown.2.SortedLT ∧ ∀ name ∈ shown.2, Category.isName name = true := by
  induction tasks generalizing S with
  | nil => exact List.forall_mem_nil _
  | cons task rest ih =>
    have hnext := named_next hseeds hS task
    refine List.forall_mem_cons.mpr ⟨?_,ih hnext⟩
    rw [shown]
    split_ifs
    · exact ⟨List.Pairwise.nil.sortedLT,List.forall_mem_nil _⟩
    · exact ⟨Finset.sortedLT_sort _,fun name hname => hnext name ((Finset.mem_sort _).mp hname)⟩

end CatalogTask

section Memory

variable {catalog : Catalog (Assoc Text)} {table : Assoc Text} {S : Finset Text}

/-- A task on a table is refused as the machine refuses it, and leaves the set that the machine
leaves. -/
theorem Catalog.Holds.manage (h : Holds catalog table S) (hc : catalog.InMemory)
    (task : CatalogTask) :
    (Program.manage catalog task table).result = .ok (task.refusal S) ∧
      Holds catalog (Program.manage catalog task table).world
        (task.request.next catalog.seeds.toFinset S) := by
  cases task with
  | list => exact ⟨rfl,h⟩
  | add name =>
    obtain ⟨hresult,hholds,_⟩ := h.add hc name
    exact ⟨hresult,hholds⟩
  | delete name =>
    obtain ⟨hresult,hholds,_⟩ := h.delete hc name
    rw [Program.manage, Action.result_bind_pure, Action.world_bind_pure, hresult]
    exact ⟨rfl,hholds⟩
  | restore =>
    obtain ⟨hresult,hholds⟩ := Holds.restore hc table
    rw [Program.manage, Action.result_bind_pure, Action.world_bind_pure, hresult]
    exact ⟨rfl,hholds⟩

/-- Over a table the command ends as the machine shows it. What is shown is loaded anew, and after a
restoring that is what starts the catalog again. -/
theorem Catalog.Holds.categories (h : Holds catalog table S) (hc : catalog.InMemory)
    (task : CatalogTask) :
    ∃ ending, (Program.categories catalog task table).result = .ok ending ∧
      (ending.status,ending.lines) = task.shown catalog.seeds.toFinset S ∧
      Holds catalog (Program.categories catalog task table).world
        (task.request.next catalog.seeds.toFinset S) := by
  obtain ⟨hresult,hholds⟩ := h.manage hc task
  have hrefused := task.refusal_eq_none_iff S
  rw [Program.categories, Action.bind_of_ok (Action.apply_of_result hresult), CatalogTask.shown]
  cases hrefusal : task.refusal S with
  | some why =>
    rw [hrefusal] at hrefused
    have hbad : task.IsRefused S := by_contra fun hgood => nomatch hrefused.mpr hgood
    rw [if_pos hbad]
    exact ⟨_,rfl,rfl,hholds⟩
  | none =>
    obtain ⟨log',hload⟩ := hholds.load hc
    rw [if_neg (hrefused.mp hrefusal)]
    dsimp only
    rw [Action.result_bind_pure, Action.world_bind_pure, hload]
    exact ⟨_,rfl,rfl,hholds.started hc⟩

end Memory

section Follows

variable {σ τ : Type} {R : Nat → σ → τ → Prop} {key : Text} {store : Store σ} {other : Store τ}

theorem Store.Follows.manage (h : store.Follows R key other) (seeds : List Text)
    (task : CatalogTask) :
    Action.Follows R 2 (Program.manage ⟨store,key,seeds⟩ task)
      (Program.manage ⟨other,key,seeds⟩ task) := by
  cases task with
  | list => exact (Action.Follows.pure _).raise h.room (Nat.zero_le 2)
  | add name => exact h.add seeds name
  | delete name => exact (h.delete seeds name).bind h.room fun _ => .pure _
  | restore => exact ((h.restore seeds).raise h.room (Nat.le_succ 1)).bind h.room fun _ => .pure _

/-- The command shows the catalog once it has done its task, and so may have to start it. -/
theorem Store.Follows.categories (h : store.Follows R key other) (seeds : List Text)
    (task : CatalogTask) :
    Action.Follows R 3 (Program.categories ⟨store,key,seeds⟩ task)
      (Program.categories ⟨other,key,seeds⟩ task) := by
  refine (h.manage seeds task).bind (k := 1) h.room fun refusal => ?_
  cases refusal with
  | some why => exact (Action.Follows.pure _).raise h.room (Nat.zero_le 1)
  | none => exact (h.load seeds).bind h.room fun _ => .pure _

end Follows

namespace Store.File

variable {path : Path} {key : Text} {seeds : List Text} {S : Finset Text} {room : Nat} {d : Disk}

/-- A disk that serves a file for a number of changes, on which the file has a set of names under a
key. -/
def Keeps (path : Path) (key : Text) (seeds : List Text) (S : Finset Text) (room : Nat)
    (d : Disk) : Prop :=
  ∃ table, Carries path key table room d ∧ Catalog.Holds ⟨memory,key,seeds⟩ table S

theorem keeps_of_starts (hseeds : ∀ name ∈ seeds, Category.isName name = true)
    (hstart : Starts path [] d) (hready : Ready path room d) (key : Text) :
    Keeps path key seeds seeds.toFinset room d :=
  ⟨[],carries_of_starts hstart hready key,fun name h => hseeds name (List.mem_toFinset.mp h),
    fun _ => rfl,nofun⟩

/-- What the command does over the file it does over a table. The table is forgotten between the
runs: only that it holds the set is handed on. -/
theorem Keeps.categories (options : FileOptions) (hp : options.path.NamesFile)
    (hkey : key.isEncodable = true) (hseeds : ∀ name ∈ seeds, Category.isName name = true)
    (h : Keeps options.path key seeds S (room+3) d) (task : CatalogTask) :
    ∃ ending, (Program.categories ⟨file options,key,seeds⟩ task d).result = .ok ending ∧
      (ending.status,ending.lines) = task.shown seeds.toFinset S ∧
      Keeps options.path key seeds (task.request.next seeds.toFinset S) room
        (Program.categories ⟨file options,key,seeds⟩ task d).world := by
  obtain ⟨table,hcarries,hholds⟩ := h
  have hc : InMemory ⟨memory,key,seeds⟩ := ⟨rfl,hseeds⟩
  obtain ⟨ending,hresult,hshown,hholds'⟩ := hholds.categories hc task
  obtain ⟨hfollows,hcarries'⟩ :=
    (follows_memory options hp hkey).categories seeds task room d table hcarries
  exact ⟨ending,hfollows.trans hresult,hshown,_,hcarries',hholds'⟩

end Store.File

namespace Program

/-- A start of the program for a task on the catalog: what the program finds around it, the time,
and what the command line says. -/
structure Start where
  around : Surroundings
  seconds : Json
  logLevel : Option (Arguments.Given Text) := none
  envFile : Option (Arguments.Given Path) := none
  storagePath : Option (Arguments.Given Path) := none
  task : CatalogTask

namespace Start

def invocation (start : Start) : Invocation where
  logLevel := start.logLevel
  envFile := start.envFile
  storagePath := start.storagePath
  command := .categories start.task

def SetsUp (path : Path) (key : Text) (start : Start) (d : Disk) : Prop :=
  ∃ s output, (Launch.settings start.around start.invocation d).result = .ok s ∧
    Launch.output s = .ok output ∧ s.storagePath = path ∧ s.storageKey = key

def launch (start : Start) (w : World) : Report × World :=
  Program.launch start.around start.seconds start.invocation w

def launchAll : List Start → World → List Report
  | [], _ => []
  | start :: rest, w => (start.launch w).1 :: launchAll rest (start.launch w).2

def SetsUpAll (path : Path) (key : Text) : List Start → World → Prop
  | [], _ => True
  | start :: rest, w => start.SetsUp path key w.2 ∧ SetsUpAll path key rest (start.launch w).2

variable {path : Path} {key : Text} {start : Start} {S : Finset Text}

/-- A run that is set up reports what the command ends with over the file, and leaves what it
leaves. Setting the program up has only read the disk, so the command finds it as it was. -/
theorem SetsUp.launch_of_ok {w : World} (h : start.SetsUp path key w.2) :
    ∃ patience, ∀ {ending : Ending},
      let o := categories ⟨file ⟨path,patience⟩,key,defaultSeeds⟩ start.task w.2
      o.result = .ok ending →
        (start.launch w).1.result = .ok ending.status ∧
        (start.launch w).1.printed = ending.lines.flatMap (· ++ [0x0a]) ∧
        (start.launch w).2 = (w.1,o.world) := by
  obtain ⟨s,output,hsettings,houtput,rfl,rfl⟩ := h
  refine ⟨s.lockTimeout,?_⟩
  intro ending o hresult
  have hworld := Launch.isReading_settings start.around start.invocation w.2
  obtain ⟨log,hcatalog⟩ := Launch.catalog_apply s w.2
  have hopened : (Launch.catalog s).onSecond w =
      ⟨.ok ⟨file ⟨s.storagePath,s.lockTimeout⟩,s.storageKey,defaultSeeds⟩,w,log⟩ := by
    rw [Action.onSecond_apply, hcatalog]
  rw [launch, Program.launch, Action.onSecond_apply, hsettings, hworld]
  dsimp only
  rw [houtput]
  dsimp only
  rw [Action.bind_of_ok hopened]
  exact report_of_ok _ _ hresult

/-- By induction on the runs: the file keeps the set of the machine. -/
theorem launchAll_of_keeps (hp : path.NamesFile) (hkey : key.isEncodable = true)
    {starts : List Start} {w : World} (hsetup : SetsUpAll path key starts w)
    (h : Keeps path key defaultSeeds S (3*starts.length) w.2) :
    (launchAll starts w).map (fun r => (r.result,r.printed)) =
      (CatalogTask.shownAll defaultSeeds.toFinset (starts.map task) S).map
        fun shown => (.ok shown.1,shown.2.flatMap (· ++ [0x0a])) := by
  induction starts generalizing S w with
  | nil => rfl
  | cons start rest ih =>
    obtain ⟨hthis,hrest⟩ := hsetup
    obtain ⟨patience,hlaunch⟩ := hthis.launch_of_ok
    obtain ⟨ending,hresult,hshown,hkeeps⟩ := Keeps.categories ⟨path,patience⟩ hp hkey
      isName_of_mem_defaultSeeds h start.task
    obtain ⟨hstatus,hprinted,hworld⟩ := hlaunch hresult
    rw [hworld] at hrest
    rw [launchAll, List.map_cons, List.map_cons, CatalogTask.shownAll,
      List.map_cons, ← hshown, hstatus, hprinted, hworld, ih hrest hkeeps]

theorem setsUpAll_of_forall {starts : List Start}
    (h : ∀ start ∈ starts, ∀ d, start.SetsUp path key d) (w : World) :
    SetsUpAll path key starts w := by
  induction starts generalizing w with
  | nil => trivial
  | cons start rest ih =>
    obtain ⟨hthis,hrest⟩ := List.forall_mem_cons.mp h
    exact ⟨hthis w.2,ih hrest _⟩

/-- The catalog outlives the runs. Whatever tasks the program is started for, one run after the
other, over a file that had no entries and a disk that serves it, each run that sets up the catalog
under the same key of the file ends with the status and prints the lines of a machine that keeps the
set itself and starts it with the default names: status 1 and no line for a name that is refused,
and else status 0 and the set after the task, whose names are good and stand in strictly increasing
order. -/
theorem launches_as_set (hp : path.NamesFile) (hkey : key.isEncodable = true)
    (starts : List Start) {w : World} (hstart : Starts path [] w.2)
    (hready : Ready path (3*starts.length) w.2) (hsetup : SetsUpAll path key starts w) :
    let shown := CatalogTask.shownAll defaultSeeds.toFinset (starts.map task) defaultSeeds.toFinset
    (launchAll starts w).map (fun r => (r.result, r.printed)) =
        shown.map (fun s => (.ok s.1, s.2.flatMap (· ++ [0x0a]))) ∧
      ∀ s ∈ shown, s.2.SortedLT ∧ ∀ name ∈ s.2, Category.isName name = true := by
  intro shown
  have hseeds : ∀ name ∈ defaultSeeds.toFinset, Category.isName name = true :=
    fun name h => isName_of_mem_defaultSeeds name (List.mem_toFinset.mp h)
  have hkeeps := keeps_of_starts isName_of_mem_defaultSeeds hstart hready key
  exact ⟨launchAll_of_keeps hp hkey hsetup hkeeps,CatalogTask.shownAll_sortedLT hseeds hseeds _⟩

/-- A name is added once, to a file that was not there, and is gone when the defaults are
restored. -/
theorem launches_as_set_restored :
    let around : Surroundings := ⟨[], [("CATEGORY_FILTER_STORAGE_PATH", "notes.json")]⟩
    let starts : List Start :=
      [⟨⟨[], []⟩, .null, none, none, some (.value onlyPath), .add " B1 "⟩,
        ⟨around, .null, none, none, none, .add "B1"⟩, ⟨around, .null, none, none, none, .restore⟩]
    let defaults : Text :=
      "DbApi\nPostLayoffReport\nProduction\nProductionOnly\nPublicApi\nRegistration\nSmoke\n" ++
        "TrackAccreditation\nVetsList\n"
    onlyPath.NamesFile ∧ defaultKey.isEncodable = true ∧ Starts onlyPath [] {} ∧
      Ready onlyPath (3*starts.length) {} ∧ SetsUpAll onlyPath defaultKey starts (0, {}) ∧
      (launchAll starts (0, {})).map (fun r => (r.result, r.printed)) =
        [(.ok 0, "B1\n" ++ defaults), (.ok 1, []), (.ok 0, defaults)] := by
  intro around starts defaults
  have hkey : defaultKey.isEncodable = true := by decide
  have hready : Ready onlyPath (3*starts.length) {} := by
    refine Or.inl ⟨rfl,rfl,rfl,⟨rfl,nofun⟩,⟨rfl,nofun⟩,rfl,?_⟩
    intro number _ hless
    have hnumber : number < 9 := hless
    interval_cases number <;> exact ⟨by decide +kernel,rfl⟩
  have hstart : Starts onlyPath [] {} := Or.inl ⟨rfl,rfl⟩
  have hsetup : SetsUpAll onlyPath defaultKey starts (0, {}) := by
    refine setsUpAll_of_forall ?_ _
    refine List.forall_mem_cons.mpr ⟨fun d => ⟨_,_,rfl,rfl,rfl,rfl⟩,?_⟩
    refine List.forall_mem_cons.mpr ⟨fun d => ⟨_,_,rfl,rfl,rfl,rfl⟩,?_⟩
    refine List.forall_mem_cons.mpr ⟨fun d => ⟨_,_,rfl,rfl,rfl,rfl⟩,List.forall_mem_nil _⟩
  have hfirst : (CatalogTask.add " B1 ").request.next defaultSeeds.toFinset defaultSeeds.toFinset =
      ("B1" :: defaultSeeds : List Text).toFinset := by decide +kernel
  have hsecond : (CatalogTask.add "B1").request.next defaultSeeds.toFinset
      ("B1" :: defaultSeeds : List Text).toFinset =
      ("B1" :: defaultSeeds : List Text).toFinset := by
    decide +kernel
  have hthird : CatalogTask.restore.request.next defaultSeeds.toFinset
      ("B1" :: defaultSeeds : List Text).toFinset = defaultSeeds.toFinset := rfl
  have hinOrder (ts : List Text) : Text.inOrder ts.toFinset = Text.sortedSet ts :=
    (Text.sortedSet_eq_sort ts).symm
  refine ⟨namesFile_onlyPath,hkey,hstart,hready,hsetup,?_⟩
  refine (launches_as_set namesFile_onlyPath hkey starts hstart hready hsetup).1.trans ?_
  simp only [starts, List.map_cons, List.map_nil, CatalogTask.shownAll, CatalogTask.shown,
    hfirst, hsecond]
  rw [if_neg (by decide +kernel), if_pos (by decide +kernel), if_neg (by decide +kernel), hthird,
    hinOrder, hinOrder]
  decide +kernel

end Start

end Program

end CategorySelection
