import CategorySelection.Proofs.Catalog.Follows
import CategorySelection.Proofs.Store.Map
/-!
Catalogs beside each other. Every change writes the whole file anew, with the entries of all
catalogs, and yet catalogs under different keys of one file have nothing to do with each other.
-/

namespace CategorySelection

namespace Store.File

variable {path : Path} {key : Text} {table : Assoc Text} {room : Nat} {d : Disk}

/-- A disk that serves a file for a number of changes, on which the file has under a key what a
table has. -/
def Carries (path : Path) (key : Text) (table : Assoc Text) (room : Nat) (d : Disk) : Prop :=
  ∃ fields, Maps path fields d ∧ Ready path room d ∧
    answers path.text fields key = tableAnswers table key

/-- A disk without entries that can serve the file carries the empty table. -/
theorem carries_of_starts (hstart : Starts path [] d) (hready : Ready path room d) (key : Text) :
    Carries path key [] room d :=
  ⟨[],maps_of_starts hstart,hready,rfl⟩

/-- A disk that has room for some changes has room for fewer. -/
theorem Carries.lower {room' : Nat} (h : Carries path key table room d) (hle : room' ≤ room) :
    Carries path key table room' d := by
  obtain ⟨fields,hmaps,hready,hanswers⟩ := h
  exact ⟨fields,hmaps,hready.lower hle,hanswers⟩

section Calls

variable {options : FileOptions}

/-- A call on a file that is ready for it ends as on the map, and leaves what the map leaves. -/
theorem call_of_ready (hp : options.path.NamesFile) {fields : Assoc Json}
    (hmaps : Maps options.path fields d) (hready : Ready options.path (room+1) d) {call : Call}
    (hcall : call.isEncodable = true) :
    let ideal := call.apply mapping (answers options.path.text fields)
    (call.apply (file options) d).result = ideal.result ∧
      ∃ fields', Maps options.path fields' (call.apply (file options) d).world ∧
        Ready options.path room (call.apply (file options) d).world ∧
        ideal.world = answers options.path.text fields' := by
  obtain ⟨hdone,hready'⟩ := Ready.step options hp hready hmaps hcall
  rcases hmaps.step options hp hcall with ⟨hrefused,_⟩ | ⟨_,hresult,fields',hmaps',hworld⟩
  · rw [hdone] at hrefused
    cases hrefused
  · exact ⟨hresult,fields',hmaps',hready',hworld⟩

/-- Reading changes nothing, and under the key it gives what the table gives. -/
theorem Carries.get (hp : options.path.NamesFile) (h : Carries options.path key table room d)
    (other : Text) :
    (File.get options other d).world = d ∧
      (other = key → (File.get options other d).result = tableAnswers table key) := by
  obtain ⟨fields,hmaps,hready,hanswers⟩ := h
  rw [hready.get options hp.usable hmaps.holds]
  refine ⟨rfl,?_⟩
  rintro rfl
  exact hanswers

/-- A call that changes an entry gives nothing. It changes what there is under the own key only if
that is its own entry. -/
theorem Carries.edit (hp : options.path.NamesFile) (h : Carries options.path key table (room+1) d)
    {call : Call} (hcall : call.isEncodable = true) {x : Action Disk Unit}
    (hx : call.apply (file options) = silently x) {other : Text} {answer : Answer}
    (hideal : ∀ m, call.apply mapping m = ⟨.ok none,Function.update m other answer,[]⟩)
    {table' : Assoc Text}
    (htable : tableAnswers table' key =
      if other = key then answer else tableAnswers table key) :
    (x d).result = .ok () ∧ Carries options.path key table' room (x d).world := by
  obtain ⟨fields,hmaps,hready,hanswers⟩ := h
  obtain ⟨hresult,fields',hmaps',hready',hworld⟩ := call_of_ready hp hmaps hready hcall
  rw [hx, hideal] at hresult
  rw [hx, world_silently] at hmaps' hready'
  rw [hideal] at hworld
  refine ⟨result_of_silently hresult,fields',hmaps',hready',?_⟩
  rw [← hworld, htable]
  dsimp only
  rw [Function.update_apply, hanswers]
  exact if_congr eq_comm rfl rfl

/-- Setting is done and takes up one change, and only under the key does it change the table. -/
theorem Carries.set (hp : options.path.NamesFile) (h : Carries options.path key table (room+1) d)
    {other : Text} (hother : other.isEncodable = true) {value : Text}
    (hvalue : value.isEncodable = true) :
    (File.set options other value d).result = .ok () ∧
      Carries options.path key (if other = key then table.put key value else table) room
        (File.set options other value d).world := by
  have hcall : (Call.set other value).isEncodable = true := by
    rw [Call.isEncodable, hother, hvalue]
    rfl
  refine h.edit hp hcall rfl (fun _ => rfl) ?_
  split_ifs
  · rw [tableAnswers_put, Function.update_self]
  · rfl

/-- Removing is done and takes up one change, and only under the key does it change the table. -/
theorem Carries.remove (hp : options.path.NamesFile) (h : Carries options.path key table (room+1) d)
    (other : Text) :
    (File.remove options other d).result = .ok () ∧
      Carries options.path key (if other = key then table.erase key else table) room
        (File.remove options other d).world := by
  have hcall : (Call.remove other).isEncodable = true := rfl
  refine h.edit hp hcall rfl (fun _ => rfl) ?_
  split_ifs
  · rw [tableAnswers_erase, Function.update_self]
  · rfl

/-- Under its own key a file is the table. -/
theorem follows_memory (options : FileOptions) (hp : options.path.NamesFile)
    (hkey : key.isEncodable = true) :
    (file options).Follows
    (fun room d table => Carries options.path key table room d) key memory where
  room _ _ hle _ _ h := Carries.lower h hle
  get room d table h := by
    obtain ⟨hworld,hresult⟩ := Carries.get hp h key
    change (File.get options key d).result = _ ∧ Carries _ _ _ _ (File.get options key d).world
    rw [hworld]
    exact ⟨hresult rfl,h⟩
  set names room d table h := by
    obtain ⟨hresult,hcarries⟩ := Carries.set hp h hkey (Catalog.isEncodable_encode names)
    rw [if_pos rfl] at hcarries
    exact ⟨hresult,hcarries⟩
  remove room d table h := by
    obtain ⟨hresult,hcarries⟩ := Carries.remove hp h key
    rw [if_pos rfl] at hcarries
    exact ⟨hresult,hcarries⟩

/-- What is done under another key leaves the table under the own key as it is. -/
theorem follows_beside (options : FileOptions) (hp : options.path.NamesFile) {other : Text}
    (hother : other.isEncodable = true) (hne : other ≠ key) (table : Assoc Text) :
    (file options).Follows (fun room d d' => d = d' ∧ Carries options.path key table room d) other
      (file options) where
  room _ _ hle _ _ h := ⟨h.1,Carries.lower h.2 hle⟩
  get := by
    rintro room d _ ⟨rfl,h⟩
    have hworld : (File.get options other d).world = d := (Carries.get hp h other).1
    refine ⟨rfl,rfl,?_⟩
    change Carries _ _ _ _ (File.get options other d).world
    rw [hworld]
    exact h
  set names := by
    rintro room d _ ⟨rfl,h⟩
    obtain ⟨_,hcarries⟩ := Carries.set hp h hother (Catalog.isEncodable_encode names)
    rw [if_neg hne] at hcarries
    exact ⟨rfl,rfl,hcarries⟩
  remove := by
    rintro room d _ ⟨rfl,h⟩
    obtain ⟨_,hcarries⟩ := Carries.remove hp h other
    rw [if_neg hne] at hcarries
    exact ⟨rfl,rfl,hcarries⟩

end Calls

end Store.File

namespace Catalog

open Store Store.File

variable {ι σ : Type} [DecidableEq ι]

/-- Does operations one after another, each with one of several catalogs over one store, and gives
what they end with. -/
def performEach (catalogs : ι → Catalog σ) : List (ι × Operation) → σ →
    List (ι × Except Fault Answer)
  | [], _ => []
  | (i, o) :: rest, w =>
    let outcome := o.perform (catalogs i) w
    (i, outcome.result) :: performEach catalogs rest outcome.world

def partOf {α : Type} (i : ι) (all : List (ι × α)) : List α := (all.filter (·.1 = i)).map Prod.snd

/-- The part of a catalog starts with an operation that is done with it. -/
theorem partOf_cons_self {α : Type} (i : ι) (a : α) (rest : List (ι × α)) :
    partOf i ((i,a) :: rest) = a :: partOf i rest := by
  rw [partOf, List.filter_cons_of_pos (by simp)]
  rfl

/-- An operation with another catalog is no part of this one. -/
theorem partOf_cons_ne {α : Type} {i j : ι} (h : j ≠ i) (a : α) (rest : List (ι × α)) :
    partOf i ((j,a) :: rest) = partOf i rest := by
  rw [partOf, List.filter_cons_of_neg (by simpa using h)]
  rfl

/-- By induction on the calls: of all that is done with catalogs over a file, one catalog answers as
alone over a table. -/
theorem partOf_performEach {path : Path} (hp : path.NamesFile) {keys : ι → Text}
    (hkeys : Function.Injective keys) (hencodable : ∀ i, (keys i).isEncodable = true)
    (seeds : ι → List Text) (patience : ι → Binary64) (i : ι) {calls : List (ι × Operation)}
    {table : Assoc Text} {d : Disk} (h : Carries path (keys i) table (2*calls.length) d) :
    partOf i (performEach (fun j => ⟨file ⟨path,patience j⟩,keys j,seeds j⟩) calls d) =
      (Operation.performAll ⟨memory,keys i,seeds i⟩ (partOf i calls) table).1 := by
  induction calls generalizing table d with
  | nil => rfl
  | cons next rest ih =>
    obtain ⟨j,o⟩ := next
    rw [performEach]
    by_cases hj : j = i
    · subst hj
      have hfollows := follows_memory ⟨path,patience j⟩ hp (hencodable j)
      obtain ⟨hresult,hrest⟩ := hfollows.perform (seeds j) o (2*rest.length) d table h
      rw [partOf_cons_self, partOf_cons_self, Operation.performAll]
      dsimp only
      rw [hresult, ih hrest]
    · have hne : keys j ≠ keys i := fun he => hj (hkeys he)
      have hfollows := follows_beside ⟨path,patience j⟩ hp (hencodable j) hne table
      obtain ⟨_,_,hrest⟩ := hfollows.perform (seeds j) o (2*rest.length) d d ⟨rfl,h⟩
      rw [partOf_cons_ne hj, partOf_cons_ne hj]
      exact ih hrest

/-- Catalogs under different keys of one file do not interfere. Whatever texts they are given, and
however their operations follow each other, each catalog answers as it does alone, over a store in a
table and over any other file that had no entries. -/
theorem catalogs_apart {path : Path} (hp : path.NamesFile) {keys : ι → Text}
    (hkeys : Function.Injective keys) (hencodable : ∀ i, (keys i).isEncodable = true)
    (seeds : ι → List Text) (patience : ι → Binary64) (calls : List (ι × Operation)) {d : Disk}
    (hstart : Starts path [] d) (hready : Ready path (2*calls.length) d) (i : ι) :
    let answers := performEach (fun j => ⟨file ⟨path, patience j⟩, keys j, seeds j⟩) calls d
    partOf i answers = (Operation.performAll ⟨memory, keys i, seeds i⟩ (partOf i calls) []).1 ∧
    ∀ (options : FileOptions) (d' : Disk), options.path.NamesFile → Starts options.path [] d' →
      Ready options.path (2*(partOf i calls).length) d' →
      partOf i answers =
        (Operation.performAll ⟨file options, keys i, seeds i⟩ (partOf i calls) d').1 := by
  intro answers
  have hown : partOf i answers =
      (Operation.performAll ⟨memory,keys i,seeds i⟩ (partOf i calls) []).1 :=
    partOf_performEach hp hkeys hencodable seeds patience i
    (carries_of_starts hstart hready (keys i))
  refine ⟨hown,fun options d' hp' hstart' hready' => ?_⟩
  have halone := (follows_memory _ hp' (hencodable i)).performAll (seeds i)
    (carries_of_starts hstart' hready' (keys i))
  rw [hown, halone]

/-- Another catalog finds nothing of a single surrogate that was saved beside it, in a file that was
blank. -/
theorem catalogs_apart_surrogate :
    let keys : Bool → Text := fun i => if i then "a" else "b"
    let calls : List (Bool × Operation) := [(true, .save [[0xd800], "A"]), (false, .request .load)]
    onlyPath.NamesFile ∧ Function.Injective keys ∧ (∀ i, (keys i).isEncodable = true) ∧
      Starts onlyPath [] (onlyFile [0x20]) ∧ Ready onlyPath (2*calls.length) (onlyFile [0x20]) ∧
      partOf false (performEach (fun j => ⟨file ⟨onlyPath, .ofInt 5⟩, keys j, ["x"]⟩) calls
        (onlyFile [0x20])) = [.ok (.names ["x"])] := by
  intro keys calls
  have hkeys : Function.Injective keys := by decide
  have hencodable : ∀ i, (keys i).isEncodable = true := by decide
  have hstart : Starts onlyPath [] (onlyFile [0x20]) := Or.inr ⟨[0x20],rfl,by cbv,by cbv⟩
  have hready : Ready onlyPath (2*calls.length) (onlyFile [0x20]) :=
    (ready_onlyFile [0x20]).lower (by decide)
  have hapart :=
    catalogs_apart namesFile_onlyPath hkeys hencodable (fun _ => ["x"]) (fun _ => .ofInt 5) calls
    hstart hready false
  exact ⟨namesFile_onlyPath,hkeys,hencodable,hstart,hready,hapart.1.trans (by rfl)⟩

end Catalog

end CategorySelection
