import CategorySelection.Proofs.Store.Serving
import Mathlib.Logic.Function.Basic
/-!
A file as a map. Whatever sequence of calls is made on a file, the calls that the system does not
refuse end as they would on a map from keys to texts, and the refused ones change nothing.
-/

namespace CategorySelection

namespace Store

inductive Call
  | get (key : Text)
  | set (key value : Text)
  | remove (key : Text)
  deriving Repr, DecidableEq

def silently {σ : Type} (x : Action σ Unit) : Action σ (Option Text) := do
  x
  return none

theorem result_silently {σ : Type} (x : Action σ Unit) (s : σ) :
    (silently x s).result = (x s).result.map fun _ => none :=
  Action.result_bind_pure x (fun _ => none) s

theorem world_silently {σ : Type} (x : Action σ Unit) (s : σ) :
    (silently x s).world = (x s).world :=
  Action.world_bind_pure x (fun _ => none) s

theorem result_of_silently {σ : Type} {x : Action σ Unit} {s : σ}
    (h : (silently x s).result = .ok none) :
    (x s).result = .ok () := by
  rw [result_silently] at h
  cases hx : (x s).result with
  | error e =>
    rw [hx] at h
    cases h
  | ok u => rfl

/-- Makes a call. Only reading an entry gives something. -/
def Call.apply {σ : Type} (store : Store σ) : Call → Action σ (Option Text)
  | .get key => store.get key
  | .set key value => silently (store.set key value)
  | .remove key => silently (store.remove key)

def Call.isEncodable : Call → Bool
  | .set key value => key.isEncodable && value.isEncodable
  | _ => true

abbrev Answer := Except Fault (Option Text)

def isRefused : Answer → Bool
  | .error e => e.isOutage
  | .ok _ => false

/-- Makes calls one after another, each through one of several stores in the same world, and gives
the answers and the world afterwards. -/
def run {ι σ : Type} (stores : ι → Store σ) : List (ι × Call) → σ → List Answer × σ
  | [], w => ([], w)
  | (i, call) :: rest, w =>
    let outcome := call.apply (stores i) w
    let after := run stores rest outcome.world
    (outcome.result :: after.1, after.2)

/-- The store that is a map: setting and removing change what is got for one key, and nothing
else. -/
def mapping : Store (Text → Answer) where
  get key := fun m => ⟨m key, m, []⟩
  set key value := Action.change fun m => Function.update m key (.ok (some value))
  remove key := Action.change fun m => Function.update m key (.ok none)

theorem eq_update {m m' : Text → Answer} {key : Text} {answer : Answer}
    (h : ∀ other, m' other = if key = other then answer else m other) :
    m' = Function.update m key answer := by
  funext other
  rw [h, Function.update_apply]
  by_cases hother : other = key
  · rw [if_pos hother, if_pos hother.symm]
  · rw [if_neg hother, if_neg (Ne.symm hother)]

def tableAnswers (table : Assoc Text) (key : Text) : Answer := .ok (table.get? key)

/-- A text that is put into a table changes the answer for its key. -/
theorem tableAnswers_put (table : Assoc Text) (key value : Text) :
    tableAnswers (table.put key value) =
      Function.update (tableAnswers table) key (.ok (some value)) := by
  refine eq_update fun other => ?_
  rw [tableAnswers, Assoc.get?_put]
  split_ifs <;> rfl

theorem tableAnswers_erase (table : Assoc Text) (key : Text) :
    tableAnswers (table.erase key) = Function.update (tableAnswers table) key (.ok none) := by
  refine eq_update fun other => ?_
  rw [tableAnswers, Assoc.get?_erase]
  split_ifs <;> rfl

/-- By induction on the calls: a store in a table answers as the map of the table. -/
theorem run_memory {ι : Type} (calls : List (ι × Call)) (table : Assoc Text) :
    (run (fun _ => memory) calls table).1 =
    (run (fun _ => mapping) calls (tableAnswers table)).1 := by
  induction calls generalizing table with
  | nil => rfl
  | cons next rest ih =>
    obtain ⟨i,call⟩ := next
    have hcall : (call.apply memory table).result =
        (call.apply mapping (tableAnswers table)).result ∧
        (call.apply mapping (tableAnswers table)).world =
        tableAnswers (call.apply memory table).world := by
      cases call with
      | get key => exact ⟨rfl,rfl⟩
      | set key value => exact ⟨rfl,(tableAnswers_put table key value).symm⟩
      | remove key => exact ⟨rfl,(tableAnswers_erase table key).symm⟩
    rw [run, run]
    dsimp only
    rw [hcall.1, hcall.2, ih]

namespace File

open Disk

def answers (path : Text) (fields : Assoc Json) (key : Text) : Answer :=
  heldText key path (fields.get? key)

section Answers

variable (path key : Text) (fields : Assoc Json)

/-- A string that is put among the entries changes the answer for its key. -/
theorem answers_put (value : Text) :
    answers path (fields.put key (.string value)) =
      Function.update (answers path fields) key (.ok (some value)) := by
  refine eq_update fun other => ?_
  rw [answers, Assoc.get?_put]
  split_ifs <;> rfl

theorem answers_erase :
    answers path (fields.erase key) = Function.update (answers path fields) key (.ok none) := by
  refine eq_update fun other => ?_
  rw [answers, Assoc.get?_erase]
  split_ifs <;> rfl

/-- Entries that are strings are a table of texts. -/
theorem answers_strings (table : Assoc Text) :
    answers path (table.map fun entry => (entry.1,.string entry.2)) = tableAnswers table := by
  funext key
  rw [answers, tableAnswers, Assoc.get?_map_snd]
  cases table.get? key <;> rfl

/-- Sorting the names of a value and rereading its numbers leave a string as it is and others of
their kind. -/
theorem heldText_settled (entry : Option Json) :
    heldText key path (entry.map fun value => value.sortNames.reread) =
      heldText key path entry := by
  cases entry with
  | none => rfl
  | some value =>
    cases value with
    | array items =>
      rw [Option.map_some, Json.sortNames_array, Json.reread_array]
      rfl
    | object fields =>
      rw [Option.map_some, Json.sortNames_object, Json.reread_object]
      rfl
    | _ => rfl

/-- Coming back from a file makes no difference for the answers. -/
theorem answers_settled {fields : Assoc Json} (h : (Assoc.names fields).Nodup) :
    answers path (settled fields) = answers path fields := by
  funext key
  rw [answers, answers, get?_settled key h]
  exact heldText_settled path key _

end Answers

structure Maps (path : Path) (fields : Assoc Json) (d : Disk) : Prop where
  holds : Holds path (.ok fields) d
  writable : Json.Writable Json.maxNesting (.object fields)

variable {path : Path} {fields : Assoc Json} {d : Disk}

theorem isRefused_heldText (key path : Text) (entry : Option Json) :
    isRefused (heldText key path entry) = false := by
  cases entry with
  | none => rfl
  | some value => cases value <;> rfl

/-- A call that edits the entries is refused, or it is done and gives nothing. -/
theorem answer_of_edits {f : Assoc Json → Assoc Json} {x : Action Disk Unit}
    (h : Edits path f (.ok fields) (x d)) (hmaps : Maps path fields d)
    (hwritable : Json.Writable Json.maxNesting (.object (f fields))) :
    (isRefused (silently x d).result = true ∧ Maps path fields (silently x d).world) ∨
      ((silently x d).result = .ok none ∧ Maps path (f fields) (silently x d).world) := by
  rw [result_silently, world_silently]
  rcases h with ⟨e,hresult,he,hholds⟩ | ⟨hresult,hholds⟩ <;> rw [hresult]
  · exact Or.inl ⟨he,hholds,hmaps.writable⟩
  · exact Or.inr ⟨rfl,hholds,hwritable⟩

/-- One call on a file: it is refused and nothing has changed, or it ends as on the map, and leaves
what the map leaves. The entries come back settled, which makes no difference for what is got from
them. -/
theorem Maps.step (options : FileOptions) (hp : options.path.NamesFile)
    (h : Maps options.path fields d) {call : Call} (hcall : call.isEncodable = true) :
    let outcome := call.apply (file options) d
    let ideal := call.apply mapping (answers options.path.text fields)
    (isRefused outcome.result = true ∧ Maps options.path fields outcome.world) ∨
      (isRefused outcome.result = false ∧ outcome.result = ideal.result ∧
        ∃ fields', Maps options.path fields' outcome.world ∧
          ideal.world = answers options.path.text fields') := by
  cases call with
  | get key =>
    obtain ⟨hworld,hresult⟩ := h.holds.get options hp.usable key
    dsimp only [Call.apply, file]
    rw [hworld]
    rcases hresult with hresult | ⟨e,hresult,he⟩ <;> rw [hresult]
    · exact Or.inr ⟨isRefused_heldText key _ _,rfl,fields,h,rfl⟩
    · exact Or.inl ⟨he,h⟩
  | set key value =>
    rw [Call.isEncodable, Bool.and_eq_true] at hcall
    have hput := writable_put h.writable hcall.1 hcall.2
    have hedits := edits_set hp h.holds key fun fields' hfields => by
      rw [← Except.ok.inj hfields]
      exact hput
    rcases answer_of_edits hedits h (writable_settled hput) with hrefused | ⟨hresult,hmaps⟩
    · exact Or.inl hrefused
    · refine Or.inr ⟨congrArg isRefused hresult,hresult,_,hmaps,?_⟩
      rw [answers_settled _ (distinct_of_writable hput), answers_put]
      rfl
  | remove key =>
    have herase := writable_erase h.writable key
    have hedits := edits_remove hp h.holds key fun fields' hfields => by
      rw [← Except.ok.inj hfields]
      exact herase
    have hedited : Json.Writable Json.maxNesting (.object (edited (erasing key) fields)) ∧
        answers options.path.text (edited (erasing key) fields) =
          Function.update (answers options.path.text fields) key (.ok none) := by
      rw [← answers_erase]
      rcases edited_erasing key fields with hsame | hsame <;> rw [hsame]
      · exact ⟨writable_settled herase,answers_settled _ (distinct_of_writable herase)⟩
      · exact ⟨herase,rfl⟩
    rcases answer_of_edits hedits h hedited.1 with hrefused | ⟨hresult,hmaps⟩
    · exact Or.inl hrefused
    · exact Or.inr ⟨congrArg isRefused hresult,hresult,_,hmaps,hedited.2.symm⟩

/-- On a disk that serves the file no call is refused. -/
theorem Ready.step (options : FileOptions) {changes : Nat} (hp : options.path.NamesFile)
    (h : Ready options.path (changes+1) d) (hmaps : Maps options.path fields d) {call : Call}
    (hcall : call.isEncodable = true) :
    isRefused (call.apply (file options) d).result = false ∧
      Ready options.path changes (call.apply (file options) d).world := by
  cases call with
  | get key =>
    dsimp only [Call.apply, file]
    rw [h.get options hp.usable hmaps.holds key]
    exact ⟨isRefused_heldText key _ _,h.lower (Nat.le_succ changes)⟩
  | set key value =>
    rw [Call.isEncodable, Bool.and_eq_true] at hcall
    obtain ⟨hresult,hafter⟩ :=
      h.set hp hmaps.holds key (writable_put hmaps.writable hcall.1 hcall.2)
    dsimp only [Call.apply, file]
    rw [result_silently, world_silently, hresult]
    exact ⟨rfl,hafter⟩
  | remove key =>
    obtain ⟨hresult,hafter⟩ := h.remove hp hmaps.holds key (writable_erase hmaps.writable key)
    dsimp only [Call.apply, file]
    rw [result_silently, world_silently, hresult]
    exact ⟨rfl,hafter⟩

end File

open File

def done {ι : Type} (calls : List (ι × Call))
    (answers : List Answer) : List ((ι × Call) × Answer) :=
  (calls.zip answers).filter fun call => !isRefused call.2

section Run

variable {path : Path} {fields : Assoc Json} {d : Disk}

/-- By induction on the calls: the calls on a file that are not refused end as on the map. A refused
call is left out on both sides. -/
theorem run_file (hp : path.NamesFile) (h : Maps path fields d) {calls : List (Binary64 × Call)}
    (hcalls : ∀ call ∈ calls, call.2.isEncodable = true) :
    let after := run (fun patience => file ⟨path,patience⟩) calls d
    ∃ fields', Maps path fields' after.2 ∧
      run (fun _ => mapping) ((done calls after.1).map Prod.fst) (answers path.text fields) =
        ((done calls after.1).map Prod.snd,answers path.text fields') := by
  induction calls generalizing d fields with
  | nil => exact ⟨fields,h,rfl⟩
  | cons next rest ih =>
    obtain ⟨patience,call⟩ := next
    obtain ⟨hcall,hrest⟩ := List.forall_mem_cons.mp hcalls
    dsimp only
    rw [run]
    dsimp only
    rw [done, List.zip_cons_cons]
    rcases h.step ⟨path,patience⟩ hp hcall
      with ⟨hrefused,hmaps⟩ | ⟨hdone,hresult,fields₁,hmaps,hideal⟩
    · rw [List.filter_cons_of_neg (by rw [hrefused]; exact Bool.false_ne_true)]
      exact ih hmaps hrest
    · rw [List.filter_cons_of_pos (by rw [hdone]; rfl), List.map_cons, List.map_cons, run]
      obtain ⟨fields',hmaps',hrun⟩ := ih hmaps hrest
      refine ⟨fields',hmaps',?_⟩
      dsimp only
      rw [hideal, ← hresult]
      exact congrArg (fun rest => (_ :: rest.1,rest.2)) hrun

/-- By induction on the calls: none is refused on a disk that serves the file for all of them. -/
theorem run_ready (hp : path.NamesFile) (h : Maps path fields d) {calls : List (Binary64 × Call)}
    (hready : Ready path calls.length d) (hcalls : ∀ call ∈ calls, call.2.isEncodable = true) :
    let after := run (fun patience => file ⟨path,patience⟩) calls d
    done calls after.1 = calls.zip after.1 ∧ after.1.length = calls.length ∧
      Ready path 0 after.2 := by
  induction calls generalizing d fields with
  | nil => exact ⟨rfl,rfl,hready⟩
  | cons next rest ih =>
    obtain ⟨patience,call⟩ := next
    obtain ⟨hcall,hrest⟩ := List.forall_mem_cons.mp hcalls
    dsimp only
    rw [run]
    dsimp only
    rw [done, List.zip_cons_cons]
    obtain ⟨hdone,hready'⟩ := Ready.step ⟨path,patience⟩ hp hready h hcall
    rcases h.step ⟨path,patience⟩ hp hcall with ⟨hrefused,_⟩ | ⟨_,_,fields₁,hmaps,_⟩
    · rw [hdone] at hrefused
      cases hrefused
    · rw [List.filter_cons_of_pos (by rw [hdone]; rfl)]
      obtain ⟨hall,hlength,hend⟩ := ih hmaps hready' hrest
      exact ⟨congrArg _ hall,congrArg _ hlength,hend⟩

end Run

/-- There is nothing at the place of a file, which then has no entries, or there is a file with a
JSON object without single surrogates, or with blanks only. -/
def Starts (path : Path) (fields : Assoc Json) (d : Disk) : Prop :=
  (fields = [] ∧ d.at? (d.target path) = none) ∨
    ∃ bytes, d.find path = .ok (d.target path,.file bytes) ∧ contents path.text bytes = .ok fields ∧
      (Json.object fields).every Json.isEncodable Text.isEncodable = true

/-- A file that starts with some entries has the map of them. -/
theorem maps_of_starts {path : Path} {fields : Assoc Json} {d : Disk} (h : Starts path fields d) :
    Maps path fields d := by
  rcases h with ⟨rfl,hnone⟩ | ⟨bytes,hfind,hcontents,hencodable⟩
  · exact ⟨Or.inl ⟨rfl,Or.inl hnone⟩,
      .object List.nodup_nil (List.forall_mem_nil _) (List.forall_mem_nil _)⟩
  · exact ⟨Or.inr ⟨bytes,hfind,hcontents.symm⟩,(legible_of_contents hcontents).writable hencodable⟩

/-- A file is a map from keys to texts that lasts from call to call, whether the calls are made
through one store or through several. On a disk that serves the file every call ends as on the map,
and so, if all entries are strings, as in a table. On any other disk this holds of the calls that
are not refused; the refused ones leave the map as it was. -/
theorem file_answers_as_map {path : Path} (hp : path.NamesFile) {fields : Assoc Json} {d : Disk}
    (hstart : Starts path fields d) {calls : List (Binary64 × Call)}
    (hcalls : ∀ call ∈ calls, call.2.isEncodable = true) :
    let after := run (fun patience => file ⟨path,patience⟩) calls d
    let readAfter := fun patience key => (File.get ⟨path,patience⟩ key after.2).result
    (Ready path calls.length d →
      let ideal := run (fun _ => mapping) calls (answers path.text fields)
      after.1 = ideal.1 ∧ (∀ patience key, readAfter patience key = ideal.2 key) ∧
        ∀ table : Assoc Text, fields = table.map (fun entry => (entry.1,.string entry.2)) →
          after.1 = (run (fun _ => memory) calls table).1) ∧
    (let kept := done calls after.1
      let ideal := run (fun _ => mapping) (kept.map Prod.fst) (answers path.text fields)
      kept.map Prod.snd = ideal.1 ∧
        (∀ patience key, isRefused (readAfter patience key) = true ∨
          readAfter patience key = ideal.2 key) ∧
        ∀ table : Assoc Text, fields = table.map (fun entry => (entry.1,.string entry.2)) →
          kept.map Prod.snd = (run (fun _ => memory) (kept.map Prod.fst) table).1) := by
  have hmaps := maps_of_starts hstart
  obtain ⟨fields',hmaps',hrun⟩ := run_file hp hmaps hcalls
  refine ⟨fun hready => ?_,?_⟩
  · obtain ⟨hall,hlength,hend⟩ := run_ready hp hmaps hready hcalls
    rw [hall, List.map_fst_zip hlength.ge, List.map_snd_zip hlength.le] at hrun
    refine ⟨(congrArg Prod.fst hrun).symm,fun patience key => ?_,?_⟩
    · have hget := hend.get ⟨path,patience⟩ hp.usable hmaps'.holds key
      rw [hrun]
      exact congrArg Outcome.result hget
    · rintro table rfl
      rw [run_memory, ← answers_strings path.text, hrun]
  · refine ⟨(congrArg Prod.fst hrun).symm,fun patience key => ?_,?_⟩
    · rw [hrun]
      obtain ⟨_,hresult | ⟨e,hresult,he⟩⟩ := hmaps'.holds.get ⟨path,patience⟩ hp.usable key
      · exact Or.inr hresult
      · exact Or.inl ((congrArg isRefused hresult).trans he)
    · rintro table rfl
      rw [run_memory, ← answers_strings path.text, hrun]

section Example

def noteBytes : List UInt8 :=
  (Text.ofString "\x7b\"n\": [5], \"a\": \"x\"\x7d").flatMap Utf8.bytesOf

def noteCalls : List (Binary64 × Call) :=
  [(.ofInt 5,.set (Text.ofString "a") (Text.ofString "\"\r\n")),(.ofInt 1,.get (Text.ofString "a")),
    (.ofInt 5,.get (Text.ofString "n")),(.ofInt 1,.remove (Text.ofString "a")),
    (.ofInt 5,.get (Text.ofString "a"))]

/-- A file with two entries, one of which is no string, as it is read, set and removed. -/
theorem file_answers_as_map_of_notes :
    onlyPath.NamesFile ∧ Ready onlyPath noteCalls.length (onlyFile noteBytes) ∧
      (run (fun patience => file ⟨onlyPath,patience⟩) noteCalls (onlyFile noteBytes)).1 =
        [.ok none,.ok (some (Text.ofString "\"\r\n")),
          .error (.storage (.notText (Text.ofString "n") onlyPath.text (Text.ofString "list"))),
          .ok none,.ok none] := by
  have hcontents : contents onlyPath.text noteBytes = .ok [(Text.ofString "n",.array [.int 5]),
      (Text.ofString "a",.string (Text.ofString "x"))] := by cbv
  have hstart : Starts onlyPath [(Text.ofString "n",.array [.int 5]),
      (Text.ofString "a",.string (Text.ofString "x"))] (onlyFile noteBytes) :=
    Or.inr ⟨noteBytes,rfl,hcontents,by cbv⟩
  have hcalls : ∀ call ∈ noteCalls, call.2.isEncodable = true :=
    List.all_eq_true.mp (by decide +kernel)
  have hready : Ready onlyPath noteCalls.length (onlyFile noteBytes) := ready_onlyFile noteBytes
  exact ⟨namesFile_onlyPath,hready,
    ((file_answers_as_map namesFile_onlyPath hstart hcalls).1 hready).1.trans (by rfl)⟩

end Example

end Store

end CategorySelection
