import CategorySelection.Proofs.Store.Written
/-!
The text of a file. Once a store has written its file, the bytes are told by the map from keys to
values that the calls have led to, and by nothing else: not by the order of the calls, nor by what
was set in between, nor by the order in which an earlier file had its entries.
-/

namespace CategorySelection

namespace Store

section Calls

variable {ι : Type}

def mapAfter (calls : List (ι × Call)) (fields : Assoc Json) : Assoc Json :=
  calls.foldl (fun fields call => call.2.edit fields) fields

def rewrites : List (ι × Call) → Assoc Json → Bool
  | [], _ => false
  | call :: rest, fields => call.2.writes fields || rewrites rest (call.2.edit fields)

/-- The map after more calls is told by the map before them. -/
theorem mapAfter_append (earlier later : List (ι × Call)) (fields : Assoc Json) :
    mapAfter (earlier ++ later) fields = mapAfter later (mapAfter earlier fields) :=
  List.foldl_append

/-- Calls write if the earlier ones do or the later ones do on the map before them. -/
theorem rewrites_append (earlier later : List (ι × Call)) (fields : Assoc Json) :
    rewrites (earlier ++ later) fields =
      (rewrites earlier fields || rewrites later (mapAfter earlier fields)) := by
  induction earlier generalizing fields with
  | nil => rfl
  | cons call rest ih =>
    rw [List.cons_append, rewrites, rewrites, ih, Bool.or_assoc, mapAfter, mapAfter,
      List.foldl_cons]

theorem mapAfter_of_not_rewrites {calls : List (ι × Call)} {fields : Assoc Json}
    (h : rewrites calls fields = false) : mapAfter calls fields = fields := by
  induction calls generalizing fields with
  | nil => rfl
  | cons call rest ih =>
    rw [rewrites, Bool.or_eq_false_iff] at h
    have hcall := edit_of_not_writes h.1
    rw [hcall] at h
    rw [mapAfter, List.foldl_cons, hcall]
    exact ih h.2

end Calls

namespace File

/-- How a history ends: every change in it gives nothing and is done, the file has the entries that
it leads to, and its bytes are the page of these, or what they were if nothing was written. -/
structure Arrives (path : Path) (room : Nat) (calls : List (Binary64 × Call))
    (ideal : Assoc Json) (d : Disk) (after : List Answer × Disk) : Prop where
  results : ∀ pair ∈ calls.zip after.1, pair.1.2.isChange = true → pair.2 = .ok none
  ready : Ready path room after.2
  stands : Stands path (mapAfter calls ideal) after.2
  written : rewrites calls ideal = true →
    after.2.readBytes path = .ok (pageBytes (mapAfter calls ideal))
  kept : rewrites calls ideal = false → ∀ bytes, d.readBytes path = .ok bytes →
    after.2.readBytes path = .ok bytes

/-- By induction on the calls. A call that writes nothing leaves the bytes, so the last one that
writes decides them. -/
theorem arrives {path : Path} (hp : path.NamesFile) {calls : List (Binary64 × Call)}
    (hcalls : ∀ call ∈ calls, call.2.isEncodable = true) {ideal : Assoc Json} {d : Disk}
    (h : Stands path ideal d) {room : Nat} (hready : Ready path (room+calls.length) d) :
    Arrives path room calls ideal d (run (fun patience => file ⟨path,patience⟩) calls d) := by
  induction calls generalizing ideal d with
  | nil =>
    rw [run]
    exact ⟨List.forall_mem_nil _,hready,h,fun hwritten => (Bool.false_ne_true hwritten).elim,
      fun _ _ hbytes => hbytes⟩
  | cons next rest ih =>
    obtain ⟨patience,call⟩ := next
    obtain ⟨hcall,hrest⟩ := List.forall_mem_cons.mp hcalls
    have hstep : Advances path (room+rest.length) call ideal d
        (call.apply (file ⟨path,patience⟩) d) :=
      advances ⟨path,patience⟩ hp h hready hcall
    have hafter := ih hrest hstep.stands hstep.ready
    have hmap : mapAfter ((patience,call) :: rest) ideal = mapAfter rest (call.edit ideal) :=
      List.foldl_cons ..
    rw [run]
    constructor
    case results =>
      rw [List.zip_cons_cons]
      exact List.forall_mem_cons.mpr ⟨hstep.result,hafter.results⟩
    case ready => exact hafter.ready
    case stands =>
      rw [hmap]
      exact hafter.stands
    case written =>
      intro hwritten
      rw [hmap]
      cases hlater : rewrites rest (call.edit ideal) with
      | true => exact hafter.written hlater
      | false =>
        rw [rewrites, hlater, Bool.or_false] at hwritten
        rw [mapAfter_of_not_rewrites hlater]
        exact hafter.kept hlater _ (hstep.written hwritten)
    case kept =>
      intro hwritten bytes hbytes
      rw [rewrites, Bool.or_eq_false_iff] at hwritten
      exact hafter.kept hwritten.2 bytes (hstep.kept hwritten.1 bytes hbytes)

end File

open File

/-- A file that is missing, blank or has entries without floating-point numbers, and a disk on which
it can be changed so many times. -/
structure Changeable (path : Path) (fields : Assoc Json) (changes : Nat) (d : Disk) : Prop where
  named : path.NamesFile
  starts : Starts path fields d
  exact : (Json.object fields).every Json.isExact (fun _ => true) = true
  ready : Ready path changes d

structure Leaves (path : Path) (calls : List (Binary64 × Call)) (d : Disk)
    (bytes : List UInt8) : Prop where
  done : ∀ pair ∈ calls.zip (run (fun patience => file ⟨path,patience⟩) calls d).1,
    pair.1.2.isChange = true → pair.2 = .ok none
  bytes : (run (fun patience => file ⟨path,patience⟩) calls d).2.readBytes path = .ok bytes

namespace Changeable

variable {path : Path} {fields : Assoc Json} {changes : Nat} {d : Disk}
    {calls : List (Binary64 × Call)}

/-- A file that can be changed has the entries of its map. -/
theorem stands (h : Changeable path fields changes d) : Stands path fields d := by
  have hmaps := maps_of_starts h.starts
  have hexact := Json.Writable.exact hmaps.writable h.exact
  exact ⟨distinct_of_exact hexact,fields,hmaps.holds,hexact,.refl fields⟩

theorem arrives (h : Changeable path fields changes d) (hlength : calls.length ≤ changes)
    (hcalls : ∀ call ∈ calls, call.2.isEncodable = true) :
    Arrives path (changes-calls.length) calls fields d
      (run (fun patience => file ⟨path,patience⟩) calls d) := by
  have hready : Ready path (changes-calls.length+calls.length) d := h.ready.lower (by omega)
  exact File.arrives h.named hcalls h.stands hready

/-- What a history that writes the file leaves is told by the map that it leads to. -/
theorem leaves (h : Changeable path fields changes d) (hlength : calls.length ≤ changes)
    (hcalls : ∀ call ∈ calls, call.2.isEncodable = true) (hwritten : rewrites calls fields = true) :
    Leaves path calls d (pageBytes (mapAfter calls fields)) ∧
      (Assoc.names (mapAfter calls fields)).Nodup := by
  have harrives := h.arrives hlength hcalls
  exact ⟨⟨harrives.results,harrives.written hwritten⟩,harrives.stands.1⟩

/-- The entries after a history are read from the file, in some order. -/
theorem entries_after (h : Changeable path fields changes d) (hlength : calls.length ≤ changes)
    (hcalls : ∀ call ∈ calls, call.2.isEncodable = true) :
    ∃ held, entries (run (fun patience => file ⟨path,patience⟩) calls d).2 path = .ok held ∧
      Json.Alike held (mapAfter calls fields) := by
  have harrives := h.arrives hlength hcalls
  obtain ⟨_,held,hholds,_,halike⟩ := harrives.stands
  exact ⟨held,harrives.ready.entries hholds,halike⟩

/-- Two histories, perhaps of two files, that lead to the same map leave the same bytes. -/
theorem leaves_same {path' : Path} {fields' : Assoc Json} {changes' : Nat} {d' : Disk}
    {calls' : List (Binary64 × Call)} (h : Changeable path fields changes d)
    (h' : Changeable path' fields' changes' d') (hlength : calls.length ≤ changes)
    (hlength' : calls'.length ≤ changes') (hcalls : ∀ call ∈ calls, call.2.isEncodable = true)
    (hcalls' : ∀ call ∈ calls', call.2.isEncodable = true) (hwritten : rewrites calls fields = true)
    (hwritten' : rewrites calls' fields' = true)
    (hsame : Json.Alike (mapAfter calls fields) (mapAfter calls' fields')) :
    ∃ bytes, Leaves path calls d bytes ∧ Leaves path' calls' d' bytes := by
  obtain ⟨hleaves,hdistinct⟩ := h.leaves hlength hcalls hwritten
  obtain ⟨hleaves',hdistinct'⟩ := h'.leaves hlength' hcalls' hwritten'
  rw [← pageBytes_eq hsame hdistinct hdistinct'] at hleaves'
  exact ⟨_,hleaves,hleaves'⟩

end Changeable

/-- Calls that a file can be changed by: not too many of them, and none with single surrogates. -/
def Fits (changes : Nat) (calls : List (Binary64 × Call)) : Prop :=
  calls.length ≤ changes ∧ ∀ call ∈ calls, call.2.isEncodable = true

section Laws

variable {path : Path} {fields : Assoc Json} {changes : Nat} {d : Disk}
    {before : List (Binary64 × Call)}

/-- Behind the same calls, at most two calls each that lead from one map to one map leave the same
bytes, unless the file was not written. -/
theorem Changeable.leaves_same_behind (h : Changeable path fields changes d)
    (hbefore : before.length+2 ≤ changes ∧ ∀ call ∈ before, call.2.isEncodable = true)
    {calls calls' : List (Binary64 × Call)} (hcalls : Fits 2 calls) (hcalls' : Fits 2 calls')
    (hwritten : (rewrites before fields || rewrites calls (mapAfter before fields)) = true)
    (hwritten' : (rewrites before fields || rewrites calls' (mapAfter before fields)) = true)
    (hsame : Json.Alike (mapAfter calls (mapAfter before fields))
      (mapAfter calls' (mapAfter before fields))) :
    ∃ bytes, Leaves path (before ++ calls) d bytes ∧ Leaves path (before ++ calls') d bytes := by
  rw [← rewrites_append] at hwritten hwritten'
  rw [← mapAfter_append, ← mapAfter_append] at hsame
  obtain ⟨hlength,hbefore⟩ := hbefore
  obtain ⟨hcount,hcalls⟩ := hcalls
  obtain ⟨hcount',hcalls'⟩ := hcalls'
  refine h.leaves_same h ?_ ?_ (List.forall_mem_append.mpr ⟨hbefore,hcalls⟩)
    (List.forall_mem_append.mpr ⟨hbefore,hcalls'⟩) hwritten hwritten' hsame
  · rw [List.length_append]
    omega
  · rw [List.length_append]
    omega

theorem isEncodable_set {key value : Text} (hkey : key.isEncodable = true)
    (hvalue : value.isEncodable = true) :
    (Call.set key value).isEncodable = true := by
  rw [Call.isEncodable, hkey, hvalue]
  rfl

theorem fits_one {i : Binary64} {call : Call} (h : call.isEncodable = true) : Fits 2 [(i,call)] :=
  ⟨Nat.le_succ 1,List.forall_mem_singleton.mpr h⟩

theorem fits_two {i j : Binary64} {call call' : Call} (h : call.isEncodable = true)
    (h' : call'.isEncodable = true) : Fits 2 [(i,call),(j,call')] :=
  ⟨le_rfl,List.forall_mem_cons.mpr ⟨h,List.forall_mem_singleton.mpr h'⟩⟩

/-- The text of a file is told by the map it holds. Histories that lead to the same map, up to the
order of names in nested objects, leave the same bytes, from whatever files they start. So changes
of different keys can be exchanged, the last of several values of a key is the one that counts, and
a key that was not there can be set and removed without a trace in a file that was written before.
All these changes are done. -/
theorem file_text_told_by_map (h : Changeable path fields changes d) :
    (∀ (path' : Path) (fields' : Assoc Json) (changes' : Nat) (d' : Disk)
      (calls calls' : List (Binary64 × Call)), Changeable path' fields' changes' d' →
        Fits changes calls → Fits changes' calls' →
      rewrites calls fields = true → rewrites calls' fields' = true →
      Json.Alike (mapAfter calls fields) (mapAfter calls' fields') →
      ∃ bytes, Leaves path calls d bytes ∧ Leaves path' calls' d' bytes) ∧
    ∀ (before : List (Binary64 × Call)) (i j : Binary64) (key other value value' : Text),
      before.length+2 ≤ changes → (∀ call ∈ before, call.2.isEncodable = true) →
      key.isEncodable = true → other.isEncodable = true → value.isEncodable = true →
        value'.isEncodable = true →
      let same (calls calls' : List (Binary64 × Call)) : Prop :=
        ∃ bytes, Leaves path (before ++ calls) d bytes ∧ Leaves path (before ++ calls') d bytes
      (key ≠ other → same [(i,.set key value),(j,.set other value')]
        [(j,.set other value'),(i,.set key value)]) ∧
      same [(i,.set key value),(j,.set key value)] [(i,.set key value)] ∧
      same [(i,.set key value),(j,.set key value')] [(j,.set key value')] ∧
      ∀ held, rewrites before fields = true →
        entries (run (fun patience => file ⟨path,patience⟩) before d).2 path = .ok held →
        held.has key = false → same [(i,.set key value),(j,.remove key)] [] := by
  constructor
  · intro path' fields' changes' d' calls calls' h' hcalls hcalls' hwritten hwritten' halike
    exact h.leaves_same h' hcalls.1 hcalls'.1 hcalls.2 hcalls'.2 hwritten hwritten' halike
  intro before i j key other value value' hlength hencodable hkey hother hvalue hvalue' same
  have hbefore := And.intro hlength hencodable
  have hset := isEncodable_set hkey hvalue
  have hset' := isEncodable_set hkey hvalue'
  have hwrites (calls : List (Binary64 × Call)) (call : Binary64 × Call)
      (hcall : call.2.writes (mapAfter before fields) = true) :
      (rewrites before fields || rewrites (call :: calls) (mapAfter before fields)) = true := by
    rw [rewrites, hcall, Bool.true_or, Bool.or_true]
  refine ⟨fun hne => ?_,?_,?_,fun held hwritten hentries habsent => ?_⟩
  · have hthere := isEncodable_set hother hvalue'
    exact h.leaves_same_behind hbefore (fits_two hset hthere) (fits_two hthere hset)
      (hwrites _ _ rfl)
      (hwrites _ _ rfl) (.put_comm hne _ _ _)
  · exact h.leaves_same_behind hbefore (fits_two hset hset) (fits_one hset) (hwrites _ _ rfl)
      (hwrites _ _ rfl) (.put_put key _ _ _)
  · exact h.leaves_same_behind hbefore (fits_two hset hset') (fits_one hset') (hwrites _ _ rfl)
      (hwrites _ _ rfl) (.put_put key _ _ _)
  · obtain ⟨found,hfound,halike⟩ := h.entries_after (by omega) hencodable
    obtain rfl := Except.ok.inj (hfound.symm.trans hentries)
    have hkept : (mapAfter before fields).has key = false := (halike.has_eq key).symm.trans habsent
    exact h.leaves_same_behind hbefore (fits_two hset rfl) ⟨Nat.zero_le 2,
      List.forall_mem_nil _⟩ (hwrites _ _ rfl)
      (by rw [hwritten, Bool.true_or]) (.erase_put hkept _)

end Laws

section Example

/-- The bytes of a file with the entries of `noteBytes` in another order, one of them given
twice. -/
def shuffledBytes : List UInt8 :=
  (Text.ofString "\x7b\"a\": \"y\",\n\"a\": \"x\", \"n\": [5]\x7d").flatMap Utf8.bytesOf

theorem file_text_told_by_map_of_notes :
    let calls : List (Binary64 × Call) := [(.ofInt 5,.set (Text.ofString "b") (Text.ofString "\n"))]
    let notes : Assoc Json :=
      [(Text.ofString "n",.array [.int 5]),(Text.ofString "a",.string (Text.ofString "x"))]
    let shuffled : Assoc Json :=
      [(Text.ofString "a",.string (Text.ofString "x")),(Text.ofString "n",.array [.int 5])]
    Changeable onlyPath notes 5 (onlyFile noteBytes) ∧
      Changeable onlyPath shuffled 5 (onlyFile shuffledBytes) ∧
      (∃ bytes, Leaves onlyPath calls (onlyFile noteBytes) bytes ∧
        Leaves onlyPath calls (onlyFile shuffledBytes) bytes) ∧
      ∃ bytes, Leaves onlyPath (calls ++ [(.ofInt 5,.set (Text.ofString "c") (Text.ofString "x")),
          (.ofInt 1,.remove (Text.ofString "c"))]) (onlyFile noteBytes) bytes ∧
        Leaves onlyPath (calls ++ []) (onlyFile noteBytes) bytes := by
  intro calls notes shuffled
  have hcontents : contents onlyPath.text noteBytes = .ok notes := by cbv
  have hcontents' : contents onlyPath.text shuffledBytes = .ok shuffled := by cbv
  have hnotes : Changeable onlyPath notes 5 (onlyFile noteBytes) :=
    ⟨namesFile_onlyPath,Or.inr ⟨noteBytes,rfl,hcontents,by cbv⟩,by cbv,ready_onlyFile noteBytes⟩
  have hshuffled : Changeable onlyPath shuffled 5 (onlyFile shuffledBytes) :=
    ⟨namesFile_onlyPath,Or.inr ⟨shuffledBytes,rfl,hcontents',by cbv⟩,by cbv,
      ready_onlyFile shuffledBytes⟩
  have hfits : Fits 5 calls := ⟨by decide,List.forall_mem_singleton.mpr rfl⟩
  have halike : Json.Alike notes shuffled := by
    apply Json.Alike.of_get?_eq
    have hne : Text.ofString "n" ≠ Text.ofString "a" := by decide
    intro key
    rw [Assoc.get?_cons, Assoc.get?_cons, Assoc.get?_cons, Assoc.get?_cons]
    by_cases hn : Text.ofString "n" = key
    · simp only [← hn, hne.symm, ↓reduceIte]
    · simp only [hn, ↓reduceIte]
  obtain ⟨hsame,hlaws⟩ := file_text_told_by_map hnotes
  have hafter : Json.Alike (mapAfter calls notes) (mapAfter calls shuffled) :=
    halike.put (Text.ofString "b") (.string (Text.ofString "\n"))
  refine ⟨hnotes,hshuffled,hsame _ _ 5 _ calls calls hshuffled hfits hfits rfl rfl hafter,?_⟩
  obtain ⟨held,hheld,hkept⟩ := hnotes.entries_after hfits.1 hfits.2
  obtain ⟨_,_,_,habsent⟩ :=
    hlaws calls (.ofInt 5) (.ofInt 1) (Text.ofString "c") (Text.ofString "a")
    (Text.ofString "x") (Text.ofString "x") (by decide) hfits.2 rfl rfl rfl rfl
  exact habsent held rfl hheld ((hkept.has_eq _).trans (by decide))

end Example

end Store

end CategorySelection
