import CategorySelection.Proofs.Text.Basic
import CategorySelection.Service.Route
/-!
Where the paths of sessions lead. The path of a session has its id as its last part, so asking for
it shows this session and leads to nothing else.
-/

namespace CategorySelection

namespace Service

def sessionPath (id : Text) : Text := "/api/sessions/" ++ id

namespace Route

def sessionParts (rest : List Text) : List Text :=
  Text.ofString "api" :: Text.ofString "sessions" :: rest

/-- The parts of the path of a session are those of the path of sessions and of its id. -/
theorem partsOf_sessionPath (id : Text) :
    partsOf (sessionPath id) = some (sessionParts (Text.split (CodePoint.ofChar '/') id)) := by
  have hpath : sessionPath id = CodePoint.ofChar '/' ::
      (Text.ofString "api" ++ CodePoint.ofChar '/' ::
        (Text.ofString "sessions" ++ CodePoint.ofChar '/' :: id)) := rfl
  rw [hpath, partsOf, if_pos rfl, Text.split_append, Text.split_append,
    Text.split_of_not_mem (by decide), Text.split_of_not_mem (by decide), sessionParts]
  rfl

/-- Only a route that was found gives a call; all else is a wrong method, a new place or nothing. -/
theorem mem_callsAt_of_find {method : Method} {path : Text} {call : Call}
    (h : find method path = .call call) : (method, call) ∈ callsAt path := by
  rw [find] at h
  split at h
  · rename_i found hfound
    cases h
    have hmethod := List.find?_some hfound
    rw [decide_eq_true_eq] at hmethod
    rw [← hmethod]
    exact List.mem_of_find?_eq_some hfound
  · split at h
    · cases h
    · split at h <;> cases h

theorem fit_slot {rest ts : List Text} (h : fit [.slot] rest = some ts) :
    ∃ t, rest = [t] ∧ ts = [t] := by
  match rest with
  | [] => cases h
  | t :: path =>
    rw [fit] at h
    split at h
    · cases h
    · cases path with
      | nil =>
        cases h
        exact ⟨t,rfl,rfl⟩
      | cons _ _ => cases h

/-- Asking for a path of sessions leads to the session, if it leads to a call. Three of the routes
are for asking, and only one of them has such paths. -/
theorem find_sessionPath {id : Text} {call : Call} (h : find .get (sessionPath id) = .call call) :
    call = .showSession id := by
  have hmem := mem_callsAt_of_find h
  rw [callsAt, partsOf_sessionPath] at hmem
  obtain ⟨route,hroute,hcall⟩ := List.mem_filterMap.mp hmem
  obtain ⟨call',hbind,heq⟩ := Option.map_eq_some_iff.mp hcall
  obtain ⟨ts,hfit,hcall'⟩ := Option.bind_eq_some_iff.mp hbind
  obtain ⟨hmethod,rfl⟩ := Prod.mk.inj heq
  obtain ⟨part,parts,hparts⟩ :=
    List.exists_cons_of_ne_nil (Text.split_ne_nil (CodePoint.ofChar '/') id)
  rw [hparts] at hfit
  simp only [all, List.mem_cons, List.not_mem_nil, or_false] at hroute
  rcases hroute with rfl | rfl | rfl | rfl | rfl | rfl | rfl | rfl | rfl | rfl | rfl | rfl | rfl |
    rfl | rfl | rfl
  all_goals first
    | (cases hmethod; done)
    | exact absurd (show none = some ts from hfit) (Option.some_ne_none ts).symm
    | skip
  obtain ⟨t,hrest,rfl⟩ := fit_slot (show fit [.slot] (part :: parts) = some ts from hfit)
  obtain ⟨rfl,rfl⟩ := List.cons.inj hrest
  cases hcall'
  rw [Text.eq_of_split_eq_singleton hparts]

/-- The path of a session with a plain id leads to it, as the id fits the slot and of the two calls
there one is for asking. -/
theorem find_sessionPath_of_plain {id : Text} (hne : id ≠ []) (hid : CodePoint.ofChar '/' ∉ id) :
    find .get (sessionPath id) = .call (.showSession id) := by
  obtain ⟨c,rest,rfl⟩ := List.exists_cons_of_ne_nil hne
  have hcalls : callsAt (sessionPath (c :: rest)) =
      [(.get, .showSession (c :: rest)), (.delete, .closeSession (c :: rest))] := by
    rw [callsAt, partsOf_sessionPath, Text.split_of_not_mem hid]
    rfl
  rw [find, hcalls]
  rfl

end Route

end Service

end CategorySelection
