import CategorySelection.Proofs.Disk.Footprint
import CategorySelection.Proofs.Session.Commits
import CategorySelection.Proofs.Session.Draft
import CategorySelection.Proofs.Store.Serving
import CategorySelection.Session.Target
/-!
Expressions in files. A file takes an expression whole, or it refuses it and stays as it is, as long
as the system can take the path and all of the line, and the expression can be encoded; the drafts
of sessions always can.
-/

namespace CategorySelection

structure Disk.Takes (p : Path) (t : Text) (d d' : Disk) : Prop where
  content : ∃ bytes, d'.readBytes p = .ok bytes ∧ Utf8.decode bytes = .ok t
  elsewhere : Disk.DiffersAt {d.target p} d d'

namespace Disk

variable {d : Disk} {p : Path} {l : Location}

def CanWrite (d : Disk) (p : Path) (bytes : List UInt8) : Prop :=
  d.CanOpen p ∧ d.hasRoom bytes = true

/-- The bytes that are written to a file are read there. -/
theorem readBytes_put (h : d.CanOpen p) (bytes : List UInt8) :
    (d.put (d.target p) (.file bytes)).readBytes p = .ok bytes := by
  have hopen : (d.put (d.target p) (.file bytes)).CanOpen p :=
    h.mono rfl (directory_put_iff h.2 bytes)
  have hlocate : (d.put (d.target p) (.file bytes)).locate p = .ok (d.target p) := hopen.1
  rw [readBytes, find_of_locate hlocate, at?_put_self _ d (ne_top h.2)]
  rfl

/-- Putting something changes nothing only where it was there before. -/
theorem differsAt_put_iff {e : Entry} (hl : l ≠ #[]) :
    DiffersAt ∅ d (d.put l e) ↔ d.at? l = some e := by
  constructor
  · intro h
    rw [← h.elsewhere l (Set.notMem_empty l), at?_put_self e d hl]
  · intro h
    refine ⟨rfl,rfl,rfl,fun m _ => ?_⟩
    by_cases hm : m = l
    · rw [hm, at?_put_self e d hl, h]
    · exact at?_put_ne e d hm

end Disk

namespace Session

def lineBytes (expression : Text) : List UInt8 := (expression ++ "\n").flatMap Utf8.bytesOf

/-- How handing an expression to a file should end: the file holds the expression and a line feed,
or it is refused as a commit and the disk holds what it held. -/
def IsWhole (p : Path) (expression : Text) (d : Disk) (after : Outcome Disk Unit) : Prop :=
  (after.result = .ok () ∧ Disk.Takes p (expression ++ "\n") d after.world) ∨
    ((∃ why, after.result = .error (.uncommitted p.text why)) ∧ Disk.DiffersAt ∅ d after.world)

section Send

variable {p : Path} {d : Disk} {t : Text}

/-- What handing an expression to a file does, step by step: the path, the opening, the bytes and
the writing can each end it. -/
theorem sendToFile_apply (p : Path) (t : Text) (d : Disk) :
    sendToFile p t d = match Disk.checkPath p with
      | .error why => ⟨.error why,d,[]⟩
      | .ok () => match d.openEmpty p with
        | .error why => ⟨.error (.uncommitted p.text why),d,[]⟩
        | .ok (l,emptied) => match Utf8.encode (t ++ "\n") with
          | .error why => ⟨.error (.encoding why),emptied,[]⟩
          | .ok bytes =>
            ⟨(emptied.fill l bytes).2.mapError (.uncommitted p.text),
              (emptied.fill l bytes).1,[]⟩ := by
  rw [sendToFile, Action.bind_apply, Action.ofExcept_apply]
  cases Disk.checkPath p with
  | error why => rfl
  | ok _ =>
    dsimp only
    rw [Action.bind_apply, Action.world_apply]
    dsimp only
    cases d.openEmpty p with
    | error why => rfl
    | ok opened =>
      dsimp only
      cases Utf8.encode (t ++ "\n") <;> rfl

theorem isEncodable_line (t : Text) : Text.isEncodable (t ++ "\n") = t.isEncodable := by
  have hfeed : Text.isEncodable (Text.ofString "\n") = true := rfl
  rw [Text.isEncodable, List.all_append]
  change (t.isEncodable && Text.isEncodable (Text.ofString "\n")) = t.isEncodable
  rw [hfeed, Bool.and_true]

/-- A path that the system cannot take is no fault of the host. -/
theorem kind_of_untakable {why : Fault} (hp : Disk.checkPath p = .error why) :
    why.kind ≠ .commit := by
  rw [Disk.checkPath] at hp
  intro hkind
  split at hp
  · obtain rfl := Except.error.inj hp
    cases hkind
  · split_ifs at hp
    obtain rfl := Except.error.inj hp
    cases hkind

theorem sendToFile_of_untakable {why : Fault} (hp : Disk.checkPath p = .error why) (t : Text) :
    sendToFile p t d = ⟨.error why,d,[]⟩ := by
  rw [sendToFile_apply, hp]

theorem sendToFile_of_unopenable (hp : Disk.checkPath p = .ok ()) {why : SystemFault}
    (hopen : d.openEmpty p = .error why) (t : Text) :
    sendToFile p t d = ⟨.error (.uncommitted p.text why),d,[]⟩ := by
  rw [sendToFile_apply, hp, hopen]

/-- The file is emptied before the line is encoded, so it stays empty if the line cannot be. -/
theorem sendToFile_of_not_isEncodable (hp : Disk.checkPath p = .ok ()) (hopen : d.CanOpen p)
    (ht : t.isEncodable = false) :
    ∃ why, sendToFile p t d = ⟨.error (.encoding why),d.put (d.target p) (.file []),[]⟩ := by
  obtain ⟨why,hencode⟩ := Utf8.encode_of_not_isEncodable ((isEncodable_line t).trans ht)
  refine ⟨why,?_⟩
  rw [sendToFile_apply, hp, Disk.openEmpty_of_canOpen hopen, hencode]

/-- A line that can be encoded takes the place of what the file held, as far as the system takes
it. -/
theorem sendToFile_of_isEncodable (hp : Disk.checkPath p = .ok ()) (hopen : d.CanOpen p)
    (ht : t.isEncodable = true) :
    sendToFile p t d =
      ⟨if d.hasRoom (lineBytes t) then .ok ()
        else .error (.uncommitted p.text ⟨.noSpace,none,none⟩),
        d.put (d.target p) (.file (d.taken (lineBytes t))),[]⟩ := by
  have hline : Text.isEncodable (t ++ "\n") = true := (isEncodable_line t).trans ht
  have htaken (bytes : List UInt8) : (d.put (d.target p) (.file [])).taken bytes = d.taken bytes :=
    rfl
  have hroom (bytes : List UInt8) :
      (d.put (d.target p) (.file [])).hasRoom bytes = d.hasRoom bytes := rfl
  rw [sendToFile_apply, hp, Disk.openEmpty_of_canOpen hopen, Utf8.encode_eq hline, ← lineBytes]
  dsimp only
  rw [Disk.fill, htaken, hroom, Disk.put_put]
  cases d.hasRoom (lineBytes t) <;> rfl

/-- A line that can be encoded, and of which the system takes all, is what the file holds then. -/
theorem sendToFile_of_hasRoom (hp : Disk.checkPath p = .ok ()) (hopen : d.CanOpen p)
    (ht : t.isEncodable = true) (hroom : d.hasRoom (lineBytes t) = true) :
    sendToFile p t d = ⟨.ok (),d.put (d.target p) (.file (lineBytes t)),[]⟩ := by
  rw [sendToFile_of_isEncodable hp hopen ht, if_pos hroom, Disk.taken_of_hasRoom hroom]

/-- A line that the system does not take whole is refused, and the file keeps the part that it
took. -/
theorem sendToFile_of_not_hasRoom (hp : Disk.checkPath p = .ok ()) (hopen : d.CanOpen p)
    (ht : t.isEncodable = true) (hroom : d.hasRoom (lineBytes t) = false) :
    sendToFile p t d =
      ⟨.error (.uncommitted p.text ⟨.noSpace,none,none⟩),
        d.put (d.target p) (.file (d.taken (lineBytes t))),[]⟩ := by
  rw [sendToFile_of_isEncodable hp hopen ht, hroom]
  rfl

/-- With the line in it the file holds the expression and a line feed, and nothing else has
changed. -/
theorem takes_line (hopen : d.CanOpen p) (ht : t.isEncodable = true) :
    Disk.Takes p (t ++ "\n") d (d.put (d.target p) (.file (lineBytes t))) := by
  have hline : Text.isEncodable (t ++ "\n") = true := (isEncodable_line t).trans ht
  exact ⟨⟨_,Disk.readBytes_put hopen (lineBytes t),Utf8.decode_flatMap hline⟩,.put _ _ d⟩

theorem IsWhole.result {o : Outcome Disk Unit} (h : IsWhole p t d o) :
    o.result = .ok () ∨ ∃ why, o.result = .error (.uncommitted p.text why) :=
  h.imp And.left And.left

/-- A fault that is not one of a commit is no way in which handing an expression to a file should
end. -/
theorem not_isWhole_of_kind {o : Outcome Disk Unit} {why : Fault} (ho : o.result = .error why)
    (hkind : why.kind ≠ .commit) : ¬IsWhole p t d o := by
  intro hwhole
  rcases hwhole.result with hok | ⟨fault,hfault⟩
  · cases ho.symm.trans hok
  · obtain rfl := Except.error.inj (ho.symm.trans hfault)
    exact hkind rfl

theorem not_isWhole_of_untakable {why : Fault} (hp : Disk.checkPath p = .error why) (t : Text) :
    ¬IsWhole p t d (sendToFile p t d) := by
  rw [sendToFile_of_untakable hp]
  exact not_isWhole_of_kind rfl (kind_of_untakable hp)

/-- A file that cannot be opened is refused, and nothing has changed. -/
theorem isWhole_of_not_canOpen (hp : Disk.checkPath p = .ok ()) (hopen : ¬d.CanOpen p) (t : Text) :
    IsWhole p t d (sendToFile p t d) := by
  obtain ⟨why,hrefused⟩ := Disk.openEmpty_of_not_canOpen hopen
  rw [sendToFile_of_unopenable hp hrefused]
  exact Or.inr ⟨⟨why,rfl⟩,.refl ∅ d⟩

theorem not_isWhole_of_not_isEncodable (hp : Disk.checkPath p = .ok ()) (hopen : d.CanOpen p)
    (ht : t.isEncodable = false) : ¬IsWhole p t d (sendToFile p t d) := by
  obtain ⟨why,hsend⟩ := sendToFile_of_not_isEncodable hp hopen ht
  rw [hsend]
  exact not_isWhole_of_kind rfl nofun

/-- A line that is cut off is refused with the file as it was only if the file held that very part
of it. -/
theorem isWhole_iff_of_isEncodable (hp : Disk.checkPath p = .ok ()) (hopen : d.CanOpen p)
    (ht : t.isEncodable = true) :
    IsWhole p t d (sendToFile p t d) ↔
      d.hasRoom (lineBytes t) = true ∨
        d.at? (d.target p) = some (.file (d.taken (lineBytes t))) := by
  have htop := Disk.ne_top hopen.2
  cases hroom : d.hasRoom (lineBytes t) with
  | true =>
    rw [sendToFile_of_hasRoom hp hopen ht hroom]
    exact iff_of_true (Or.inl ⟨rfl,takes_line hopen ht⟩) (Or.inl rfl)
  | false =>
    rw [sendToFile_of_not_hasRoom hp hopen ht hroom]
    constructor
    · rintro (⟨hok,_⟩ | ⟨_,hsame⟩)
      · cases hok
      · exact Or.inr ((Disk.differsAt_put_iff htop).mp hsame)
    · rintro (hno | hsame)
      · cases hno
      · exact Or.inr ⟨⟨_,rfl⟩,(Disk.differsAt_put_iff htop).mpr hsame⟩

end Send

/-- A commit of any text to a file, over any path and whatever the disk holds and takes. It is whole
or it is refused as a commit with everything as it was exactly if the system can take the path, and
the file cannot be opened, or the text can be encoded and the system takes the whole line or just
what the file held already. Otherwise it ends with the fault of the path and the disk as it was,
with the fault of the text and the file emptied, or as a refused commit with the file holding the
part of the line that the system took. -/
theorem isWhole_sendToFile_iff (p : Path) (t : Text) (d : Disk) :
    (IsWhole p t d (sendToFile p t d) ↔
      Disk.checkPath p = .ok () ∧
        (¬d.CanOpen p ∨ (t.isEncodable = true ∧ (d.hasRoom (lineBytes t) = true ∨
          d.at? (d.target p) = some (.file (d.taken (lineBytes t))))))) ∧
    (∀ why, Disk.checkPath p = .error why →
      sendToFile p t d = ⟨.error why,d,[]⟩ ∧ why.kind ≠ .commit) ∧
    (Disk.checkPath p = .ok () → d.CanOpen p → t.isEncodable = false →
      (∃ why, (sendToFile p t d).result = .error (.encoding why)) ∧
        (sendToFile p t d).world.readBytes p = .ok []) ∧
    (Disk.checkPath p = .ok () → d.CanOpen p → t.isEncodable = true →
      d.hasRoom (lineBytes t) = false →
      (∃ why, (sendToFile p t d).result = .error (.uncommitted p.text why)) ∧
        (sendToFile p t d).world.readBytes p = .ok (d.taken (lineBytes t))) := by
  refine ⟨?_,fun why hp => ⟨sendToFile_of_untakable hp t,kind_of_untakable hp⟩,
    fun hp hopen ht => ?_,fun hp hopen ht hroom => ?_⟩
  · cases hp : Disk.checkPath p with
    | error why => exact iff_of_false (not_isWhole_of_untakable hp t) (fun h => nomatch h.1)
    | ok _ =>
      by_cases hopen : d.CanOpen p
      · cases ht : t.isEncodable with
        | true =>
          simp only [isWhole_iff_of_isEncodable hp hopen ht, hopen, not_true_eq_false,
            false_or, true_and]
        | false =>
          refine iff_of_false (not_isWhole_of_not_isEncodable hp hopen ht) ?_
          rintro ⟨_,hclosed | ⟨hno,_⟩⟩
          · exact hclosed hopen
          · cases hno
      · exact iff_of_true (isWhole_of_not_canOpen hp hopen t) ⟨rfl,Or.inl hopen⟩
  · obtain ⟨why,hsend⟩ := sendToFile_of_not_isEncodable hp hopen ht
    rw [hsend]
    exact ⟨⟨why,rfl⟩,Disk.readBytes_put hopen []⟩
  · rw [sendToFile_of_not_hasRoom hp hopen ht hroom]
    exact ⟨⟨_,rfl⟩,Disk.readBytes_put hopen _⟩

def committedDisk : Disk :=
  { entries := [(#["f"],.file ((Text.ofString "Category=Old\n").flatMap Utf8.bytesOf))] }

/-- A text with a single surrogate takes away what the file held, and the fault is not one of a
commit. -/
theorem surrogate_empties_file :
    let p : Path := ⟨"/",["f"]⟩
    let after := sendToFile p [0xd800] committedDisk
    Disk.checkPath p = .ok () ∧
      after.result = .error (.encoding ⟨0xd800,0,1⟩) ∧
      after.world.readBytes p = .ok [] ∧
      committedDisk.readBytes p = .ok ((Text.ofString "Category=Old\n").flatMap Utf8.bytesOf) ∧
      ¬IsWhole p [0xd800] committedDisk after := by
  intro p after
  have hresult : after.result = .error (.encoding ⟨0xd800,0,1⟩) := by decide +kernel
  refine ⟨by decide +kernel,hresult,by decide +kernel,by decide +kernel,?_⟩
  exact not_isWhole_of_kind hresult nofun

section Draft

variable {σ : Type} {s : Session} {p : Path}

/-- The draft is written in letters, digits and operators. -/
theorem Sound.isEncodable_draft (h : s.Sound) : s.draft.isEncodable = true := by
  rw [Text.isEncodable_iff]
  intro c hc
  rw [draft, Checklist.expression_eq_write_selected] at hc
  have hselection := Checklist.selection_selected h.checklist
  have hgraphic := Expression.isGraphic_of_mem_write hselection.named hc
  simp only [Expression.isGraphic, CodePoint.isSurrogate, CodePoint.isBetween, Bool.and_eq_true,
    Bool.and_eq_false_iff, decide_eq_true_eq, decide_eq_false_iff_not] at hgraphic ⊢
  omega

/-- Whatever was done in a session, committing its draft to a file that has a path is done whole,
with the draft as what the host has, or it is refused and the session is as it was. A commit that is
refused leaves the disk as it was too, unless the system takes only a part of the line, which the
file then holds. -/
theorem commit_draft_to_file {catalog : Catalog σ} {host : Text} {w : σ}
    (h : Opens catalog host (s, w)) (commands : List (Command σ)) (hp : Disk.checkPath p = .ok ())
    (d : Disk) :
    let t := (Command.after catalog commands (s, w)).1
    let after := Session.commit (sendToFile p) none (t, d)
    (after.result = .ok t.draft ∧ after.world.1 = { t with host := t.draft } ∧
        Disk.Takes p (t.draft ++ "\n") d after.world.2) ∨
      ((∃ why, after.result = .error (.uncommitted p.text why)) ∧ after.world.1 = t ∧
        (after.world.2 = d ∨ (d.hasRoom (lineBytes t.draft) = false ∧
          after.world.2.readBytes p = .ok (d.taken (lineBytes t.draft))))) := by
  intro t after
  have hsound : t.Sound := h.sound.after catalog commands w
  have hcommit := commit_apply (sendToFile p) none t d
  dsimp only [after]
  rw [hcommit]
  dsimp only [offer]
  by_cases hopen : d.CanOpen p
  · cases hroom : d.hasRoom (lineBytes t.draft) with
    | true =>
      rw [sendToFile_of_hasRoom hp hopen hsound.isEncodable_draft hroom]
      exact Or.inl ⟨rfl,rfl,takes_line hopen hsound.isEncodable_draft⟩
    | false =>
      rw [sendToFile_of_not_hasRoom hp hopen hsound.isEncodable_draft hroom]
      exact Or.inr ⟨⟨_,rfl⟩,rfl,Or.inr ⟨rfl,Disk.readBytes_put hopen _⟩⟩
  · obtain ⟨why,hrefused⟩ := Disk.openEmpty_of_not_canOpen hopen
    rw [sendToFile_of_unopenable hp hrefused]
    exact Or.inr ⟨⟨why,rfl⟩,rfl,Or.inl rfl⟩

end Draft

end Session

end CategorySelection
