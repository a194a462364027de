import CategorySelection.Proofs.Json.Page
/-!
Texts that come through a file. A text without single surrogates can be written, and one without
carriage returns is read as it was written. The page form of a value and a saved array of texts are
such texts, since they escape the carriage returns.
-/

namespace CategorySelection

namespace Json

def isKept (c : CodePoint) : Bool := !c.isSurrogate && c ≠ (0x0d : CodePoint)

def IsKept (t : Text) : Prop := ∀ c ∈ t, isKept c = true

/-- A text that comes back from a file as it was has bytes. -/
theorem IsKept.isEncodable {t : Text} (h : IsKept t) : t.isEncodable = true := by
  rw [Text.isEncodable_iff]
  intro c hc
  have hkept := h c hc
  rw [isKept, Bool.and_eq_true, Bool.not_eq_true'] at hkept
  exact hkept.1

/-- A text that comes back from a file has no carriage return. -/
theorem IsKept.unifyLineEnds_eq_self {t : Text} (h : IsKept t) : t.unifyLineEnds = t := by
  apply Text.unifyLineEnds_eq_self
  intro c hc
  have hkept := h c hc
  rw [isKept, Bool.and_eq_true, decide_eq_true_eq] at hkept
  exact hkept.2

section Kept

variable {t u : Text}

theorem IsKept.append (ht : IsKept t) (hu : IsKept u) : IsKept (t ++ u) :=
  List.forall_mem_append.mpr ⟨ht,hu⟩

theorem IsKept.cons {c : CodePoint} (hc : isKept c = true) (ht : IsKept t) : IsKept (c :: t) :=
  List.forall_mem_cons.mpr ⟨hc,ht⟩

theorem isKept_nil : IsKept [] := List.forall_mem_nil _

theorem isKept_of_isBetween {c : CodePoint} (h : 0x20 ≤ c.val ∧ c.val ≤ 0x7e) :
    isKept c = true := by
  have hne : c ≠ (0x0d : CodePoint) := by
    rintro rfl
    exact absurd h.1 (by decide)
  simp only [isKept, CodePoint.isSurrogate, CodePoint.isBetween, Bool.and_eq_true,
    Bool.not_eq_true', Bool.and_eq_false_iff, decide_eq_false_iff_not, decide_eq_true_eq]
  exact ⟨Or.inl (by omega),hne⟩

theorem isKept_of_isAsciiDigit (h : ∀ c ∈ t, c.isAsciiDigit = true) : IsKept t := by
  intro c hc
  have hdigit := h c hc
  simp only [CodePoint.isAsciiDigit, CodePoint.isBetween, Bool.and_eq_true,
    decide_eq_true_eq] at hdigit
  exact isKept_of_isBetween (by omega)

theorem isKept_of_all (h : t.all isKept = true) : IsKept t := List.all_eq_true.mp h

theorem isKept_repeated (n : Nat) {c : CodePoint} (hc : isKept c = true) :
    IsKept (Text.repeated n c) := by
  intro d hd
  rwa [List.eq_of_mem_replicate hd]

theorem isKept_ofNat (n : Nat) : IsKept (Text.ofNat n) :=
  isKept_of_isAsciiDigit (Text.isAsciiDigit_of_mem_ofNat n)

theorem isKept_sign (negative : Bool) : IsKept (Binary64.sign negative) := by
  cases negative
  · exact isKept_nil
  · exact isKept_nil.cons rfl

theorem isKept_exponentText (p : Int) : IsKept (Binary64.exponentText p) := by
  have hdigits := isKept_of_isAsciiDigit (isAsciiDigit_of_mem_ofNatPadded 2 p.natAbs)
  obtain ⟨s,hs,htext⟩ := exponentText_eq p
  rw [htext]
  rcases hs with rfl | rfl
  · exact (hdigits.cons rfl).cons rfl
  · exact (hdigits.cons rfl).cons rfl

theorem isKept_pointed (ht : IsKept t) (whole : Int) : IsKept (Binary64.pointed t whole) := by
  have hpoint : IsKept (Text.ofString ".") := isKept_of_all rfl
  have hzeros (n : Nat) : IsKept (Text.repeated n '0') := isKept_repeated n rfl
  rw [Binary64.pointed]
  split_ifs
  · exact ((isKept_of_all rfl).append (hzeros _)).append ht
  · exact (ht.append (hzeros _)).append (isKept_of_all rfl)
  · have hfront : IsKept (t.take whole.natAbs) := fun c hc => ht c (List.mem_of_mem_take hc)
    have hback : IsKept (t.drop whole.natAbs) := fun c hc => ht c (List.mem_of_mem_drop hc)
    exact (hfront.append hpoint).append hback

theorem isKept_mantissa (ht : IsKept t) : IsKept (Binary64.mantissa t) := by
  have hpoint : IsKept (Text.ofString ".") := isKept_of_all rfl
  rw [Binary64.mantissa]
  split_ifs
  · exact ht
  · have hfront : IsKept (t.take 1) := fun c hc => ht c (List.mem_of_mem_take hc)
    have hback : IsKept (t.drop 1) := fun c hc => ht c (List.mem_of_mem_drop hc)
    exact (hfront.append hpoint).append hback

/-- The text of a number is made of digits and a few signs. -/
theorem isKept_writeFloat (x : Binary64) : IsKept (writeFloat x) := by
  cases x with
  | notANumber => exact isKept_of_all rfl
  | infinity negative => cases negative <;> exact isKept_of_all rfl
  | finite negative m e =>
    have hdigits := isKept_ofNat (Binary64.shortest m e).digits
    have hsign := isKept_sign negative
    rw [writeFloat, Binary64.text]
    · dsimp only
      split_ifs
      · exact hsign.append (isKept_of_all rfl)
      · exact hsign.append (isKept_pointed hdigits _)
      · exact (hsign.append (isKept_mantissa hdigits)).append (isKept_exponentText _)
    · intro h
      cases h
    · intro _ h
      cases h

theorem isKept_ofHexDigit (n : Nat) : isKept (CodePoint.ofHexDigit n) = true := by
  apply isKept_of_isBetween
  rw [CodePoint.ofHexDigit]
  dsimp only
  split_ifs <;> omega

theorem isKept_unitEscape (n : Nat) : IsKept (unitEscape n) := by
  rw [unitEscape_eq]
  exact isKept_nil.cons (isKept_ofHexDigit _) |>.cons (isKept_ofHexDigit _)
    |>.cons (isKept_ofHexDigit _) |>.cons (isKept_ofHexDigit _) |>.cons rfl |>.cons rfl

/-- A carriage return is escaped, and so is every other control, and in ASCII every surrogate. -/
theorem isKept_escape (ascii : Bool) {c : CodePoint} (hc : ascii = true ∨ c.isSurrogate = false) :
    IsKept (escape ascii c) := by
  cases hl : escapeLetter? c with
  | some letter =>
    rw [escape_of_letter ascii hl]
    rw [escapeLetter?] at hl
    refine IsKept.cons rfl (isKept_nil.cons ?_)
    split_ifs at hl with hquote <;> obtain rfl := Option.some_inj.mp hl
    · rcases hquote with rfl | rfl <;> rfl
    all_goals rfl
  | none =>
    rw [escape_of_no_letter ascii hl]
    split_ifs with hescaped
    · exact isKept_unitEscape _
    · exact (isKept_unitEscape _).append (isKept_unitEscape _)
    · have hne : c ≠ (0x0d : CodePoint) := by
        rintro rfl
        cases hl
      refine isKept_nil.cons ?_
      rcases hc with rfl | hc
      · exact isKept_of_isBetween (by simpa [Nat.succ_le_iff] using hescaped)
      · rw [isKept, hc, decide_eq_true hne]
        rfl

/-- A written string comes back from a file as it was, if it is kept to ASCII or has no single
surrogates. -/
theorem isKept_writeString (ascii : Bool) (ht : ascii = true ∨ t.isEncodable = true) :
    IsKept (writeString ascii t) := by
  have hwrite := writeString_append ascii t []
  rw [List.append_nil] at hwrite
  rw [hwrite]
  refine IsKept.cons rfl (IsKept.append ?_ (isKept_of_all rfl))
  intro c hc
  obtain ⟨d,hd,hc⟩ := List.mem_flatMap.mp hc
  exact isKept_escape ascii (ht.imp_right fun ht => (Text.isEncodable_iff t).mp ht d hd) c hc

theorem isKept_newLine (level : Nat) : IsKept (newLine level) := (isKept_repeated _ rfl).cons rfl

theorem Gaps.isKept_joined (gaps : Gaps) (hcomma : IsKept gaps.comma) {parts : List Text}
    (h : ∀ part ∈ parts, IsKept part) : IsKept (gaps.joined parts) := by
  induction parts with
  | nil => exact isKept_nil
  | cons part rest ih =>
    obtain ⟨hpart,hrest⟩ := List.forall_mem_cons.mp h
    cases rest with
    | nil => rwa [gaps.joined_singleton]
    | cons next tail =>
      rw [gaps.joined_cons_cons]
      exact hpart.append ((hcomma.append (ih hrest)).cons rfl)

end Kept

/-- The page form of a value that can be written comes back from a file as it was. -/
theorem isKept_pageAt {depth : Nat} {value : Json} (h : Writable depth value) (level : Nat) :
    IsKept (pageAt level value) := by
  induction h generalizing level with
  | @scalar depth value hv h =>
    rw [pageAt]
    cases value with
    | null => exact isKept_of_all rfl
    | bool b => cases b <;> exact isKept_of_all rfl
    | int n =>
      rw [chunksAt, List.flatten_singleton, ofInt_eq]
      exact (isKept_sign _).append (isKept_ofNat _)
    | float x =>
      rw [chunksAt, List.flatten_singleton]
      exact isKept_writeFloat x
    | string t =>
      rw [chunksAt, List.flatten_singleton]
      exact isKept_writeString false (Or.inr h.2)
    | array items => cases hv
    | object fields => cases hv
  | @array depth items _ ih =>
    cases items with
    | nil => exact isKept_of_all rfl
    | cons item rest =>
      rw [pageAt_array level (List.cons_ne_nil item rest)]
      have hitems := Gaps.isKept_joined (Gaps.page level) (isKept_newLine (level+1))
        (List.forall_mem_map.mpr fun other hother => ih other hother (level+1))
      exact ((isKept_newLine (level+1)).append (hitems.append ((isKept_newLine level).append
        (isKept_of_all rfl)))).cons rfl
  | @object depth fields _ hnames _ ih =>
    cases fields with
    | nil => exact isKept_of_all rfl
    | cons field rest =>
      rw [pageAt_object level (List.cons_ne_nil field rest)]
      have hcolon : IsKept (CodePoint.ofChar ':' :: (Gaps.page level).colon) := isKept_of_all rfl
      have hfields := Gaps.isKept_joined (Gaps.page level) (isKept_newLine (level+1))
        (List.forall_mem_map.mpr fun other hother =>
          ((isKept_writeString false (Or.inr (hnames other hother))).append hcolon).append
            (ih other hother (level+1)))
      exact ((isKept_newLine (level+1)).append (hfields.append ((isKept_newLine level).append
        (isKept_of_all rfl)))).cons rfl

/-- An array of texts, written on one line in ASCII, comes through a file as it is. -/
theorem isKept_writeLine_strings (ts : List Text) :
    IsKept (writeLine .spaced (.array (ts.map .string))) := by
  have hitems : IsKept (Gaps.spaced.joined (ts.map (writeString true))) :=
    Gaps.isKept_joined Gaps.spaced (isKept_of_all rfl)
      (List.forall_mem_map.mpr fun _ _ => isKept_writeString true (Or.inl rfl))
  rw [writeLine, writeLineItems_spaced, List.map_map]
  exact ((isKept_of_all rfl).append hitems).append (isKept_of_all rfl)

end Json

end CategorySelection
