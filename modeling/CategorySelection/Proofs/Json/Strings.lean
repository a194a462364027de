import CategorySelection.Json.Printer
import CategorySelection.Json.Reader
import Mathlib.Data.List.Basic
/-!
Strings of JSON text. A written string is read back as the parts that its code points were written
as. Where there are no single surrogates these parts make the same text again; two single surrogates
that meet may come back as one code point, which was not in the text.
-/

namespace CategorySelection.Json

def escape (ascii : Bool) (c : CodePoint) : Text :=
  if ascii then escapeAscii c else escapeControl c

theorem writeString_append (ascii : Bool) (t rest : Text) :
    writeString ascii t ++ rest =
      CodePoint.ofChar '"' :: (t.flatMap (escape ascii) ++ CodePoint.ofChar '"' :: rest) := by
  have h : writeString ascii t =
      CodePoint.ofChar '"' :: (t.flatMap (escape ascii) ++ [CodePoint.ofChar '"']) := by
    cases ascii <;> rfl
  rw [h, List.cons_append, List.append_assoc, List.singleton_append]

def bits (n : Nat) : Fin 0x10000 := ⟨n % 0x10000,Nat.mod_lt n (by decide)⟩

def partsOf (ascii : Bool) (c : CodePoint) : List StringPart :=
  if (escapeLetter? c).isNone ∧ (c.val ≤ 0x1f ∨ ascii ∧ 0x7e < c.val) then
    if c.val ≤ 0xffff then [.escaped (bits c.val)]
    else [.escaped (bits (0xd800 + (c.val - 0x10000) / 0x400)),
      .escaped (bits (0xdc00 + (c.val - 0x10000) % 0x400))]
  else [.plain c]

/-- A hexadecimal digit stands for the number that it was made of. -/
theorem hexDigit?_ofHexDigit (n : Nat) : (CodePoint.ofHexDigit n).hexDigit? = some (n % 16) := by
  have hsmall : ∀ k : Fin 16, (CodePoint.ofHexDigit k.val).hexDigit? = some k.val := by decide
  have hmod : CodePoint.ofHexDigit n = CodePoint.ofHexDigit (n % 16) := by
    simp only [CodePoint.ofHexDigit, Nat.mod_mod]
  rw [hmod]
  exact hsmall ⟨n % 16,Nat.mod_lt n (by decide)⟩

theorem unitEscape_eq (n : Nat) :
    unitEscape n = [CodePoint.ofChar '\\', CodePoint.ofChar 'u',
      CodePoint.ofHexDigit (n / 16 / 16 / 16), CodePoint.ofHexDigit (n / 16 / 16),
      CodePoint.ofHexDigit (n / 16), CodePoint.ofHexDigit n] := rfl

/-- Four hexadecimal digits stand for the number that they were made of. -/
theorem hexValue?_ofHexDigit (n : Nat) (h : n < 0x10000) :
    hexValue? (CodePoint.ofHexDigit (n / 16 / 16 / 16)) (CodePoint.ofHexDigit (n / 16 / 16))
      (CodePoint.ofHexDigit (n / 16)) (CodePoint.ofHexDigit n) = some (bits n) := by
  have hdigits : n / 16 / 16 / 16 % 16 * 4096 + n / 16 / 16 % 16 * 256 + n / 16 % 16 * 16 + n % 16 =
      n := by
    omega
  rw [hexValue?]
  simp only [hexDigit?_ofHexDigit, hdigits]
  rfl

section Read

variable {opened t rest : Text} {parts : List StringPart}

/-- A text that was read to the closing quote is not empty. -/
theorem ne_nil_of_readParts (h : readParts opened t = .ok (parts, rest)) : t ≠ [] := by
  rintro rfl
  cases h

theorem readParts_plain {c : CodePoint} (hq : c ≠ '"') (hb : c ≠ '\\') (hc : 0x1f < c.val)
    (h : readParts opened t = .ok (parts, rest)) :
    readParts opened (c :: t) = .ok (.plain c :: parts, rest) := by
  rw [readParts.eq_def]
  dsimp only
  rw [if_neg hq, if_neg hb, if_neg (by omega), h]
  rfl

theorem readParts_simple {letter c : CodePoint} (hl : simpleEscape? letter = some c)
    (h : readParts opened t = .ok (parts, rest)) :
    readParts opened (CodePoint.ofChar '\\' :: letter :: t) = .ok (.plain c :: parts, rest) := by
  have hu : letter ≠ CodePoint.ofChar 'u' := by
    rintro rfl
    cases hl
  rw [readParts.eq_def]
  dsimp only
  rw [if_neg (by decide), if_pos rfl, if_neg hu, hl]
  dsimp only
  rw [h]
  rfl

/-- An escape with four digits stands for their number. It is read only with a code point behind it,
which is at least the closing quote. -/
theorem readParts_unitEscape {n : Nat} (hn : n < 0x10000)
    (h : readParts opened t = .ok (parts, rest)) :
    readParts opened (unitEscape n ++ t) = .ok (.escaped (bits n) :: parts, rest) := by
  obtain ⟨next,after,rfl⟩ := List.exists_cons_of_ne_nil (ne_nil_of_readParts h)
  rw [unitEscape_eq]
  simp only [List.cons_append, List.nil_append]
  rw [readParts, if_neg (by decide), if_pos rfl, if_pos rfl, hexValue?_ofHexDigit n hn]
  dsimp only
  rw [h]
  rfl

/-- The letter of an escape stands for the code point that has it. -/
theorem simpleEscape?_of_escapeLetter? {c letter : CodePoint} (h : escapeLetter? c = some letter) :
    simpleEscape? letter = some c := by
  rw [escapeLetter?] at h
  split_ifs at h with hq h8 hc ha hd h9 <;> obtain rfl := Option.some_inj.mp h
  · rw [simpleEscape?, if_pos]
    exact hq.imp_right Or.inl
  all_goals subst_vars; decide

/-- A code point without such a letter is neither a quote nor a backslash. -/
theorem ne_of_escapeLetter?_eq_none {c : CodePoint} (h : escapeLetter? c = none) :
    c ≠ CodePoint.ofChar '"' ∧ c ≠ CodePoint.ofChar '\\' := by
  constructor <;> rintro rfl <;> cases h

theorem escape_of_letter (ascii : Bool) {c letter : CodePoint} (h : escapeLetter? c = some letter) :
    escape ascii c = [CodePoint.ofChar '\\', letter] := by
  cases ascii <;> simp only [escape, escapeAscii, escapeControl, h, Bool.false_eq_true, ↓reduceIte]

/-- A code point without a letter of its own is spelled in hexadecimal digits if it is a control or,
in ASCII, beyond it; above sixteen bits it takes two such escapes. -/
theorem escape_of_no_letter (ascii : Bool) {c : CodePoint} (h : escapeLetter? c = none) :
    escape ascii c = if c.val ≤ 0x1f ∨ ascii ∧ 0x7e < c.val then
        if c.val ≤ 0xffff then unitEscape c.val
        else unitEscape (0xd800 + (c.val - 0x10000) / 0x400) ++
          unitEscape (0xdc00 + (c.val - 0x10000) % 0x400)
      else [c] := by
  cases ascii
  · simp only [escape, escapeControl, h, Bool.false_eq_true, ↓reduceIte, false_and, or_false]
    split_ifs
    · rfl
    · omega
    · rfl
  · simp only [escape, escapeAscii, h, ↓reduceIte, true_and, CodePoint.isBetween, Bool.and_eq_true,
      decide_eq_true_eq]
    split_ifs <;> first | rfl | omega

/-- The escape of a code point is read as the parts that it has. -/
theorem readParts_escape (ascii : Bool) (c : CodePoint)
    (h : readParts opened t = .ok (parts, rest)) :
    readParts opened (escape ascii c ++ t) = .ok (partsOf ascii c ++ parts, rest) := by
  cases hl : escapeLetter? c with
  | some letter =>
    rw [escape_of_letter ascii hl, partsOf, if_neg (by simp [hl])]
    exact readParts_simple (simpleEscape?_of_escapeLetter? hl) h
  | none =>
    obtain ⟨hq,hb⟩ := ne_of_escapeLetter?_eq_none hl
    rw [escape_of_no_letter ascii hl, partsOf]
    simp only [hl, Option.isNone_none, true_and]
    have hc := c.isLt
    split_ifs with hout hsmall
    · exact readParts_unitEscape (by omega) h
    · rw [List.append_assoc]
      exact readParts_unitEscape (by omega) (readParts_unitEscape (by omega) h)
    · exact readParts_plain hq hb (by omega) h

theorem readParts_flatMap (ascii : Bool) (opened s rest : Text) :
    readParts opened (s.flatMap (escape ascii) ++ CodePoint.ofChar '"' :: rest) =
      .ok (s.flatMap (partsOf ascii), rest) := by
  induction s with
  | nil => rw [List.flatMap_nil, List.nil_append, readParts.eq_def]; rfl
  | cons c s ih =>
    rw [List.flatMap_cons, List.append_assoc, List.flatMap_cons]
    exact readParts_escape ascii c ih

/-- A written string is read back as the parts it was written as. -/
theorem readString_write (ascii : Bool) (opened s rest : Text) :
    readString opened (s.flatMap (escape ascii) ++ CodePoint.ofChar '"' :: rest) =
      .ok (joinParts (s.flatMap (partsOf ascii)), rest) := by
  rw [readString, readParts_flatMap]
  rfl

end Read

section Join

theorem joinParts_escaped (n : Fin 0x10000) (hn : isHighHalf n = false) (parts : List StringPart) :
    joinParts (.escaped n :: parts) = unit n :: joinParts parts := by
  match parts with
  | [] => rfl
  | .plain c :: rest => rfl
  | .escaped m :: rest =>
    rw [joinParts, hn, Bool.false_and, if_neg Bool.false_ne_true]

/-- The two halves of a pair are joined to the code point that they were made of. -/
theorem joinParts_pair (c : CodePoint) (hc : 0xffff < c.val) (parts : List StringPart) :
    joinParts (.escaped (bits (0xd800 + (c.val - 0x10000) / 0x400)) ::
      .escaped (bits (0xdc00 + (c.val - 0x10000) % 0x400)) :: parts) = c :: joinParts parts := by
  have hlt := c.isLt
  have hhigh : (bits (0xd800 + (c.val - 0x10000) / 0x400)).val =
      0xd800 + (c.val - 0x10000) / 0x400 :=
    Nat.mod_eq_of_lt (by omega)
  have hlow : (bits (0xdc00 + (c.val - 0x10000) % 0x400)).val =
      0xdc00 + (c.val - 0x10000) % 0x400 :=
    Nat.mod_eq_of_lt (by omega)
  have hhalves : (isHighHalf (bits (0xd800 + (c.val - 0x10000) / 0x400)) &&
      isLowHalf (bits (0xdc00 + (c.val - 0x10000) % 0x400))) = true := by
    simp only [isHighHalf, isLowHalf, hhigh, hlow, Bool.and_eq_true, decide_eq_true_eq]
    omega
  rw [joinParts, if_pos hhalves]
  refine congrArg (· :: joinParts parts) (Fin.ext ?_)
  simp only [joinHalves, hhigh, hlow]
  omega

/-- Where there are no single surrogates, the parts of a written string make the same text again.
Only a high half could be joined to what follows it. -/
theorem joinParts_flatMap (ascii : Bool) (s : Text) (hs : ∀ c ∈ s, c.isSurrogate = false) :
    joinParts (s.flatMap (partsOf ascii)) = s := by
  induction s with
  | nil => rfl
  | cons c s ih =>
    obtain ⟨hc,hrest⟩ := List.forall_mem_cons.mp hs
    rw [List.flatMap_cons, partsOf]
    split_ifs with hout hsmall
    · have hval : (bits c.val).val = c.val := Nat.mod_eq_of_lt (by omega)
      have hhigh : isHighHalf (bits c.val) = false := by
        simp only [CodePoint.isSurrogate, CodePoint.isBetween, Bool.and_eq_false_iff,
          decide_eq_false_iff_not] at hc
        simp only [isHighHalf, hval, Bool.and_eq_false_iff, decide_eq_false_iff_not]
        omega
      rw [List.singleton_append, joinParts_escaped _ hhigh, ih hrest]
      exact congrArg (· :: s) (Fin.ext hval)
    · rw [List.cons_append, List.singleton_append, joinParts_pair c (by omega), ih hrest]
    · rw [List.singleton_append, joinParts, ih hrest]

def rejoined (ascii : Bool) (t : Text) : Text := joinParts (t.flatMap (partsOf ascii))

def StringPart.alone : StringPart → CodePoint
  | .plain c => c
  | .escaped n => unit n

/-- Joining makes code points above those of sixteen bits, so where there are none nothing was
joined. -/
theorem joinParts_of_le {parts : List StringPart} (h : ∀ c ∈ joinParts parts, c.val ≤ 0xffff) :
    joinParts parts = parts.map StringPart.alone := by
  induction parts using joinParts.induct with
  | case1 => rfl
  | case2 c rest ih =>
    rw [joinParts, List.forall_mem_cons] at h
    rw [joinParts, ih h.2]
    rfl
  | case3 n m rest hhalves ih =>
    rw [joinParts, if_pos hhalves, List.forall_mem_cons] at h
    have hjoined : (joinHalves n m).val = 0x10000 + n.val % 0x400 * 0x400 + m.val % 0x400 := rfl
    omega
  | case4 n m rest hhalves ih =>
    rw [joinParts, if_neg hhalves, List.forall_mem_cons] at h
    rw [joinParts, if_neg hhalves, ih h.2]
    rfl
  | case5 n rest hrest ih =>
    rw [joinParts, List.forall_mem_cons] at h
    · rw [joinParts, ih h.2]
      · rfl
      · exact hrest
    · exact hrest

/-- A text that comes back with neither surrogates nor code points beyond sixteen bits came back as
it was. The two halves of a pair would have come back as surrogates. -/
theorem rejoined_eq_self {ascii : Bool} {t : Text}
    (h : ∀ c ∈ rejoined ascii t, c.isSurrogate = false ∧ c.val ≤ 0xffff) :
    rejoined ascii t = t := by
  have halone : rejoined ascii t = t.flatMap fun c => (partsOf ascii c).map StringPart.alone := by
    rw [rejoined, joinParts_of_le fun c hc => (h c hc).2, List.map_flatMap]
  have hsame (c : CodePoint) (hc : c ∈ t) : (partsOf ascii c).map StringPart.alone = [c] := by
    have hparts (d : CodePoint) (hd : d ∈ (partsOf ascii c).map StringPart.alone) :
        d.isSurrogate = false := by
      rw [halone] at h
      exact (h d (List.mem_flatMap.mpr ⟨c,hc,hd⟩)).1
    rw [partsOf] at hparts ⊢
    split_ifs at hparts ⊢ with hout hsmall
    · have hval : (bits c.val).val = c.val := Nat.mod_eq_of_lt (by omega)
      exact congrArg (fun d => [d]) (Fin.ext hval)
    · have hhigh := hparts _ (List.mem_map.mpr ⟨_,List.mem_cons_self,rfl⟩)
      have hlt := c.isLt
      have hval : (bits (0xd800 + (c.val - 0x10000) / 0x400)).val =
          0xd800 + (c.val - 0x10000) / 0x400 :=
        Nat.mod_eq_of_lt (by omega)
      simp only [StringPart.alone, unit, CodePoint.isSurrogate, CodePoint.isBetween, hval,
        Bool.and_eq_false_iff, decide_eq_false_iff_not] at hhigh
      omega
    · rfl
  calc rejoined ascii t
      = t.flatMap fun c => (partsOf ascii c).map StringPart.alone := halone
    _ = t.flatMap fun c => [c] := List.flatMap_congr hsame
    _ = t := List.flatMap_singleton' t

end Join

end CategorySelection.Json
