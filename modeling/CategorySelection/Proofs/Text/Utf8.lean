import CategorySelection.Text.Utf8
import Mathlib.Data.List.Basic
/-!
Text in UTF-8. A text without single surrogates is read from its bytes again.
-/

namespace CategorySelection

def Text.isEncodable (t : Text) : Bool := t.all (!·.isSurrogate)

theorem Text.isEncodable_iff (t : Text) :
    t.isEncodable = true ↔ ∀ c ∈ t, c.isSurrogate = false := by
  simp only [isEncodable, List.all_eq_true, Bool.not_eq_true']

namespace Utf8

theorem toNat_ofNat {n : Nat} (h : n < 256) : (UInt8.ofNat n).toNat = n := by
  rw [UInt8.toNat_ofNat']
  exact Nat.mod_eq_of_lt h

theorem firstSurrogates_eq_none_iff (place : Nat) (t : Text) :
    firstSurrogates place t = none ↔ t.isEncodable = true := by
  induction t generalizing place with
  | nil => exact iff_of_true rfl rfl
  | cons c rest ih =>
    rw [firstSurrogates, Text.isEncodable, List.all_cons, Bool.and_eq_true, Bool.not_eq_true']
    cases hc : c.isSurrogate with
    | true => simp only [↓reduceIte, reduceCtorEq, Bool.true_eq_false, false_and]
    | false =>
      simp only [Bool.false_eq_true, ↓reduceIte, true_and]
      exact ih (place+1)

/-- A text without surrogates is encoded code point by code point. -/
theorem encode_eq {t : Text} (h : t.isEncodable = true) : encode t = .ok (t.flatMap bytesOf) := by
  rw [encode, (firstSurrogates_eq_none_iff 0 t).mpr h]

theorem isEncodable_of_encode {t : Text} {bytes : List UInt8} (h : encode t = .ok bytes) :
    t.isEncodable = true := by
  rw [encode] at h
  split at h
  · cases h
  · next hnone => exact (firstSurrogates_eq_none_iff 0 t).mp hnone

theorem encode_of_not_isEncodable {t : Text} (h : t.isEncodable = false) :
    ∃ why, encode t = .error why := by
  cases hencode : encode t with
  | error why => exact ⟨why,rfl⟩
  | ok bytes => exact absurd (isEncodable_of_encode hencode) (by rw [h]; exact Bool.false_ne_true)

theorem codePoint_val {c : CodePoint} {n : Nat} (h : n = c.val) : codePoint n = c := by
  apply Fin.ext
  rw [codePoint, h]
  exact Nat.mod_eq_of_lt c.isLt

section Lead

variable {a b c d : UInt8} (place : Nat) (rest : List UInt8)

theorem tailLength?_eq (a : UInt8) : tailLength? a =
    if a.toNat < 0x80 then some 0
    else if a.toNat < 0xc2 then none
    else if a.toNat < 0xe0 then some 1
    else if a.toNat < 0xf0 then some 2
    else if a.toNat < 0xf5 then some 3
    else none := by
  simp only [tailLength?, UInt8.lt_iff_toNat_lt]
  rfl

/-- The range of the second byte is narrower behind four of the first bytes. -/
theorem isSecond_iff (a b : UInt8) : isSecond a b = true ↔
    (if a.toNat = 0xe0 then 0xa0 else if a.toNat = 0xf0 then 0x90 else 0x80) ≤ b.toNat ∧
      b.toNat ≤ (if a.toNat = 0xed then 0x9f else if a.toNat = 0xf4 then 0x8f else 0xbf) := by
  have heq (k : UInt8) : a = k ↔ a.toNat = k.toNat := UInt8.toNat_inj.symm
  simp only [isSecond, Bool.and_eq_true, decide_eq_true_eq, UInt8.le_iff_toNat_le, heq]
  have h0 : (0xe0 : UInt8).toNat = 0xe0 := rfl
  have h1 : (0xf0 : UInt8).toNat = 0xf0 := rfl
  have h2 : (0xed : UInt8).toNat = 0xed := rfl
  have h3 : (0xf4 : UInt8).toNat = 0xf4 := rfl
  rw [h0, h1, h2, h3]
  split_ifs <;> rfl

theorem isTail_iff (b : UInt8) : isTail b = true ↔ 0x80 ≤ b.toNat ∧ b.toNat ≤ 0xbf := by
  simp only [isTail, Bool.and_eq_true, decide_eq_true_eq, UInt8.le_iff_toNat_le]
  rfl

theorem decodeFrom_one (ha : a.toNat < 0x80) : decodeFrom place (a :: rest) =
    (codePoint a.toNat :: ·) <$> decodeFrom (place+1) rest := by
  have hlength : tailLength? a = some 0 := by rw [tailLength?_eq, if_pos ha]
  rw [decodeFrom.eq_def]
  cases rest <;> simp only [hlength]

theorem decodeFrom_two (ha : 0xc2 ≤ a.toNat ∧ a.toNat < 0xe0) (hb : isSecond a b = true) :
    decodeFrom place (a :: b :: rest) =
      (codePoint (a.toNat % 32 * 64 + tailValue b) :: ·) <$> decodeFrom (place+2) rest := by
  have hlength : tailLength? a = some 1 := by
    rw [tailLength?_eq, if_neg (by omega), if_neg (by omega), if_pos ha.2]
  rw [decodeFrom.eq_def]
  simp only [hlength, hb, ↓reduceIte]

theorem decodeFrom_three (ha : 0xe0 ≤ a.toNat ∧ a.toNat < 0xf0) (hb : isSecond a b = true)
    (hc : isTail c = true) : decodeFrom place (a :: b :: c :: rest) =
      (codePoint (a.toNat % 16 * 4096 + tailValue b * 64 + tailValue c) :: ·) <$>
        decodeFrom (place+3) rest := by
  have hlength : tailLength? a = some 2 := by
    rw [tailLength?_eq, if_neg (by omega), if_neg (by omega), if_neg (by omega), if_pos ha.2]
  rw [decodeFrom.eq_def]
  simp only [hlength, hb, hc, ↓reduceIte]

theorem decodeFrom_four (ha : 0xf0 ≤ a.toNat ∧ a.toNat < 0xf5) (hb : isSecond a b = true)
    (hc : isTail c = true) (hd : isTail d = true) : decodeFrom place (a :: b :: c :: d :: rest) =
      (codePoint (a.toNat % 8 * 262144 + tailValue b * 4096 + tailValue c * 64 +
        tailValue d) :: ·) <$>
        decodeFrom (place+4) rest := by
  have hlength : tailLength? a = some 3 := by
    rw [tailLength?_eq, if_neg (by omega), if_neg (by omega), if_neg (by omega), if_neg (by omega),
      if_pos ha.2]
  rw [decodeFrom.eq_def]
  simp only [hlength, hb, hc, hd, ↓reduceIte]

end Lead

/-- A code point that is no surrogate is read from its bytes. The first byte tells how many follow,
and each of them brings six bits of the number. A surrogate would have a second byte past `0x9f`
behind `0xed`. -/
theorem decodeFrom_bytesOf {c : CodePoint} (hc : c.isSurrogate = false) (place : Nat)
    (rest : List UInt8) :
    decodeFrom place (bytesOf c ++ rest) =
      (c :: ·) <$> decodeFrom (place+(bytesOf c).length) rest := by
  have hlt := c.isLt
  simp only [CodePoint.isSurrogate, CodePoint.isBetween, Bool.and_eq_false_iff,
    decide_eq_false_iff_not]
    at hc
  have hbyte {k : Nat} (h : k < 256) : (UInt8.ofNat k).toNat = k := toNat_ofNat h
  rw [bytesOf]
  split_ifs with h1 h2 h3
  · rw [List.cons_append, decodeFrom_one _ _ (by rw [hbyte (by omega)]; omega), hbyte (by omega),
      codePoint_val rfl]
    rfl
  · have ha : (UInt8.ofNat (0xc0+c.val / 64)).toNat = 0xc0+c.val / 64 := hbyte (by omega)
    have hb : (UInt8.ofNat (0x80+c.val % 64)).toNat = 0x80+c.val % 64 := hbyte (by omega)
    have hsecond : isSecond (UInt8.ofNat (0xc0+c.val / 64)) (UInt8.ofNat (0x80+c.val % 64)) =
        true := by
      rw [isSecond_iff, ha, hb]
      split_ifs <;> omega
    have h := decodeFrom_two place rest (by rw [ha]; omega) hsecond
    rw [tailValue, ha, hb, codePoint_val (c := c) (by omega)] at h
    exact h
  · have ha : (UInt8.ofNat (0xe0+c.val / 4096)).toNat = 0xe0+c.val / 4096 := hbyte (by omega)
    have hb : (UInt8.ofNat (0x80+c.val / 64 % 64)).toNat = 0x80+c.val / 64 % 64 := hbyte (by omega)
    have hd : (UInt8.ofNat (0x80+c.val % 64)).toNat = 0x80+c.val % 64 := hbyte (by omega)
    have hsecond : isSecond (UInt8.ofNat (0xe0+c.val / 4096)) (UInt8.ofNat (0x80+c.val / 64 % 64)) =
        true := by
      rw [isSecond_iff, ha, hb]
      split_ifs <;> omega
    have htail : isTail (UInt8.ofNat (0x80+c.val % 64)) = true := by
      rw [isTail_iff, hd]
      omega
    have h := decodeFrom_three place rest (by rw [ha]; omega) hsecond htail
    rw [tailValue, tailValue, ha, hb, hd, codePoint_val (c := c) (by omega)] at h
    exact h
  · have ha : (UInt8.ofNat (0xf0+c.val / 262144)).toNat = 0xf0+c.val / 262144 := hbyte (by omega)
    have hb : (UInt8.ofNat (0x80+c.val / 4096 % 64)).toNat = 0x80+c.val / 4096 % 64 :=
      hbyte (by omega)
    have hd : (UInt8.ofNat (0x80+c.val / 64 % 64)).toNat = 0x80+c.val / 64 % 64 := hbyte (by omega)
    have he : (UInt8.ofNat (0x80+c.val % 64)).toNat = 0x80+c.val % 64 := hbyte (by omega)
    have hsecond : isSecond (UInt8.ofNat (0xf0+c.val / 262144))
        (UInt8.ofNat (0x80+c.val / 4096 % 64)) =
        true := by
      rw [isSecond_iff, ha, hb]
      split_ifs <;> omega
    have hthird : isTail (UInt8.ofNat (0x80+c.val / 64 % 64)) = true := by
      rw [isTail_iff, hd]
      omega
    have hfourth : isTail (UInt8.ofNat (0x80+c.val % 64)) = true := by
      rw [isTail_iff, he]
      omega
    have h := decodeFrom_four place rest (by rw [ha]; omega) hsecond hthird hfourth
    rw [tailValue, tailValue, tailValue, ha, hb, hd, he, codePoint_val (c := c) (by omega)] at h
    exact h

theorem decodeFrom_flatMap {t : Text} (h : t.isEncodable = true) (place : Nat) :
    decodeFrom place (t.flatMap bytesOf) = .ok t := by
  induction t generalizing place with
  | nil => rfl
  | cons c rest ih =>
    rw [Text.isEncodable, List.all_cons, Bool.and_eq_true, Bool.not_eq_true'] at h
    rw [List.flatMap_cons, decodeFrom_bytesOf h.1, ih h.2]
    rfl

/-- A text without single surrogates is read from its bytes. -/
theorem decode_flatMap {t : Text} (h : t.isEncodable = true) : decode (t.flatMap bytesOf) = .ok t :=
  decodeFrom_flatMap h 0

end Utf8

/-- A text without carriage returns has only line ends that are unified. -/
theorem Text.unifyLineEnds_eq_self {t : Text} (h : ∀ c ∈ t, c ≠ (0x0d : CodePoint)) :
    t.unifyLineEnds = t := by
  induction t with
  | nil => rfl
  | cons c rest ih =>
    obtain ⟨hc,hrest⟩ := List.forall_mem_cons.mp h
    rw [unifyLineEnds, if_neg hc, ih hrest]
    intro tail hcr
    exact absurd hcr hc

end CategorySelection
