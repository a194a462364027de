import CategorySelection.Proofs.Json.ReadsBack
import CategorySelection.Proofs.Text.Basic
import Mathlib.Data.List.Induction
import Mathlib.Data.List.TakeDrop
/-!
Numbers in decimal. The digits of a whole number stand for it, a numeral of such digits is read up
to its end, and what follows it tells whether it is a whole number or one with a point or an
exponent.
-/

namespace CategorySelection

theorem Binary64.sign_true : sign true = [CodePoint.ofChar '-'] := rfl

theorem Binary64.sign_false : sign false = [] := rfl

namespace Json

/-- One more digit makes ten times the value and the digit. -/
theorem digitsValue_append (digits : Text) (c : CodePoint) :
    digitsValue (digits ++ [c]) = 10 * digitsValue digits + (c.val-0x30) := by
  rw [digitsValue, List.foldl_append]
  rfl

theorem digitsValue_ofNat (n : Nat) : digitsValue (Text.ofNat n) = n := by
  induction n using Nat.strongRecOn with
  | _ n ih =>
    rcases Nat.lt_or_ge n 10 with h | h
    · rw [Text.ofNat_of_lt h, ← List.nil_append [_], digitsValue_append]
      simp only [digitsValue, List.foldl_nil, CodePoint.ofDigit]
      omega
    · rw [Text.ofNat_of_le h, digitsValue_append, ih (n / 10) (by omega)]
      simp only [CodePoint.ofDigit]
      omega

theorem digitsValue_lt {digits : Text} (h : ∀ c ∈ digits, c.isAsciiDigit = true) :
    digitsValue digits < 10^digits.length := by
  induction digits using List.reverseRecOn with
  | nil => exact Nat.one_pos
  | append_singleton digits c ih =>
    have hrest := ih fun d hd => h d (List.mem_append_left _ hd)
    have hc := h c List.mem_concat_self
    simp only [CodePoint.isAsciiDigit, CodePoint.isBetween, Bool.and_eq_true,
      decide_eq_true_eq] at hc
    rw [digitsValue_append, List.length_append, List.length_singleton, Nat.pow_succ]
    omega

def EndsDigits (t : Text) : Prop := ∀ c ∈ t.head?, c.isAsciiDigit = false

theorem EndsValue.endsDigits {t : Text} (h : EndsValue t) : EndsDigits t := fun c hc => (h c hc).1

theorem endsDigits_cons {c : CodePoint} (hc : c.isAsciiDigit = false) (t : Text) :
    EndsDigits (c :: t) := by
  intro d hd
  rwa [← Option.some_inj.mp hd]

/-- Digits are taken off the front of a text up to where they end. -/
theorem spanDigits_append {digits rest : Text} (hd : ∀ c ∈ digits, c.isAsciiDigit = true)
    (hr : EndsDigits rest) : spanDigits (digits ++ rest) = (digits,rest) := by
  have htail : rest.takeWhile CodePoint.isAsciiDigit = [] ∧
      rest.dropWhile CodePoint.isAsciiDigit = rest := by
    cases rest with
    | nil => exact ⟨rfl,rfl⟩
    | cons c rest =>
      have hc : ¬CodePoint.isAsciiDigit c = true := by
        rw [hr c rfl]
        exact Bool.false_ne_true
      exact ⟨List.takeWhile_cons_of_neg hc,List.dropWhile_cons_of_neg hc⟩
  rw [spanDigits, List.span_eq_takeWhile_dropWhile, List.takeWhile_append_of_pos hd,
    List.dropWhile_append_of_pos hd, htail.1, htail.2, List.append_nil]

/-- The digits before the point of a numeral: a zero alone, or digits that do not start with one. -/
structure IsWhole (digits : Text) : Prop where
  all : ∀ c ∈ digits, c.isAsciiDigit = true
  head : ∃ c rest, digits = c :: rest ∧ (c = CodePoint.ofChar '0' → rest = [])

theorem isWhole_ofNat (n : Nat) : IsWhole (Text.ofNat n) := by
  refine ⟨Text.isAsciiDigit_of_mem_ofNat n,?_⟩
  rcases Nat.eq_zero_or_pos n with rfl | hn
  · exact ⟨_,_,Text.ofNat_of_lt (by decide),fun _ => rfl⟩
  · obtain ⟨c,rest,hc,hne⟩ := Text.ofNat_eq_cons (by omega : n ≠ 0)
    exact ⟨c,rest,hc,fun h => absurd h hne⟩

theorem IsWhole.wholeDigits? {whole rest : Text} (h : IsWhole whole) (hr : EndsDigits rest) :
    wholeDigits? (whole ++ rest) = some (whole,rest) := by
  obtain ⟨c,digits,rfl,hzero⟩ := h.head
  rw [List.cons_append, Json.wholeDigits?]
  split_ifs with hc hdigit
  · obtain rfl := hzero hc
    rw [hc]
    rfl
  · rw [← List.cons_append, spanDigits_append h.all hr]
  · exact absurd (h.all c List.mem_cons_self) hdigit

/-- A numeral is read as the sign, the digits before the point, and what follows these tells. -/
theorem readNumber_append (negative : Bool) {whole rest : Text} (h : IsWhole whole)
    (hr : EndsDigits rest) :
    readNumber (Binary64.sign negative ++ (whole ++ rest)) =
      match (fractionDigits rest).1, exponent? (fractionDigits rest).2 with
      | [], none =>
        if maxDigits < whole.length then .error (.integerTooLong whole.length)
        else .ok (.int (if negative then -(digitsValue whole : Int) else digitsValue whole),
          (fractionDigits rest).2)
      | _, exponent =>
        let (e,tail) := exponent.getD (0,(fractionDigits rest).2)
        let digits := whole ++ (fractionDigits rest).1
        .ok (.float (Binary64.ofDecimal negative (digitsValue digits) digits.length
          (e-(fractionDigits rest).1.length)), tail) := by
  have hwhole := h.wholeDigits? hr
  obtain ⟨c,digits,rfl,_⟩ := h.head
  have hminus : c ≠ CodePoint.ofChar '-' := by
    rintro rfl
    exact absurd (h.all _ List.mem_cons_self) (by decide)
  cases negative with
  | true =>
    rw [Binary64.sign_true, List.singleton_append, readNumber]
    dsimp only
    rw [if_pos rfl]
    dsimp only
    rewrite [hwhole]
    rfl
  | false =>
    rw [Binary64.sign_false, List.nil_append, readNumber.eq_def, List.cons_append]
    dsimp only
    rw [if_neg hminus]
    dsimp only
    rewrite [← List.cons_append, hwhole]
    rfl

/-- Behind a whole number that ends there is neither a point nor an exponent. -/
theorem EndsValue.plain {t : Text} (h : EndsValue t) :
    fractionDigits t = ([],t) ∧ exponent? t = none := by
  cases t with
  | nil => exact ⟨rfl,rfl⟩
  | cons c rest =>
    obtain ⟨_,hpoint,he,hE⟩ := h c rfl
    constructor
    · cases rest with
      | nil => rfl
      | cons d rest => rw [fractionDigits, if_neg fun hc => hpoint hc.1]
    · rw [exponent?.eq_def]
      dsimp only
      rw [if_neg]
      rintro (hc | hc)
      · exact he hc
      · exact hE hc

theorem ofInt_eq (n : Int) :
    Text.ofInt n = Binary64.sign (decide (n < 0)) ++ Text.ofNat n.natAbs := by
  cases n with
  | ofNat n =>
    have hsign : decide (Int.ofNat n < 0) = false :=
      decide_eq_false (Int.not_lt.mpr (Int.natCast_nonneg n))
    rw [Text.ofInt, hsign]
    rfl
  | negSucc n =>
    rw [Text.ofInt, decide_eq_true (Int.negSucc_lt_zero n)]
    rfl

/-- A whole number with few enough digits is read as it was written. -/
theorem readNumber_ofInt {n : Int} (hn : (Text.ofNat n.natAbs).length ≤ maxDigits) {rest : Text}
    (hr : EndsValue rest) : readNumber (Text.ofInt n ++ rest) = .ok (.int n, rest) := by
  obtain ⟨hpoint,hexponent⟩ := hr.plain
  have hsigned : (if decide (n < 0) = true then -(n.natAbs : Int) else n.natAbs) = n := by
    split_ifs with h
    · rw [decide_eq_true_eq] at h
      omega
    · rw [decide_eq_true_eq] at h
      omega
  rw [ofInt_eq, List.append_assoc, readNumber_append _ (isWhole_ofNat _) hr.endsDigits, hpoint]
  dsimp only
  rw [hexponent]
  dsimp only
  rw [if_neg (by omega), digitsValue_ofNat, hsigned]

/-- No word starts with a digit, and none goes on with one behind a minus sign. -/
theorem head_of_mem_words : ∀ word ∈ words, ∃ b tail, word.1 = b :: tail ∧ b.isAsciiDigit = false ∧
    (b = CodePoint.ofChar '-' → ∃ d more, tail = d :: more ∧ d.isAsciiDigit = false) := by
  have hplain {b : CodePoint} {p : Prop} (h : b ≠ CodePoint.ofChar '-') :
      b = CodePoint.ofChar '-' → p :=
    fun he => absurd he h
  simp only [words, List.forall_mem_cons]
  exact ⟨⟨_,_,rfl,by decide,hplain (by decide)⟩,⟨_,_,rfl,by decide,hplain (by decide)⟩,
    ⟨_,_,rfl,by decide,hplain (by decide)⟩,⟨_,_,rfl,by decide,hplain (by decide)⟩,
    ⟨_,_,rfl,by decide,hplain (by decide)⟩,⟨_,_,rfl,by decide,fun _ => ⟨_,_,rfl,by decide⟩⟩,
    List.forall_mem_nil _⟩

/-- A text that starts with a digit, or with a minus sign and a digit, is read as a number; a word
starts with neither. -/
theorem readScalar_of_whole (negative : Bool) {whole : Text} (h : IsWhole whole) (rest : Text) :
    readScalar (Binary64.sign negative ++ (whole ++ rest)) =
      readNumber (Binary64.sign negative ++ (whole ++ rest)) := by
  obtain ⟨c,digits,rfl,_⟩ := h.head
  have hc := h.all c List.mem_cons_self
  have hnone : ∀ word ∈
      words, (Text.after? word.1 (Binary64.sign negative ++ (c :: digits ++ rest))).map
      (word.2,·) = none := by
    intro word hword
    rw [Option.map_eq_none_iff, Option.eq_none_iff_forall_ne_some]
    intro tail htail
    rw [Text.after?_eq_some_iff] at htail
    obtain ⟨b,more,hb,hdigit,hminus⟩ := head_of_mem_words word hword
    rw [hb] at htail
    cases negative with
    | true =>
      obtain ⟨hsign,htail⟩ := List.cons.inj htail
      obtain ⟨d,_,rfl,hd⟩ := hminus hsign.symm
      rw [← (List.cons.inj htail).1, hc] at hd
      cases hd
    | false =>
      rw [← (List.cons.inj htail).1, hc] at hdigit
      cases hdigit
  rw [readScalar, List.findSome?_eq_none_iff.mpr hnone]

def startsScalar (c : CodePoint) : Bool :=
  startsValue c && c ≠ CodePoint.ofChar '"' && c ≠ CodePoint.ofChar '[' &&
    c ≠ CodePoint.ofChar '\x7b'

/-- What is read as a word or number wherever a value may end is read as a value. -/
theorem readsAs_of_readScalar {t : Text} {value : Json}
    (hstart : ∃ c rest, t = c :: rest ∧ startsScalar c = true)
    (h : ∀ rest, EndsValue rest → readScalar (t ++ rest) = .ok (value,rest)) (depth : Nat) :
    ReadsAs t depth value := by
  obtain ⟨c,tail,rfl,hc⟩ := hstart
  simp only [startsScalar, Bool.and_eq_true, decide_eq_true_eq] at hc
  obtain ⟨⟨⟨hvalue,hquote⟩,hbracket⟩,hbrace⟩ := hc
  refine ⟨⟨c,tail,rfl,hvalue⟩,?_⟩
  intro fuel hfuel rest hrest
  rw [List.length_cons] at hfuel
  obtain ⟨fuel,rfl⟩ : ∃ n, fuel = n+1 := Nat.exists_eq_succ_of_ne_zero (by omega)
  rw [List.cons_append, readValue.eq_def]
  dsimp only
  rw [if_neg hquote, if_neg hbracket, if_neg hbrace]
  exact h rest hrest

theorem starts_whole (negative : Bool) {whole : Text} (h : IsWhole whole) (rest : Text) :
    ∃ c tail, Binary64.sign negative ++ (whole ++ rest) = c :: tail ∧ startsScalar c = true := by
  obtain ⟨c,digits,rfl,_⟩ := h.head
  cases negative with
  | true => exact ⟨_,_,rfl,by decide⟩
  | false =>
    have hc := h.all c List.mem_cons_self
    have hne (d : CodePoint) (hd : d.isAsciiDigit = false) : c ≠ d := by
      rintro rfl
      rw [hc] at hd
      cases hd
    have hspace : isSpace c = false := by
      simp only [isSpace, Bool.or_eq_false_iff, beq_eq_false_iff_ne]
      exact ⟨⟨⟨hne _ (by decide),hne _ (by decide)⟩,hne _ (by decide)⟩,hne _ (by decide)⟩
    refine ⟨c,_,rfl,?_⟩
    simp only [startsScalar, startsValue, hspace, Bool.not_false, Bool.true_and, Bool.and_eq_true,
      decide_eq_true_eq]
    exact ⟨⟨⟨⟨⟨hne _ (by decide),hne _ (by decide)⟩,hne _ (by decide)⟩,hne _ (by decide)⟩,
      hne _ (by decide)⟩,hne _ (by decide)⟩

/-- A whole number with few enough digits is read as it was written, wherever it stands. -/
theorem readsAs_ofInt {n : Int} (hn : (Text.ofNat n.natAbs).length ≤ maxDigits) (depth : Nat) :
    ReadsAs (Text.ofInt n) depth (.int n) := by
  have hwhole := isWhole_ofNat n.natAbs
  have hstart := starts_whole (decide (n < 0)) hwhole []
  rw [List.append_nil, ← ofInt_eq] at hstart
  apply readsAs_of_readScalar hstart
  intro rest hrest
  rw [← readNumber_ofInt hn hrest, ofInt_eq, List.append_assoc, readScalar_of_whole _ hwhole]

theorem readsAs_null (depth : Nat) : ReadsAs "null" depth .null :=
  readsAs_of_readScalar ⟨_,_,rfl,by decide⟩ (fun _ _ => rfl) depth

theorem readsAs_bool (b : Bool) (depth : Nat) :
    ReadsAs (if b then "true" else "false") depth (.bool b) := by
  cases b
  · exact readsAs_of_readScalar ⟨_,_,rfl,by decide⟩ (fun _ _ => rfl) depth
  · exact readsAs_of_readScalar ⟨_,_,rfl,by decide⟩ (fun _ _ => rfl) depth

end Json

end CategorySelection
