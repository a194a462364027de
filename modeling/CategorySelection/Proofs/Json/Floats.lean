import CategorySelection.Proofs.Json.Numbers
/-!
Floating-point numbers in JSON text. Every written number is read as a floating-point number again;
in which way it is written out makes no difference for that.
-/

namespace CategorySelection

namespace Json

variable {whole fraction rest : Text}

theorem endsDigits_point (t : Text) :
    EndsDigits (CodePoint.ofChar '.' :: t) := endsDigits_cons (by decide) t

/-- The digits behind a point are read up to where they end. -/
theorem fractionDigits_point (hd : ∀ c ∈ fraction, c.isAsciiDigit = true) (hne : fraction ≠ [])
    (hr : EndsDigits rest) :
    fractionDigits (CodePoint.ofChar '.' :: (fraction ++ rest)) = (fraction,rest) := by
  have hspan := spanDigits_append hd hr
  obtain ⟨d,tail,rfl⟩ := List.exists_cons_of_ne_nil hne
  rw [List.cons_append] at hspan ⊢
  rw [fractionDigits, if_pos ⟨rfl,hd d List.mem_cons_self⟩, hspan]

/-- A numeral with a point is read as a floating-point number, the same one whatever follows. -/
theorem readNumber_point (negative : Bool) (h : IsWhole whole)
    (hd : ∀ c ∈ fraction, c.isAsciiDigit = true) (hne : fraction ≠ []) :
    ∃ x, ∀ rest, EndsValue rest → readNumber (Binary64.sign negative ++
      (whole ++ (CodePoint.ofChar '.' :: (fraction ++ rest)))) = .ok (.float x, rest) := by
  refine ⟨Binary64.ofDecimal negative (digitsValue (whole ++ fraction)) (whole ++ fraction).length
    (0-fraction.length),?_⟩
  intro rest hr
  rw [readNumber_append negative h (endsDigits_point _), fractionDigits_point hd hne hr.endsDigits]
  obtain ⟨d,tail,rfl⟩ := List.exists_cons_of_ne_nil hne
  dsimp only
  rw [hr.plain.2]
  rfl

theorem isAsciiDigit_of_mem_ofNatPadded (width n : Nat) :
    ∀ c ∈ Text.ofNatPadded width n, c.isAsciiDigit = true := by
  intro c hc
  rw [Text.ofNatPadded, Text.padLeft, Text.repeated, List.mem_append] at hc
  rcases hc with hc | hc
  · rw [List.eq_of_mem_replicate hc]
    rfl
  · exact Text.isAsciiDigit_of_mem_ofNat n c hc

theorem ofNatPadded_ne_nil (width n : Nat) : Text.ofNatPadded width n ≠ [] := by
  have hpos := Text.length_ofNat_pos n
  rw [Text.ofNatPadded, Text.padLeft]
  intro h
  rw [(List.append_eq_nil_iff.mp h).2] at hpos
  exact absurd hpos (Nat.lt_irrefl 0)

theorem exponentText_eq (p : Int) : ∃ s, (s = CodePoint.ofChar '-' ∨ s = CodePoint.ofChar '+') ∧
    Binary64.exponentText p = CodePoint.ofChar 'e' :: s :: Text.ofNatPadded 2 p.natAbs := by
  rw [Binary64.exponentText]
  split_ifs
  · exact ⟨_,Or.inl rfl,rfl⟩
  · exact ⟨_,Or.inr rfl,rfl⟩

theorem exponent?_exponentText (p : Int) :
    ∃ e, ∀ rest, EndsDigits rest → exponent? (Binary64.exponentText p ++ rest) = some (e,rest) := by
  obtain ⟨d,digits,hdigits⟩ := List.exists_cons_of_ne_nil (ofNatPadded_ne_nil 2 p.natAbs)
  obtain ⟨s,hs,htext⟩ := exponentText_eq p
  have hplus : CodePoint.ofChar '+' ≠ CodePoint.ofChar '-' := by decide
  have hspan (rest : Text) (hr : EndsDigits rest) :=
    spanDigits_append (isAsciiDigit_of_mem_ofNatPadded 2 p.natAbs) hr
  rw [htext, hdigits] at *
  rcases hs with rfl | rfl
  · apply Exists.intro
    intro rest hr
    rw [List.cons_append, List.cons_append, exponent?.eq_def]
    simp only [true_or, ↓reduceIte, hspan rest hr]
    rfl
  · apply Exists.intro
    intro rest hr
    rw [List.cons_append, List.cons_append, exponent?.eq_def]
    simp only [true_or, if_neg hplus, ↓reduceIte, hspan rest hr]
    rfl

theorem endsDigits_exponentText (p : Int) (t : Text) :
    EndsDigits (Binary64.exponentText p ++ t) := by
  obtain ⟨s,_,htext⟩ := exponentText_eq p
  rw [htext]
  exact endsDigits_cons (by decide) _

/-- A whole number with an exponent is read as a floating-point number. -/
theorem readNumber_exponent (negative : Bool) (h : IsWhole whole) (p : Int) :
    ∃ x, ∀ rest, EndsValue rest → readNumber (Binary64.sign negative ++
      (whole ++ (Binary64.exponentText p ++ rest))) = .ok (.float x, rest) := by
  obtain ⟨e,he⟩ := exponent?_exponentText p
  refine ⟨Binary64.ofDecimal negative (digitsValue (whole ++ [])) (whole ++ []).length
    (e-([] : Text).length),?_⟩
  intro rest hr
  have hpoint : fractionDigits (Binary64.exponentText p ++ rest) =
      ([],Binary64.exponentText p ++ rest) := by
    obtain ⟨s,_,htext⟩ := exponentText_eq p
    rw [htext]
    rfl
  rw [readNumber_append negative h (endsDigits_exponentText p rest), hpoint]
  dsimp only
  rw [he rest hr.endsDigits]
  rfl

/-- A number with a point and an exponent is read as a floating-point number. -/
theorem readNumber_point_exponent (negative : Bool) (h : IsWhole whole)
    (hd : ∀ c ∈ fraction, c.isAsciiDigit = true) (hne : fraction ≠ []) (p : Int) :
    ∃ x, ∀ rest, EndsValue rest →
      readNumber (Binary64.sign negative ++ (whole ++ (CodePoint.ofChar '.' ::
      (fraction ++ (Binary64.exponentText p ++ rest))))) = .ok (.float x, rest) := by
  obtain ⟨e,he⟩ := exponent?_exponentText p
  refine ⟨Binary64.ofDecimal negative (digitsValue (whole ++ fraction)) (whole ++ fraction).length
    (e-fraction.length),?_⟩
  intro rest hr
  rw [readNumber_append negative h (endsDigits_point _),
    fractionDigits_point hd hne (endsDigits_exponentText p rest)]
  obtain ⟨d,tail,rfl⟩ := List.exists_cons_of_ne_nil hne
  dsimp only
  rw [he rest hr.endsDigits]
  rfl

end Json

namespace Binary64

theorem twoTo_pos (n : Nat) : 0 < twoTo n := Nat.pow_pos (by decide)

theorem tenTo_pos (n : Nat) : 0 < tenTo n := Nat.pow_pos (by decide)

theorem scaleDecimal_pos {num den : Nat} (h : 0 < num) (p : Int) :
    0 < (scaleDecimal num den p).1 := by
  rw [scaleDecimal]
  split_ifs
  · exact Nat.mul_pos h (tenTo_pos _)
  · exact h

theorem quotient_pos {m : Nat} (h : 0 < m) (e : Int) : 0 < (quotient m e).1 := by
  rw [quotient]
  split_ifs
  · exact h
  · exact Nat.mul_pos h (twoTo_pos _)

/-- Of two candidates that are tried neither is zero, if zero does not pass the test. -/
theorem digits_ne_zero_of_reads (reads : Nat → Bool) (hzero : reads 0 = false)
    {nearer farther : Nat} {step : Int} {d : Digits}
    (h : (if reads nearer then some ⟨nearer,step⟩
      else if reads farther then some ⟨farther,step⟩ else none) = some d) : d.digits ≠ 0 := by
  have hne (k : Nat) (hk : reads k = true) : k ≠ 0 := by
    rintro rfl
    rw [hzero] at hk
    cases hk
  split_ifs at h with hnearer hfarther
  · rw [← Option.some_inj.mp h]
    exact hne nearer hnearer
  · rw [← Option.some_inj.mp h]
    exact hne farther hfarther

/-- A number that is not zero has no decimal digits that stand for zero: what reads back as the
number is at least as large as the number that `low` counts. -/
theorem digitsOfLength?_ne_zero {m : Nat} (hm : m ≠ 0) {e p : Int} {count : Nat} {d : Digits}
    (h : digitsOfLength? m e p count = some d) : d.digits ≠ 0 := by
  have hone : 0 < (quotient 1 (e-2)).1 := quotient_pos (by decide) (e-2)
  rcases hq : quotient 1 (e-2) with ⟨num₀,den₀⟩
  rw [hq] at hone
  have hnum : 0 < (scaleDecimal num₀ den₀ (p+1-count)).1 := scaleDecimal_pos hone _
  rcases hs : scaleDecimal num₀ den₀ (p+1-count) with ⟨num,den⟩
  rw [hs] at hnum
  let low := if m = twoTo 52 ∧ -1074 < e then 4 * m-1 else 4 * m-2
  have hlow : 0 < low * num := by
    apply Nat.mul_pos _ hnum
    dsimp only [low]
    split_ifs <;> omega
  let reads (d : Nat) : Bool :=
    if m % 2 = 0 then low * num ≤ d * den && d * den ≤ (4 * m+2) * num
    else low * num < d * den && d * den < (4 * m+2) * num
  have hzero : reads 0 = false := by
    dsimp only [reads]
    rw [Nat.zero_mul, decide_eq_false (Nat.not_le.mpr hlow), decide_eq_false (Nat.not_lt_zero _),
      Bool.false_and, Bool.false_and, ite_self]
  simp only [digitsOfLength?, hq, hs] at h
  exact digits_ne_zero_of_reads reads hzero h

theorem withoutZeros_ne_zero (steps : Nat) (d : Digits) (h : d.digits ≠ 0) :
    (d.withoutZeros steps).digits ≠ 0 := by
  induction steps generalizing d with
  | zero => exact h
  | succ steps ih =>
    rw [Digits.withoutZeros]
    split_ifs with hzero
    · exact ih _ (by dsimp only; omega)
    · exact h

/-- The shortest digits of a number that is not zero do not stand for zero. -/
theorem shortest_ne_zero {m : Nat} (hm : m ≠ 0) (e : Int) : (shortest m e).digits ≠ 0 := by
  unfold shortest
  dsimp only
  generalize decimalExponent (quotient m e).1 (quotient m e).2 = p
  split
  · next d hd =>
    rw [List.findSome?_eq_some_iff] at hd
    obtain ⟨_,k,_,_,hk,_⟩ := hd
    exact withoutZeros_ne_zero 20 d (digitsOfLength?_ne_zero hm hk)
  · exact hm

end Binary64

namespace Json

section Written

variable {digits : Text}

theorem isWhole_zero : IsWhole [CodePoint.ofChar '0'] :=
  ⟨List.forall_mem_singleton.mpr rfl,_,_,rfl,fun _ => rfl⟩

structure IsSignificant (digits : Text) : Prop where
  all : ∀ c ∈ digits, c.isAsciiDigit = true
  head : ∃ c rest, digits = c :: rest ∧ c ≠ CodePoint.ofChar '0'

theorem isSignificant_ofNat {n : Nat} (hn : n ≠ 0) : IsSignificant (Text.ofNat n) :=
  ⟨Text.isAsciiDigit_of_mem_ofNat n,Text.ofNat_eq_cons hn⟩

/-- Their front is the whole part of a numeral, also with more digits behind it. -/
theorem IsSignificant.isWhole (h : IsSignificant digits) {k : Nat} (hk : k ≠ 0) {more : Text}
    (hmore : ∀ c ∈ more, c.isAsciiDigit = true) : IsWhole (digits.take k ++ more) := by
  obtain ⟨c,rest,hc,hne⟩ := h.head
  obtain ⟨k,rfl⟩ := Nat.exists_eq_succ_of_ne_zero hk
  constructor
  · intro d hd
    rcases List.mem_append.mp hd with hd | hd
    · exact h.all d (List.mem_of_mem_take hd)
    · exact hmore d hd
  · exact ⟨c,_,by rw [hc]; rfl,fun hzero => absurd hzero hne⟩

theorem isAsciiDigit_of_mem_repeated (n : Nat) :
    ∀ c ∈ Text.repeated n '0', c.isAsciiDigit = true := by
  intro c hc
  rw [List.eq_of_mem_replicate hc]
  rfl

/-- Wherever the point is put between digits, there are a whole part before it and digits behind
it. -/
theorem pointed_eq (h : IsSignificant digits) (whole : Int) :
    ∃ front back, Binary64.pointed digits whole = front ++ CodePoint.ofChar '.' :: back ∧
      IsWhole front ∧ (∀ c ∈ back, c.isAsciiDigit = true) ∧ back ≠ [] := by
  rw [Binary64.pointed]
  split_ifs with hsmall hlong
  · refine ⟨[CodePoint.ofChar '0'],Text.repeated whole.natAbs '0' ++ digits,rfl,?_,?_,?_⟩
    · exact isWhole_zero
    · intro c hc
      rcases List.mem_append.mp hc with hc | hc
      · exact isAsciiDigit_of_mem_repeated _ c hc
      · exact h.all c hc
    · obtain ⟨c,rest,rfl,_⟩ := h.head
      exact List.append_ne_nil_of_right_ne_nil _ (List.cons_ne_nil c rest)
  · have hfront := h.isWhole (by omega : whole.natAbs ≠ 0)
      (isAsciiDigit_of_mem_repeated (whole.natAbs-digits.length))
    rw [List.take_of_length_le hlong] at hfront
    exact ⟨_,[CodePoint.ofChar '0'],rfl,hfront,List.forall_mem_singleton.mpr rfl,
      List.cons_ne_nil _ _⟩
  · have hfront := h.isWhole (by omega : whole.natAbs ≠ 0) (List.forall_mem_nil _)
    rw [List.append_nil] at hfront
    refine ⟨_,digits.drop whole.natAbs,List.append_assoc _ _ _,hfront,?_,?_⟩
    · exact fun c hc => h.all c (List.mem_of_mem_drop hc)
    · rw [ne_eq, List.drop_eq_nil_iff]
      omega

/-- The plain form of a number is a numeral with a point or with an exponent. With an exponent one
digit stands before the point, and there is no point if it is the only one. -/
theorem readNumber_text (s : Bool) (m : Nat) (e : Int) :
    ∃ front back x, (Binary64.finite s m e).text = Binary64.sign s ++ (front ++ back) ∧
      IsWhole front ∧
      ∀ rest, EndsValue rest →
        readNumber (Binary64.sign s ++ (front ++ (back ++ rest))) = .ok (.float x, rest) := by
  rw [Binary64.text]
  by_cases hm : m = 0
  · rw [if_pos hm]
    obtain ⟨x,hx⟩ := readNumber_point s isWhole_zero (List.forall_mem_singleton.mpr rfl)
      (List.cons_ne_nil (CodePoint.ofChar '0') [])
    exact ⟨_,_,x,rfl,isWhole_zero,hx⟩
  rw [if_neg hm]
  have hdigits := isSignificant_ofNat (Binary64.shortest_ne_zero hm e)
  have hpos := Text.length_ofNat_pos (Binary64.shortest m e).digits
  dsimp only
  generalize (Binary64.shortest m e).exponent = p at *
  generalize Text.ofNat (Binary64.shortest m e).digits = digits at *
  split_ifs
  · obtain ⟨front,back,htext,hfront,hback,hne⟩ := pointed_eq hdigits (p+digits.length-1+1)
    obtain ⟨x,hx⟩ := readNumber_point s hfront hback hne
    exact ⟨front,CodePoint.ofChar '.' :: back,x,by rw [htext],hfront,hx⟩
  · have hfront := hdigits.isWhole Nat.one_ne_zero (List.forall_mem_nil _)
    rw [List.append_nil] at hfront
    rw [Binary64.mantissa]
    split_ifs with hlength
    · rw [List.take_of_length_le (by omega)] at hfront
      obtain ⟨x,hx⟩ := readNumber_exponent s hfront (p+digits.length-1)
      exact ⟨_,_,x,List.append_assoc _ _ _,hfront,hx⟩
    · let exponent := Binary64.exponentText (p+digits.length-1)
      have hne : digits.drop 1 ≠ [] := by
        rw [ne_eq, List.drop_eq_nil_iff]
        omega
      obtain ⟨x,hx⟩ := readNumber_point_exponent s hfront
        (fun c hc => hdigits.all c (List.mem_of_mem_drop hc)) hne (p+digits.length-1)
      refine ⟨_,CodePoint.ofChar '.' :: (digits.drop 1 ++ exponent),x,?_,hfront,?_⟩
      · rw [List.append_assoc, List.append_assoc, List.append_assoc]
        rfl
      · intro rest hrest
        rw [List.cons_append, List.append_assoc]
        exact hx rest hrest

/-- Every floating-point number is read as one. -/
theorem readsAs_writeFloat (x : Binary64) :
    ∃ y, ∀ depth, ReadsAs (writeFloat x) depth (.float y) := by
  cases x with
  | notANumber => exact ⟨_,readsAs_of_readScalar ⟨_,_,rfl,by decide⟩ fun _ _ => rfl⟩
  | infinity negative =>
    cases negative
    · exact ⟨_,readsAs_of_readScalar ⟨_,_,rfl,by decide⟩ fun _ _ => rfl⟩
    · exact ⟨_,readsAs_of_readScalar ⟨_,_,rfl,by decide⟩ fun _ _ => rfl⟩
  | finite s m e =>
    obtain ⟨front,back,y,htext,hfront,hread⟩ := readNumber_text s m e
    refine ⟨y,?_⟩
    rw [writeFloat, htext]
    · apply readsAs_of_readScalar (starts_whole s hfront back)
      intro rest hrest
      rw [List.append_assoc, List.append_assoc, readScalar_of_whole s hfront, hread rest hrest]
    · exact fun h => nomatch h
    · exact fun _ h => nomatch h

end Written

end Json

end CategorySelection
