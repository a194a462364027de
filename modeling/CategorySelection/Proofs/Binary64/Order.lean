import CategorySelection.Proofs.Binary64.Rounding
import Mathlib.Algebra.Order.Monoid.WithTop
import Mathlib.Order.WithBot
/-!
Times on a clock. A clock shows a number that is not negative, and time that passes is added to it
with rounding. The clock never goes back, and of two moments the earlier one is followed by the
earlier end of the same span.
-/

namespace CategorySelection

def NoLater {κ : Type} [LT κ] (a b : κ) : Prop := (∀ t, t < a → t < b) ∧ ∀ t, b < t → a < t

namespace NoLater

variable {κ : Type} [LT κ] {a b c : κ}

theorem refl (a : κ) : NoLater a a := ⟨fun _ h => h,fun _ h => h⟩

theorem trans (h : NoLater a b) (h' : NoLater b c) : NoLater a c :=
  ⟨fun t ht => h'.1 t (h.1 t ht),fun t ht => h.2 t (h'.2 t ht)⟩

end NoLater

namespace Binary64

def rational (negative : Bool) (m : ℕ) (e : ℤ) : ℚ := if negative then -(m*2^e) else m*2^e

/-- The value of a number that is one; it may be infinite. -/
def value : Binary64 → WithBot (WithTop ℚ)
  | .finite s m e => ((rational s m e : WithTop ℚ) : WithBot (WithTop ℚ))
  | .infinity true => ⊥
  | .infinity false | .notANumber => ⊤

/-- The value that a result has after rounding: a number that is too large is infinite. -/
def limited (v : ℚ) : WithBot (WithTop ℚ) :=
  if bound ≤ v then ⊤ else if v ≤ -bound then ⊥ else ((v : WithTop ℚ) : WithBot (WithTop ℚ))

/-- Limiting values to the range of the numbers keeps their order. -/
theorem limited_mono {v w : ℚ} (h : v ≤ w) : limited v ≤ limited w := by
  unfold limited
  split_ifs with h₁ h₂ h₃ h₄ h₅ h₆ h₇
  all_goals first
    | exact le_top
    | exact bot_le
    | exact WithBot.coe_le_coe.mpr (WithTop.coe_le_coe.mpr h)
    | linarith

theorem limited_of_bound_le {v : ℚ} (h : bound ≤ v) : limited v = ⊤ := if_pos h

theorem limited_of_le_neg_bound {v : ℚ} (h : v ≤ -bound) : limited v = ⊥ := by
  have hpos := bound_pos
  rw [limited, if_neg (by linarith), if_pos h]

theorem limited_of_lt {v : ℚ} (hlow : -bound < v) (hhigh : v < bound) :
    limited v = ((v : WithTop ℚ) : WithBot (WithTop ℚ)) := by
  rw [limited, if_neg hhigh.not_ge, if_neg hlow.not_ge]

theorem twoTo_cast (n : ℕ) : (twoTo n : ℚ) = 2^n := by exact_mod_cast rfl

theorem units_mul (s : Bool) (m : ℕ) {e g : ℤ} (h : g ≤ e) :
    (units s m e g : ℚ)*2^g = rational s m e := by
  have hpow : (m:ℚ)*twoTo (e-g).natAbs*2^g = m*2^e := by
    rw [twoTo_cast, ← zpow_natCast, mul_assoc, ← zpow_add₀ two_ne_zero,
      show ((e-g).natAbs : ℤ)+g = e by omega]
  cases s
  · exact_mod_cast hpow
  · rw [units, rational, if_pos rfl, if_pos rfl, ← hpow]
    push_cast
    ring

/-- Finite numbers are ordered as the rational numbers that they stand for. -/
theorem less_finite (s t : Bool) (m n : ℕ) (e f : ℤ) :
    finite s m e < finite t n f ↔ rational s m e < rational t n f := by
  have hpos : (0:ℚ) < 2^(min e f) := by positivity
  rw [← units_mul s m (min_le_left e f), ← units_mul t n (min_le_right e f),
    mul_lt_mul_iff_left₀ hpos, Int.cast_lt]
  exact decide_eq_true_iff

theorem coe_lt_top (q : ℚ) : ((q : WithTop ℚ) : WithBot (WithTop ℚ)) < ⊤ :=
  WithBot.coe_lt_coe.mpr (WithTop.coe_lt_top q)

theorem bot_lt_top : (⊥ : WithBot (WithTop ℚ)) < ⊤ := WithBot.bot_lt_coe _

/-- Numbers are ordered by their values. Only two finite ones are compared by computing; in the
other cases their kinds decide. -/
theorem less_iff {x y : Binary64} (hx : x ≠ notANumber) (hy : y ≠ notANumber) :
    x < y ↔ x.value < y.value := by
  rcases x with ⟨s,m,e⟩ | ⟨_ | _⟩ | _ <;> rcases y with ⟨t,n,f⟩ | ⟨_ | _⟩ | _
  case finite.finite =>
    rw [less_finite]
    exact (WithBot.coe_lt_coe.trans WithTop.coe_lt_coe).symm
  case finite.infinity.false => exact iff_of_true rfl (coe_lt_top _)
  case infinity.true.finite => exact iff_of_true rfl (WithBot.bot_lt_coe _)
  case infinity.true.infinity.false => exact iff_of_true rfl bot_lt_top
  all_goals first
    | exact absurd rfl hx
    | exact absurd rfl hy
    | exact iff_of_false Bool.false_ne_true not_lt_bot
    | exact iff_of_false Bool.false_ne_true not_top_lt

theorem ne_notANumber_of_lt {x y : Binary64} (h : x < y) : x ≠ notANumber ∧ y ≠ notANumber := by
  constructor
  · rintro rfl
    cases h
  · rintro rfl
    cases x <;> cases h

/-- A number with a smaller value than another one is no later as a point in time. -/
theorem noLater_of_le {x y : Binary64} (hx : x ≠ notANumber) (hy : y ≠ notANumber)
    (h : x.value ≤ y.value) : NoLater x y := by
  constructor
  · intro t ht
    have hnum := (ne_notANumber_of_lt ht).1
    exact (less_iff hnum hy).mpr (((less_iff hnum hx).mp ht).trans_le h)
  · intro t ht
    have hnum := (ne_notANumber_of_lt ht).2
    exact (less_iff hx hnum).mpr (h.trans_lt ((less_iff hy hnum).mp ht))

/-- The quotient of whole numbers that is rounded has the value of the number that it was made
from. -/
theorem quotient_eq (m : ℕ) (e : ℤ) :
    0 < (quotient m e).2 ∧ (0 < m → 0 < (quotient m e).1) ∧
      ((quotient m e).1:ℚ)/(quotient m e).2 = m*2^e := by
  have hpos : 0 < twoTo e.natAbs := Nat.pow_pos two_pos
  rw [quotient]
  split_ifs with he
  · refine ⟨hpos,id,?_⟩
    rw [twoTo_cast, ← zpow_natCast, div_eq_mul_inv, ← zpow_neg, show -(e.natAbs : ℤ) = e by omega]
  · refine ⟨Nat.one_pos,fun hm => Nat.mul_pos hm hpos,?_⟩
    rw [Nat.cast_one, div_one, Nat.cast_mul, twoTo_cast, ← zpow_natCast,
      show (e.natAbs : ℤ) = e by omega]

/-- A quotient gives the number that it is rounded to, which is infinite if it is too large. -/
theorem value_ofQuotient (s : Bool) {num den : ℕ} (hn : 0 < num) (hd : 0 < den) :
    ofQuotient s num den ≠ notANumber ∧
      ∃ v, Rounds (if s then -((num:ℚ)/den) else num/den) v ∧
        (ofQuotient s num den).value = limited v := by
  obtain ⟨v,hv,⟨heq,hlarge⟩ | ⟨m,e,heq,rfl,hbits⟩⟩ := ofQuotient_cases s hn hd
  · refine ⟨by rw [heq]; nofun,?_⟩
    rw [heq]
    cases s
    · exact ⟨v,hv,(limited_of_bound_le hlarge).symm⟩
    · exact ⟨-v,hv.neg,(limited_of_le_neg_bound (neg_le_neg hlarge)).symm⟩
  · refine ⟨by rw [heq]; nofun,?_⟩
    rw [heq]
    have hnonneg : (0:ℚ) ≤ m*2^e := by positivity
    have hlt := hbits.lt
    have hpos := bound_pos
    cases s
    · have hlow : -bound < (m:ℚ)*2^e := by linarith
      exact ⟨m*2^e,hv,(limited_of_lt hlow hlt).symm⟩
    · have hlow : -bound < -((m:ℚ)*2^e) := by linarith
      have hhigh : -((m:ℚ)*2^e) < bound := by linarith
      exact ⟨-(m*2^e),hv.neg,(limited_of_lt hlow hhigh).symm⟩

theorem sum_units_mul (s t : Bool) (m n : ℕ) (e f : ℤ) :
    ((units s m e (min e f)+units t n f (min e f) : ℤ):ℚ)*2^(min e f) =
      rational s m e+rational t n f := by
  rw [Int.cast_add, add_mul, units_mul s m (min_le_left e f), units_mul t n (min_le_right e f)]

theorem add_finite (s t : Bool) (m n : ℕ) (e f : ℤ) :
    finite s m e+finite t n f =
      let sum := units s m e (min e f)+units t n f (min e f)
      if sum = 0 then finite (s && t) 0 (-1074)
      else
        ofQuotient (sum < 0) (quotient sum.natAbs (min e f)).1 (quotient sum.natAbs (min e f)).2 :=
  rfl

/-- A sum of finite numbers is the rounded exact sum: in units of the smaller exponent it is exact,
so only its quotient is rounded. -/
theorem value_add (s t : Bool) (m n : ℕ) (e f : ℤ) :
    finite s m e+finite t n f ≠ notANumber ∧ ∃ v, Rounds (rational s m e+rational t n f) v ∧
      (finite s m e+finite t n f).value = limited v := by
  rw [add_finite, ← sum_units_mul]
  generalize units s m e (min e f)+units t n f (min e f) = sum
  generalize min e f = g
  dsimp only
  split_ifs with hzero
  · rw [hzero, Int.cast_zero, zero_mul]
    refine ⟨nofun,0,rounds_zero,?_⟩
    have hbound := bound_pos
    rw [limited_of_lt (neg_lt_zero.mpr hbound) hbound]
    cases s <;> cases t <;> simp [value, rational]
  · obtain ⟨hden,hnum,hquotient⟩ := quotient_eq sum.natAbs g
    have hvalue := value_ofQuotient (sum < 0) (hnum (Int.natAbs_pos.mpr hzero)) hden
    rw [hquotient, Nat.cast_natAbs] at hvalue
    convert hvalue using 5
    rcases lt_or_ge sum 0 with hneg | hnonneg
    · rw [abs_of_neg hneg, if_pos (decide_eq_true hneg)]
      push_cast
      ring
    · rw [abs_of_nonneg hnonneg, if_neg (by rw [decide_eq_true_eq]; omega)]

/-- What a clock can show: a number that is not negative. It may have run over. -/
inductive IsTime : Binary64 → Prop
  | shown {m : ℕ} {e : ℤ} (h : HasBits m e) : IsTime (finite false m e)
  | endless : IsTime (infinity false)

namespace IsTime

variable {a b : Binary64}

theorem zero : IsTime zero := .shown ⟨by decide,le_rfl,by decide⟩

theorem ofQuotient {num den : ℕ} (hn : 0 < num) (hd : 0 < den) :
    IsTime (ofQuotient false num den) := by
  obtain ⟨_,_,⟨heq,_⟩ | ⟨m,e,heq,_,hbits⟩⟩ := ofQuotient_cases false hn hd
  · rw [heq]
    exact endless
  · rw [heq]
    exact shown hbits

theorem noLater (ha : IsTime a) (hb : IsTime b) (h : a.value ≤ b.value) : NoLater a b :=
  noLater_of_le (by cases ha <;> nofun) (by cases hb <;> nofun) h

/-- Of two moments the earlier one is followed by the earlier end of a span, whatever the span
is. -/
theorem noLater_add (ha : IsTime a) (hb : IsTime b) (h : a.value ≤ b.value) (c : Binary64) :
    NoLater (a+c) (b+c) := by
  cases ha with
  | endless =>
    cases hb with
    | endless => exact NoLater.refl _
    | shown => exact absurd h (not_le.mpr (coe_lt_top _))
  | @shown m e hm =>
  cases hb with
  | @shown n f hn =>
    cases c with
    | notANumber => exact NoLater.refl _
    | infinity s => exact NoLater.refl _
    | finite s k g =>
      obtain ⟨hnum,v,hv,hvalue⟩ := value_add false s m k e g
      obtain ⟨hnum',w,hw,hvalue'⟩ := value_add false s n k f g
      have hle : rational false m e ≤ rational false n f :=
        WithTop.coe_le_coe.mp (WithBot.coe_le_coe.mp h)
      apply noLater_of_le hnum hnum'
      rw [hvalue, hvalue']
      exact limited_mono (hv.mono hw (by linarith))
  | endless =>
    rcases c with ⟨s,k,g⟩ | ⟨_ | _⟩ | _
    · exact noLater_of_le (value_add false s m k e g).1 nofun le_top
    · exact NoLater.refl _
    · have hlow : finite false m e+infinity true = infinity true := rfl
      have hnone : infinity false+infinity true = notANumber := rfl
      rw [hlow, hnone]
      constructor
      · intro t ht
        exact absurd ((less_iff (y := infinity true) (ne_notANumber_of_lt ht).1 nofun).mp ht)
          not_lt_bot
      · intro t ht
        exact absurd rfl (ne_notANumber_of_lt ht).1
    · exact NoLater.refl _

/-- A time that does not get negative by what is added to it stays a time. -/
theorem add_shown {s : Bool} {m n : ℕ} {e f : ℤ} (h : 0 ≤ rational false m e+rational s n f) :
    IsTime (finite false m e+finite s n f) := by
  rw [← sum_units_mul] at h
  rw [add_finite, Bool.false_and]
  generalize units false m e (min e f)+units s n f (min e f) = sum at *
  dsimp only
  split_ifs with hzero
  · exact zero
  · have hpos : (0:ℚ) < 2^(min e f) := by positivity
    have hnonneg : 0 ≤ sum := by exact_mod_cast nonneg_of_mul_nonneg_left h hpos
    obtain ⟨hden,hnum,_⟩ := quotient_eq sum.natAbs (min e f)
    rw [decide_eq_false hnonneg.not_gt]
    exact ofQuotient (hnum (Int.natAbs_pos.mpr hzero)) hden

/-- A clock does not go back while time passes. What the clock shows is no longer rounded, so the
sum is not rounded below it. -/
theorem add (ha : IsTime a) {span : Binary64} (hspan : span ≠ notANumber)
    (hn : span.isNegative = false) :
    IsTime (a+span) ∧ a.value ≤ (a+span).value := by
  rcases span with ⟨s,n,f⟩ | ⟨_ | _⟩ | _
  case infinity.true => cases hn
  case notANumber => exact absurd rfl hspan
  case infinity.false => cases ha <;> exact ⟨endless,le_top⟩
  cases ha with
  | endless => exact ⟨endless,le_top⟩
  | @shown m e hm =>
    have hnonneg : 0 ≤ rational s n f := by
      have hzero : ¬ finite s n f < Binary64.zero := fun h => Bool.false_ne_true (hn.symm.trans h)
      rw [Binary64.zero, less_finite, not_lt] at hzero
      simpa [rational] using hzero
    have hstart : 0 ≤ rational false m e :=
      mul_nonneg (Nat.cast_nonneg m) (zpow_nonneg two_pos.le e)
    refine ⟨add_shown (by linarith),?_⟩
    obtain ⟨_,v,hv,hvalue⟩ := value_add false s m n e f
    obtain ⟨w,hw⟩ := exists_rounds hstart
    have hself : w = rational false m e := by
      refine hw.eq_of_bits (m := m) ?_ hm.least
      rw [Nat.abs_cast]
      exact_mod_cast hm.bits
    have hle : rational false m e ≤ v := by
      rw [← hself]
      exact hw.mono hv (by linarith)
    have hlow : -bound < rational false m e := by
      have hpos := bound_pos
      linarith
    rw [hvalue]
    exact (limited_of_lt hlow hm.lt).ge.trans (limited_mono hle)

end IsTime

end Binary64

end CategorySelection
