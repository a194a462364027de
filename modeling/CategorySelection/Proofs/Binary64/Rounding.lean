import CategorySelection.Binary64
import Mathlib.Algebra.Order.Field.Power
import Mathlib.Algebra.Order.Ring.Rat
import Mathlib.Data.Rat.Cast.Defs
import Mathlib.Tactic.FieldSimp
import Mathlib.Tactic.Linarith
import Mathlib.Tactic.NormNum
import Mathlib.Tactic.Positivity
import Mathlib.Tactic.Ring
/-!
Rounding. A quotient is scaled by a power of two until it has 53 bits before the point, and is then
rounded to a whole number, a tie to the even one. So rounding keeps the order of quotients, and
leaves a number of 53 bits as it is.
-/

namespace CategorySelection.Binary64

/-- A whole number nearest to a quotient; of two that are equally near it is the even one. -/
structure IsNearest (x : ℚ) (r : ℤ) : Prop where
  le : r ≤ x+1/2
  ge : x ≤ r+1/2
  even_of_eq : r = x+1/2 → r % 2 = 0
  even_of_eq' : x = r+1/2 → r % 2 = 0

namespace IsNearest

variable {x y : ℚ} {r s : ℤ}

theorem of_intCast (r : ℤ) : IsNearest r r where
  le := by linarith
  ge := by linarith
  even_of_eq := fun h => absurd h (by linarith)
  even_of_eq' := fun h => absurd h (by linarith)

theorem neg (h : IsNearest x r) : IsNearest (-x) (-r) where
  le := by
    have hge := h.ge
    push_cast
    linarith
  ge := by
    have hle := h.le
    push_cast
    linarith
  even_of_eq := by
    intro heq
    push_cast at heq
    have heven := h.even_of_eq' (by linarith)
    omega
  even_of_eq' := by
    intro heq
    push_cast at heq
    have heven := h.even_of_eq (by linarith)
    omega

/-- Nearest whole numbers keep the order of what they are near to: if they did not, both would be
ties around one half, and two neighbours would be even. -/
theorem mono (hr : IsNearest x r) (hs : IsNearest y s) (h : x ≤ y) : r ≤ s := by
  by_contra hlt
  have hsucc : (s:ℚ)+1 ≤ r := by exact_mod_cast not_le.mp hlt
  have hx := hr.le
  have hy := hs.ge
  have hrx : (r:ℚ) = x+1/2 := by linarith
  have hys : y = (s:ℚ)+1/2 := by linarith
  have heq : r = s+1 := by
    have hcast : (r:ℚ) = ((s+1 : ℤ):ℚ) := by
      push_cast
      linarith
    exact_mod_cast hcast
  have hreven := hr.even_of_eq hrx
  have hseven := hs.even_of_eq' hys
  omega

theorem eq_of_intCast (h : IsNearest r s) : s = r :=
  le_antisymm (h.mono (of_intCast r) le_rfl) ((of_intCast r).mono h le_rfl)

end IsNearest

/-- Rounding a quotient gives the whole number nearest to it, as the quotient is a whole number and
a part of one. -/
theorem isNearest_roundQuotient (n : ℕ) {d : ℕ} (hd : 0 < d) :
    IsNearest ((n:ℚ)/d) (roundQuotient n d : ℕ) := by
  have hdq : (0:ℚ) < d := by exact_mod_cast hd
  have hsplit : (n:ℚ)/d = (n/d : ℕ)+(n % d : ℕ)/(d:ℚ) := by
    have hn : (n:ℚ) = d*(n/d : ℕ)+(n % d : ℕ) := by exact_mod_cast (Nat.div_add_mod n d).symm
    rw [eq_comm, ← sub_eq_zero]
    field_simp
    linarith
  have hmod : n % d < d := Nat.mod_lt n hd
  unfold roundQuotient
  rw [hsplit]
  generalize n/d = q
  generalize n % d = rem at *
  have hnonneg : (0:ℚ) ≤ rem/d := by positivity
  have hlt : (rem:ℚ)/d < 1 := by
    rw [div_lt_one hdq]
    exact_mod_cast hmod
  have htie : (rem:ℚ)/d = 1/2 ↔ 2*rem = d := by
    rw [div_eq_div_iff hdq.ne' two_ne_zero]
    constructor
    · intro h
      have hcast : ((2*rem : ℕ):ℚ) = d := by
        push_cast
        linarith
      exact_mod_cast hcast
    · intro h
      rw [← h]
      push_cast
      ring
  have habove : 1/2 < (rem:ℚ)/d ↔ d < 2*rem := by
    rw [div_lt_div_iff₀ two_pos hdq]
    constructor
    · intro h
      have hcast : (d:ℚ) < ((2*rem : ℕ):ℚ) := by
        push_cast
        linarith
      exact_mod_cast hcast
    · intro h
      have hcast : (d:ℚ) < ((2*rem : ℕ):ℚ) := by exact_mod_cast h
      push_cast at hcast
      linarith
  generalize (rem:ℚ)/d = part at *
  dsimp only
  split_ifs with hup
  · have hhalf : 1/2 ≤ part := by
      rcases hup with h | ⟨h,_⟩
      · exact (habove.mpr h).le
      · exact (htie.mpr h).ge
    refine ⟨?_,?_,?_,?_⟩ <;> push_cast
    · linarith
    · linarith
    · intro heq
      have h2 := htie.mp (by linarith)
      omega
    · intro heq
      linarith
  · have hhalf : part ≤ 1/2 := by
      rw [← not_lt, habove]
      exact fun h => hup (Or.inl h)
    refine ⟨?_,?_,?_,?_⟩ <;> push_cast
    · linarith
    · linarith
    · intro heq
      linarith
    · intro heq
      have h2 := htie.mp (by linarith)
      omega

theorem twoPow_mul (n : ℕ) (e : ℤ) : ((2^n : ℤ):ℚ)*2^e = 2^(e+n) := by
  rw [add_comm, zpow_add₀ two_ne_zero, zpow_natCast, Int.cast_pow, Int.cast_ofNat]

theorem twoPow_le {i j : ℤ} (h : i ≤ j) : (2:ℚ)^i ≤ 2^j := zpow_le_zpow_right₀ one_le_two h

structure IsScale (x : ℚ) (e : ℤ) : Prop where
  least : -1074 ≤ e
  lt : x < 2^(e+53)
  full : e = -1074 ∨ 2^(e+52) ≤ x

theorem IsScale.mono {x y : ℚ} {e f : ℤ} (he : IsScale x e) (hf : IsScale y f) (h : x ≤ y) :
    e ≤ f := by
  by_contra hlt
  have hleast := hf.least
  rcases he.full with he' | hx
  · omega
  have hpow : (2:ℚ)^(f+53) ≤ 2^(e+52) := twoPow_le (by omega)
  have hy := hf.lt
  linarith

/-- Rounding may reach the power of two above the 53 bits and does not pass it. -/
theorem IsScale.le_twoPow {x : ℚ} {e m : ℤ} (he : IsScale x e) (hm : IsNearest (x/2^e) m) :
    m ≤ 2^53 := by
  refine hm.mono (IsNearest.of_intCast _) ?_
  rw [div_le_iff₀ (by positivity), twoPow_mul]
  exact he.lt.le

/-- All of the 53 bits are used, but for the least numbers of all. -/
theorem IsScale.twoPow_le {x : ℚ} {e m : ℤ} (he : IsScale x e) (hm : IsNearest (x/2^e) m)
    (hleast : e ≠ -1074) : 2^52 ≤ m := by
  refine (IsNearest.of_intCast _).mono hm ?_
  rw [le_div_iff₀ (by positivity), twoPow_mul]
  exact he.full.resolve_left hleast

def Rounds (x v : ℚ) : Prop :=
  ∃ (e : ℤ) (m : ℤ), IsScale |x| e ∧ IsNearest (x/2^e) m ∧ v = m*2^e

namespace Rounds

variable {x y v w : ℚ}

theorem neg (h : Rounds x v) : Rounds (-x) (-v) := by
  obtain ⟨e,m,he,hm,rfl⟩ := h
  refine ⟨e,-m,?_,?_,?_⟩
  · rwa [abs_neg]
  · rw [neg_div]
    exact hm.neg
  · push_cast
    ring

theorem nonneg (h : Rounds x v) (hx : 0 ≤ x) : 0 ≤ v := by
  obtain ⟨e,m,_,hm,rfl⟩ := h
  have hpos : (0:ℚ) < 2^e := by positivity
  have hm0 : 0 ≤ m := by
    refine (IsNearest.of_intCast 0).mono hm ?_
    rw [Int.cast_zero]
    positivity
  have hmq : (0:ℚ) ≤ m := by exact_mod_cast hm0
  positivity

/-- Rounding keeps the order of sizes: where they have different scales, the smaller scale ends
where the larger one begins. -/
theorem mono_of_nonneg (hv : Rounds x v) (hw : Rounds y w) (hx : 0 ≤ x) (h : x ≤ y) : v ≤ w := by
  obtain ⟨e,m,he,hm,rfl⟩ := hv
  obtain ⟨f,n,hf,hn,rfl⟩ := hw
  rw [abs_of_nonneg hx] at he
  rw [abs_of_nonneg (hx.trans h)] at hf
  rcases (he.mono hf h).eq_or_lt with rfl | hlt
  · have hmn : m ≤ n := hm.mono hn (by gcongr)
    have hcast : (m:ℚ) ≤ n := by exact_mod_cast hmn
    gcongr
  have hleast := he.least
  have hlow : ((2^53 : ℤ):ℚ)*2^e ≤ ((2^52 : ℤ):ℚ)*2^f := by
    rw [twoPow_mul, twoPow_mul]
    exact twoPow_le (by push_cast; omega)
  have hmq : (m:ℚ) ≤ (2^53 : ℤ) := by exact_mod_cast he.le_twoPow hm
  have hnq : ((2^52 : ℤ):ℚ) ≤ n := by exact_mod_cast hf.twoPow_le hn (by omega)
  calc (m:ℚ)*2^e ≤ ((2^53 : ℤ):ℚ)*2^e := by gcongr
    _ ≤ ((2^52 : ℤ):ℚ)*2^f := hlow
    _ ≤ n*2^f := by gcongr

theorem mono (hv : Rounds x v) (hw : Rounds y w) (h : x ≤ y) : v ≤ w := by
  rcases le_total 0 x with hx | hx
  · exact hv.mono_of_nonneg hw hx h
  rcases le_total 0 y with hy | hy
  · have hv0 := hv.neg.nonneg (by linarith)
    have hw0 := hw.nonneg hy
    linarith
  · have hneg := hw.neg.mono_of_nonneg hv.neg (by linarith) (by linarith)
    linarith

/-- A number of 53 bits is rounded to itself. In the finer scale it is a whole number too. -/
theorem eq_of_bits {m e : ℤ} (h : Rounds (m*2^e) v) (hm : |m| < 2^53) (he : -1074 ≤ e) :
    v = m*2^e := by
  obtain ⟨f,n,hf,hn,rfl⟩ := h
  have hsize : |(m:ℚ)*2^e| < 2^(e+53) := by
    have hmq : |(m:ℚ)| < 2^53 := by exact_mod_cast hm
    rw [abs_mul, abs_of_pos (by positivity : (0:ℚ) < 2^e), add_comm, zpow_add₀ two_ne_zero]
    exact mul_lt_mul_of_pos_right hmq (by positivity)
  have hfe : f ≤ e := by
    by_contra hlt
    have hlow := hf.full.resolve_left (by omega)
    have hpow : (2:ℚ)^(e+53) ≤ 2^(f+52) := twoPow_le (by omega)
    linarith
  obtain ⟨k,hk⟩ := Int.eq_ofNat_of_zero_le (sub_nonneg.mpr hfe)
  have hwhole : (m:ℚ)*2^e/2^f = ((m*2^k : ℤ):ℚ) := by
    rw [mul_div_assoc, ← zpow_sub₀ two_ne_zero, hk]
    push_cast
    rfl
  rw [hwhole] at hn
  rw [hn.eq_of_intCast, ← hwhole, div_mul_cancel₀]
  positivity

end Rounds

/-- The quotient of whole numbers that is rounded stands for the scaled number. -/
theorem scaleDown_eq (num : ℕ) {den : ℕ} (hd : 0 < den) (e : ℤ) :
    0 < (scaleDown num den e).2 ∧
      ((scaleDown num den e).1:ℚ)/(scaleDown num den e).2 = num/den/2^e := by
  have hpow : ∀ n : ℕ, 0 < twoTo n ∧ (twoTo n : ℚ) = 2^n :=
    fun n => ⟨Nat.pow_pos two_pos,by exact_mod_cast rfl⟩
  obtain ⟨hpos,hcast⟩ := hpow e.natAbs
  rw [scaleDown]
  split_ifs with he
  · have hneg : e = -(e.natAbs : ℤ) := by omega
    refine ⟨hd,?_⟩
    rw [hneg, zpow_neg, zpow_natCast, div_inv_eq_mul, Int.natAbs_neg, Int.natAbs_natCast]
    push_cast
    rw [hcast]
    ring
  · have hnonneg : e = (e.natAbs : ℤ) := by omega
    refine ⟨Nat.mul_pos hd hpos,?_⟩
    rw [hnonneg, zpow_natCast, div_div, Int.natAbs_natCast]
    push_cast
    rw [hcast]

/-- A number lies between the powers of two that its length in bits tells. -/
theorem bitLength_bounds {n : ℕ} (hn : 0 < n) :
    (2:ℚ)^((bitLength n : ℤ)-1) ≤ n ∧ (n:ℚ) < 2^(bitLength n : ℤ) := by
  have hne : n ≠ 0 := hn.ne'
  rw [bitLength, if_neg hne]
  constructor
  · rw [Nat.cast_succ, add_sub_cancel_right, zpow_natCast]
    exact_mod_cast Nat.log2_self_le hne
  · rw [zpow_natCast]
    exact_mod_cast Nat.lt_log2_self

/-- The lengths in bits tell the size of a quotient up to a factor of four. -/
theorem quotient_bounds {num den : ℕ} (hn : 0 < num) (hd : 0 < den) :
    (2:ℚ)^((bitLength num : ℤ)-bitLength den-1) ≤ num/den ∧
      (num:ℚ)/den < 2^((bitLength num : ℤ)-bitLength den+1) := by
  obtain ⟨hnlow,hnhigh⟩ := bitLength_bounds hn
  obtain ⟨hdlow,hdhigh⟩ := bitLength_bounds hd
  have hdq : (0:ℚ) < den := by exact_mod_cast hd
  constructor
  · rw [le_div_iff₀ hdq]
    calc (2:ℚ)^((bitLength num : ℤ)-bitLength den-1)*den
        ≤ 2^((bitLength num : ℤ)-bitLength den-1)*2^(bitLength den : ℤ) := by gcongr
      _ = 2^((bitLength num : ℤ)-1) := by
        rw [← zpow_add₀ two_ne_zero]
        ring_nf
      _ ≤ num := hnlow
  · rw [div_lt_iff₀ hdq]
    calc (num:ℚ) < 2^(bitLength num : ℤ) := hnhigh
      _ = 2^((bitLength num : ℤ)-bitLength den+1)*2^((bitLength den : ℤ)-1) := by
        rw [← zpow_add₀ two_ne_zero]
        ring_nf
      _ ≤ 2^((bitLength num : ℤ)-bitLength den+1)*den := by gcongr

/-- A scale that is guessed from the lengths of a quotient is right or too small by one. -/
theorem isScale_guess {x : ℚ} {g : ℤ} (hlow : 2^(g+52) ≤ x) (hhigh : x < 2^(g+54)) :
    IsScale x (if 2^(max (-1074) g+53) ≤ x then max (-1074) g+1 else max (-1074) g) := by
  split_ifs with hfull
  · refine ⟨by omega,?_,Or.inr ?_⟩
    · exact hhigh.trans_le (twoPow_le (by omega))
    · exact (twoPow_le (by omega)).trans hfull
  · refine ⟨le_max_left _ _,not_le.mp hfull,?_⟩
    rcases le_total g (-1074) with hg | hg
    · exact Or.inl (max_eq_left hg)
    · rw [max_eq_right hg]
      exact Or.inr hlow

def bound : ℚ := 2^1024

theorem bound_pos : 0 < bound := pow_pos two_pos 1024

structure HasBits (m : ℕ) (e : ℤ) : Prop where
  bits : m < 2^53
  least : -1074 ≤ e
  greatest : e ≤ 971

theorem HasBits.lt {m : ℕ} {e : ℤ} (h : HasBits m e) : (m:ℚ)*2^e < bound := by
  have hm : (m:ℚ) < 2^53 := by exact_mod_cast h.bits
  have he : (2:ℚ)^e ≤ 2^(971:ℤ) := twoPow_le h.greatest
  calc (m:ℚ)*2^e < 2^53*2^e := by gcongr
    _ ≤ 2^53*2^(971:ℤ) := by gcongr
    _ = bound := twoPow_mul 53 971

/-- What is made of 53 bits and an exponent is finite with the value that they tell, or infinite
because that value is past the bound. -/
theorem cases_of_bits (negative : Bool) {m : ℕ} {e : ℤ} (hm : m < 2^53) (hleast : -1074 ≤ e)
    (hfull : 971 < e → 2^52 ≤ m) :
    let x : Binary64 := if 971 < e then .infinity negative else .finite negative m e
    (x = .infinity negative ∧ bound ≤ m*2^e) ∨
      ∃ n f, x = .finite negative n f ∧ (m:ℚ)*2^e = n*2^f ∧ HasBits n f := by
  dsimp only
  split_ifs with he
  · have hmq : ((2^52 : ℤ):ℚ) ≤ m := by exact_mod_cast hfull he
    refine Or.inl ⟨rfl,?_⟩
    calc bound = ((2^52 : ℤ):ℚ)*2^(972:ℤ) := (twoPow_mul 52 972).symm
      _ ≤ m*2^e := mul_le_mul hmq (twoPow_le he) (by positivity) (by positivity)
  · exact Or.inr ⟨m,e,rfl,rfl,hm,hleast,not_lt.mp he⟩

/-- What a quotient gives: the number that it is rounded to, or infinity if that is too large. The
guess of the scale is tested by the whole part of the scaled quotient. -/
theorem ofQuotient_cases (negative : Bool) {num den : ℕ} (hn : 0 < num) (hd : 0 < den) :
    ∃ v, Rounds ((num:ℚ)/den) v ∧
      ((ofQuotient negative num den = .infinity negative ∧ bound ≤ v) ∨
        ∃ m e, ofQuotient negative num den = .finite negative m e ∧ v = m*2^e ∧ HasBits m e) := by
  obtain ⟨hlow,hhigh⟩ := quotient_bounds hn hd
  have hscale := isScale_guess (g := (bitLength num : ℤ)-bitLength den-53)
    ((twoPow_le (by omega)).trans hlow) (by convert hhigh using 2; ring)
  have hx : (0:ℚ) < num/den := by positivity
  unfold ofQuotient
  dsimp only
  generalize hguess : max (-1074) ((bitLength num : ℤ)-bitLength den-53) = guess at *
  have htest : twoTo 53 ≤ (scaleDown num den guess).1/(scaleDown num den guess).2 ↔
      (2:ℚ)^(guess+53) ≤ num/den := by
    obtain ⟨hpos,heq⟩ := scaleDown_eq num hd guess
    have hposq : (0:ℚ) < (scaleDown num den guess).2 := by exact_mod_cast hpos
    rw [Nat.le_div_iff_mul_le hpos, ← Nat.cast_le (α := ℚ), Nat.cast_mul, ← le_div_iff₀ hposq, heq,
      le_div_iff₀ (by positivity), show ((twoTo 53 : ℕ):ℚ) = ((2^53 : ℤ):ℚ) by exact_mod_cast rfl,
      twoPow_mul]
    rfl
  rw [← if_congr htest rfl rfl] at hscale
  generalize (if twoTo 53 ≤ (scaleDown num den guess).1/(scaleDown num den guess).2 then guess+1
    else guess) = e at *
  obtain ⟨hpos,heq⟩ := scaleDown_eq num hd e
  have hnear := isNearest_roundQuotient (scaleDown num den e).1 hpos
  rw [heq] at hnear
  generalize roundQuotient (scaleDown num den e).1 (scaleDown num den e).2 = m at *
  have hrounds : Rounds ((num:ℚ)/den) (m*2^e) := ⟨e,m,by rwa [abs_of_pos hx],hnear,rfl⟩
  refine ⟨m*2^e,hrounds,?_⟩
  have hfits : m ≤ 2^53 := by exact_mod_cast hscale.le_twoPow hnear
  have hleast := hscale.least
  by_cases hcarry : m = twoTo 53
  · rw [if_pos hcarry]
    have hcarried : (m:ℚ)*2^e = (twoTo 52 : ℕ)*2^(e+1) := by
      rw [hcarry, zpow_add_one₀ two_ne_zero, show twoTo 53 = twoTo 52*2 from rfl]
      push_cast
      ring
    rw [hcarried]
    exact cases_of_bits negative (Nat.pow_lt_pow_right (by decide) (by decide)) (by omega)
      fun _ => le_rfl
  · rw [if_neg hcarry]
    refine cases_of_bits negative (lt_of_le_of_ne hfits hcarry) hleast fun he => ?_
    exact_mod_cast hscale.twoPow_le hnear (by omega)

theorem rounds_zero : Rounds 0 0 := by
  refine ⟨-1074,0,⟨le_rfl,?_,Or.inl rfl⟩,?_,?_⟩
  · rw [abs_zero]
    positivity
  · rw [zero_div, ← Int.cast_zero]
    exact IsNearest.of_intCast 0
  · rw [Int.cast_zero, zero_mul]

theorem exists_rounds {x : ℚ} (hx : 0 ≤ x) : ∃ v, Rounds x v := by
  rcases hx.eq_or_lt with rfl | hpos
  · exact ⟨0,rounds_zero⟩
  · have hnum : 0 < x.num := Rat.num_pos.mpr hpos
    obtain ⟨v,hv,_⟩ := ofQuotient_cases false (Int.natAbs_pos.mpr hnum.ne') x.den_pos
    rw [Nat.cast_natAbs, abs_of_pos hnum, Rat.num_div_den] at hv
    exact ⟨v,hv⟩

end CategorySelection.Binary64
