import CategorySelection.Text.Blank
import Mathlib.Algebra.Group.Nat.Defs
import Mathlib.Data.List.Basic
/-!
Beginnings of texts, texts with a separator between them, texts that are split at one, and the
digits of numbers.
-/

namespace CategorySelection

theorem CodePoint.isAsciiDigit_ofDigit (n : Nat) : (CodePoint.ofDigit n).isAsciiDigit = true := by
  rw [isAsciiDigit, isBetween, Bool.and_eq_true, decide_eq_true_eq, decide_eq_true_eq, ofDigit]
  dsimp only
  omega

namespace Text

theorem after?_eq_some_iff (beginning t rest : Text) :
    after? beginning t = some rest ↔ t = beginning ++ rest := by
  induction beginning generalizing t with
  | nil =>
    rw [after?, Option.some_inj]
    exact Iff.rfl
  | cons b beginning ih =>
    cases t with
    | nil => simp only [after?, reduceCtorEq, List.cons_append]
    | cons c t =>
      rw [after?, List.cons_append, List.cons.injEq]
      by_cases h : b = c
      · rw [if_pos h, ih]
        simp only [h, true_and]
      · simp only [if_neg h, reduceCtorEq, Ne.symm h, false_and]

theorem join_singleton (separator part : Text) : join separator [part] = part := by
  rw [join, List.intercalate, List.intersperse_singleton, List.flatten_singleton]

theorem join_cons_cons (separator part next : Text) (rest : List Text) :
    join separator (part :: next :: rest) =
      part ++ (separator ++ join separator (next :: rest)) := by
  rw [join, join, List.intercalate, List.intercalate, List.intersperse_cons_cons, List.flatten_cons,
    List.flatten_cons]

/-- A part behind others that are not empty. -/
theorem join_concat (separator : Text) {parts : List Text} (hne : parts ≠ []) (last : Text) :
    join separator (parts ++ [last]) = join separator parts ++ (separator ++ last) := by
  induction parts with
  | nil => exact absurd rfl hne
  | cons part rest ih =>
    cases rest with
    | nil => rw [List.singleton_append, join_cons_cons, join_singleton, join_singleton]
    | cons next tail =>
      rw [List.cons_append, List.cons_append, join_cons_cons, ← List.cons_append,
        ih (List.cons_ne_nil next tail), join_cons_cons]
      simp only [List.append_assoc]

/-- A code point of a joined text comes from a part or from the separator. -/
theorem mem_join {separator : Text} {parts : List Text} {c : CodePoint}
    (hc : c ∈ join separator parts) :
    c ∈ separator ∨ ∃ part ∈ parts, c ∈ part := by
  induction parts with
  | nil => exact absurd hc List.not_mem_nil
  | cons part rest ih =>
    cases rest with
    | nil =>
      rw [join_singleton] at hc
      exact Or.inr ⟨part,List.mem_cons_self,hc⟩
    | cons next tail =>
      rw [join_cons_cons, List.mem_append, List.mem_append] at hc
      rcases hc with hc | hc | hc
      · exact Or.inr ⟨part,List.mem_cons_self,hc⟩
      · exact Or.inl hc
      · refine (ih hc).imp_right ?_
        rintro ⟨other,hother,hco⟩
        exact ⟨other,List.mem_cons_of_mem part hother,hco⟩

theorem mem_join_of_mem {separator part : Text} {parts : List Text} {c : CodePoint}
    (hpart : part ∈ parts) (hc : c ∈ part) : c ∈ join separator parts := by
  induction parts with
  | nil => cases hpart
  | cons first rest ih =>
    cases rest with
    | nil =>
      rw [join_singleton, ← List.mem_singleton.mp hpart]
      exact hc
    | cons next tail =>
      rw [join_cons_cons, List.mem_append, List.mem_append]
      rcases List.mem_cons.mp hpart with rfl | hpart
      · exact Or.inl hc
      · exact Or.inr (Or.inr (ih hpart))

section Split

variable {separator : CodePoint}

theorem split_ne_nil (separator : CodePoint) (t : Text) : split separator t ≠ [] := by
  cases t with
  | nil => nofun
  | cons c rest =>
    rw [split]
    split
    · split <;> nofun
    · nofun

theorem split_cons_self (separator : CodePoint) (t : Text) :
    split separator (separator :: t) = [] :: split separator t := by
  obtain ⟨part,parts,hparts⟩ := List.exists_cons_of_ne_nil (split_ne_nil separator t)
  rw [split, hparts]
  exact if_pos rfl

theorem split_cons_of_ne {c : CodePoint} (hc : c ≠ separator) {t part : Text} {parts : List Text}
    (hparts : split separator t = part :: parts) :
    split separator (c :: t) = (c :: part) :: parts := by
  rw [split, hparts]
  exact if_neg hc

theorem split_append (before t : Text) :
    split separator (before ++ separator :: t) = split separator before ++ split separator t := by
  induction before with
  | nil => exact split_cons_self separator t
  | cons c rest ih =>
    by_cases hc : c = separator
    · rw [hc, List.cons_append, split_cons_self, split_cons_self, ih, List.cons_append]
    · obtain ⟨part,parts,hparts⟩ := List.exists_cons_of_ne_nil (split_ne_nil separator rest)
      rw [hparts, List.cons_append] at ih
      rw [List.cons_append, split_cons_of_ne hc ih, split_cons_of_ne hc hparts, List.cons_append]

theorem eq_of_split_eq_singleton {t part : Text} (h : split separator t = [part]) : part = t := by
  induction t generalizing part with
  | nil =>
    cases h
    rfl
  | cons c rest ih =>
    obtain ⟨first,parts,hparts⟩ := List.exists_cons_of_ne_nil (split_ne_nil separator rest)
    by_cases hc : c = separator
    · rw [hc, split_cons_self, hparts] at h
      cases h
    · rw [split_cons_of_ne hc hparts] at h
      cases h
      rw [ih hparts]

theorem split_of_not_mem {t : Text} (h : separator ∉ t) : split separator t = [t] := by
  induction t with
  | nil => rfl
  | cons c rest ih =>
    obtain ⟨hc,hrest⟩ := not_or.mp (mt List.mem_cons.mpr h)
    exact split_cons_of_ne (Ne.symm hc) (ih hrest)

end Split

theorem ofNat_of_lt {n : Nat} (h : n < 10) : ofNat n = [CodePoint.ofDigit n] := by
  rw [ofNat, if_pos h]

theorem ofNat_of_le {n : Nat} (h : 10 ≤ n) : ofNat n = ofNat (n / 10) ++ [CodePoint.ofDigit n] := by
  rw [ofNat, if_neg (by omega)]

theorem isAsciiDigit_of_mem_ofNat (n : Nat) : ∀ c ∈ ofNat n, c.isAsciiDigit = true := by
  induction n using Nat.strongRecOn with
  | _ n ih =>
    intro c hc
    rcases Nat.lt_or_ge n 10 with h | h
    · rw [ofNat_of_lt h, List.mem_singleton] at hc
      rw [hc, CodePoint.isAsciiDigit_ofDigit]
    · rw [ofNat_of_le h, List.mem_append, List.mem_singleton] at hc
      rcases hc with hc | rfl
      · exact ih (n / 10) (by omega) c hc
      · exact CodePoint.isAsciiDigit_ofDigit n

theorem length_ofNat_pos (n : Nat) : 0 < (ofNat n).length := by
  rcases Nat.lt_or_ge n 10 with h | h
  · rw [ofNat_of_lt h]
    exact Nat.one_pos
  · rw [ofNat_of_le h, List.length_append]
    exact Nat.succ_pos _

/-- Numbers below a power of ten have no more digits than its exponent says. -/
theorem length_ofNat_le {n k : Nat} (hk : 0 < k) (h : n < 10^k) : (ofNat n).length ≤ k := by
  induction n using Nat.strongRecOn generalizing k with
  | _ n ih =>
    rcases Nat.lt_or_ge n 10 with hn | hn
    · rw [ofNat_of_lt hn]
      exact hk
    · obtain ⟨j,rfl⟩ : ∃ j, k = j+1 := Nat.exists_eq_succ_of_ne_zero (by omega)
      have hj : 0 < j := by
        rcases Nat.eq_zero_or_pos j with rfl | hj
        · omega
        · exact hj
      have htenth : n / 10 < 10^j := by
        rw [Nat.pow_succ] at h
        omega
      have hlength := ih (n / 10) (by omega) hj htenth
      rw [ofNat_of_le hn, List.length_append, List.length_singleton]
      omega

/-- Only the number zero is written with a zero in front. -/
theorem ofNat_eq_cons {n : Nat} (hn : n ≠ 0) :
    ∃ c rest, ofNat n = c :: rest ∧ c ≠ CodePoint.ofChar '0' := by
  induction n using Nat.strongRecOn with
  | _ n ih =>
    rcases Nat.lt_or_ge n 10 with h | h
    · refine ⟨_,[],ofNat_of_lt h,?_⟩
      intro hzero
      have hval := congrArg Fin.val hzero
      simp only [CodePoint.ofDigit, CodePoint.ofChar, Char.reduceToNat] at hval
      omega
    · obtain ⟨c,rest,hc,hne⟩ := ih (n / 10) (by omega) (by omega)
      exact ⟨c,rest ++ [CodePoint.ofDigit n],by rw [ofNat_of_le h, hc, List.cons_append],hne⟩

end Text

end CategorySelection
