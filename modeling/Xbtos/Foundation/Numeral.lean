import Mathlib.Data.Nat.Digits.Lemmas

/-! Numerals in a base: the digits of a number, the most significant first, with no leading zero
but for the number zero. -/
namespace Foundation.Numeral

structure Canonical (base n : Nat) (digits : List Nat) : Prop where
  value : Nat.ofDigits base digits.reverse = n
  below : ∀ d ∈ digits, d < base
  filled : digits ≠ []
  leading : digits.head? = some 0 → digits = [0]

def numeral (base n : Nat) : List Nat :=
  if n = 0 then [0] else (Nat.digits base n).reverse

theorem below_numeral {base n d : Nat} (large : 1 < base) (member : d ∈ numeral base n) :
    d < base := by
  unfold numeral at member
  split_ifs at member
  · rw [List.mem_singleton.mp member]
    omega
  · exact Nat.digits_lt_base large (List.mem_reverse.mp member)

theorem canonical_numeral {base : Nat} (large : 1 < base) (n : Nat) :
    Canonical base n (numeral base n) := by
  refine ⟨?_,fun d => below_numeral large,?_,?_⟩
  · unfold numeral
    split_ifs with zero
    · simp [zero]
    · rw [List.reverse_reverse,Nat.ofDigits_digits]
  · unfold numeral
    split_ifs with zero
    · simp
    · rw [ne_eq,List.reverse_eq_nil_iff]
      exact Nat.digits_ne_nil_iff_ne_zero.mpr zero
  · unfold numeral
    split_ifs with zero
    · exact fun _ => rfl
    · intro leading
      rw [List.head?_reverse,List.getLast?_eq_some_getLast (Nat.digits_ne_nil_iff_ne_zero.mpr zero),
        Option.some.injEq] at leading
      exact absurd leading (Nat.getLast_digit_ne_zero base zero)

theorem Canonical.eq_numeral {base n : Nat} (large : 1 < base) {digits : List Nat}
    (canonical : Canonical base n digits) : digits = numeral base n := by
  by_cases zero : digits.head? = some 0
  · have single := canonical.leading zero
    have value := canonical.value
    rw [single] at value ⊢
    have null : n = 0 := by simpa using value.symm
    rw [numeral,if_pos null]
  · have last : ∀ filled : digits.reverse ≠ [], digits.reverse.getLast filled ≠ 0 := by
      intro filled null
      apply zero
      rw [← List.getLast?_reverse,List.getLast?_eq_some_getLast filled,null]
    have taken := Nat.digits_ofDigits base large digits.reverse
      (fun d member => canonical.below d (List.mem_reverse.mp member)) last
    rw [canonical.value] at taken
    have real : n ≠ 0 := by
      rintro rfl
      rw [Nat.digits_zero] at taken
      exact canonical.filled (List.reverse_eq_nil_iff.mp taken.symm)
    rw [numeral,if_neg real,taken,List.reverse_reverse]

theorem canonical_iff {base : Nat} (large : 1 < base) {n : Nat} {digits : List Nat} :
    Canonical base n digits ↔ digits = numeral base n :=
  ⟨Canonical.eq_numeral large,fun same => same ▸ canonical_numeral large n⟩

/-! The value of digits that are read from the left. -/

def horner (base value : Nat) (digits : List Nat) : Nat :=
  digits.foldl (fun value d => value * base + d) value

theorem le_horner {base : Nat} (positive : 0 < base) (value : Nat) (digits : List Nat) :
    value ≤ horner base value digits := by
  induction digits generalizing value with
  | nil => exact Nat.le_refl value
  | cons d digits ih =>
    calc value ≤ value * base := Nat.le_mul_of_pos_right value positive
      _ ≤ value * base + d := Nat.le_add_right _ _
      _ ≤ horner base value (d :: digits) := ih (value * base + d)

theorem horner_ofDigits (base : Nat) (digits : List Nat) :
    horner base 0 digits = Nat.ofDigits base digits.reverse := by
  rw [Nat.ofDigits_eq_foldr,List.foldr_reverse,horner]
  congr
  funext value d
  rw [Nat.cast_id,Nat.add_comm,Nat.mul_comm]

theorem Canonical.horner {base n : Nat} {digits : List Nat} (canonical : Canonical base n digits) :
    horner base 0 digits = n := (horner_ofDigits base digits).trans canonical.value

end Foundation.Numeral
