import Mathlib.Data.Nat.Bitwise

/-! Sets of numbers stored as an array of machine words, one bit each: which numbers
are absent (bit clear), and what setting or clearing one bit does to them. -/
namespace Foundation.BitSet

/-- The bit of f is clear, in words of the given width. -/
def Absent (width : Nat) (words : Nat → Nat) (f : Nat) : Prop :=
  (words (f / width)).testBit (f % width) = false

theorem testBit_set (x j k : Nat) : (x ||| 1 <<< j).testBit k = (x.testBit k || decide (j = k)) := by
  rw [Nat.testBit_or,Nat.one_shiftLeft,Nat.testBit_two_pow]

theorem testBit_clear (width x j k : Nat) (inside : k < width) :
    (x &&& (2^width - 1 ^^^ 1 <<< j)).testBit k = (x.testBit k && !decide (j = k)) := by
  rw [Nat.testBit_and,Nat.testBit_xor,Nat.testBit_two_pow_sub_one,Nat.one_shiftLeft,
    Nat.testBit_two_pow]
  simp [inside]

theorem and_bit_eq_zero (x j : Nat) : x &&& 1 <<< j = 0 ↔ x.testBit j = false := by
  rw [Nat.one_shiftLeft,Nat.and_two_pow]
  cases x.testBit j <;> simp

theorem full_iff {width x : Nat} (small : x < 2^width) :
    x = 2^width - 1 ↔ ∀ j < width, x.testBit j = true := by
  constructor
  · rintro rfl j inside
    simp [Nat.testBit_two_pow_sub_one,inside]
  · intro all
    apply Nat.eq_of_testBit_eq
    intro j
    rw [Nat.testBit_two_pow_sub_one]
    by_cases inside : j < width
    · simp [inside,all j inside]
    · have above : x < 2^j := Nat.lt_of_lt_of_le small (Nat.pow_le_pow_right (by omega) (by omega))
      simp [inside,Nat.testBit_lt_two_pow above]

theorem set_lt {width x j : Nat} (small : x < 2^width) (inside : j < width) :
    x ||| 1 <<< j < 2^width := by
  rw [Nat.one_shiftLeft]
  exact Nat.or_lt_two_pow small (Nat.pow_lt_pow_right (by omega) inside)

theorem clear_lt {width x : Nat} (mask : Nat) (small : x < 2^width) : x &&& mask < 2^width :=
  Nat.lt_of_le_of_lt Nat.and_le_left small

theorem clear_set {width x j : Nat} (small : x < 2^width) (bit : j < width)
    (clear : x.testBit j = false) : (x ||| 1 <<< j) &&& (2^width - 1 ^^^ 1 <<< j) = x := by
  apply Nat.eq_of_testBit_eq
  intro k
  by_cases inside : k < width
  · rw [testBit_clear width _ _ _ inside,testBit_set]
    by_cases same : j = k
    · subst same
      simp [clear]
    · simp [same]
  · have above : x < 2^k := Nat.lt_of_lt_of_le small (Nat.pow_le_pow_right (by omega) (by omega))
    have other : j ≠ k := by omega
    rw [Nat.testBit_lt_two_pow above,Nat.testBit_and,Nat.testBit_xor,
      Nat.testBit_two_pow_sub_one,Nat.one_shiftLeft,Nat.testBit_two_pow]
    simp [inside,other]

theorem digits_eq_iff {width f g : Nat} (sameWord : f / width = g / width) :
    g % width = f % width ↔ f = g := by
  constructor
  · intro sameBit
    rw [← Nat.div_add_mod f width,← Nat.div_add_mod g width,sameWord,sameBit]
  · rintro rfl
    rfl

theorem absent_set {width : Nat} {words words' : Nat → Nat} {g : Nat}
    (written : words' (g / width) = words (g / width) ||| 1 <<< (g % width))
    (kept : ∀ i, i ≠ g / width → words' i = words i) (f : Nat) :
    Absent width words' f ↔ Absent width words f ∧ f ≠ g := by
  unfold Absent
  by_cases sameWord : f / width = g / width
  · rw [sameWord,written,testBit_set,Bool.or_eq_false_iff,decide_eq_false_iff_not]
    rw [digits_eq_iff sameWord]
  · rw [kept _ sameWord]
    have other : f ≠ g := fun same => sameWord (same ▸ rfl)
    simp [other]

theorem absent_clear {width : Nat} (positive : 0 < width) {words words' : Nat → Nat} {g : Nat}
    (written : words' (g / width) = words (g / width) &&& (2^width - 1 ^^^ 1 <<< (g % width)))
    (kept : ∀ i, i ≠ g / width → words' i = words i) (f : Nat) :
    Absent width words' f ↔ Absent width words f ∨ f = g := by
  unfold Absent
  by_cases sameWord : f / width = g / width
  · rw [sameWord,written,testBit_clear width _ _ _ (Nat.mod_lt f positive)]
    rw [Bool.and_eq_false_iff,Bool.not_eq_false',decide_eq_true_iff,digits_eq_iff sameWord]
  · rw [kept _ sameWord]
    have other : f ≠ g := fun same => sameWord (same ▸ rfl)
    simp [other]

end Foundation.BitSet
