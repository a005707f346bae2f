import Mathlib.Data.List.Lex
import Mathlib.Order.Lattice

/-! Comparisons that tell the order of two values by the sign of a number, and how that of two lists
comes from that of their first values that differ. -/
namespace Foundation.Comparison

structure Orders {α : Type} [LinearOrder α] (d : Int) (x y : α) : Prop where
  before : d < 0 ↔ x < y
  equal : d = 0 ↔ x = y
  behind : 0 < d ↔ y < x

section Values

variable {α : Type} [LinearOrder α] {d : Int} {x y : α}

theorem Orders.of_lt (negative : d < 0) (less : x < y) : Orders d x y :=
  ⟨iff_of_true negative less,iff_of_false (by omega) less.ne,
    iff_of_false (by omega) less.not_gt⟩

theorem Orders.refl (x : α) : Orders 0 x x :=
  ⟨iff_of_false (by omega) (lt_irrefl x),iff_of_true rfl rfl,
    iff_of_false (by omega) (lt_irrefl x)⟩

theorem Orders.swap (orders : Orders d x y) : Orders (-d) y x := by
  constructor
  · rw [← orders.behind]
    exact Int.neg_neg_iff_pos
  · rw [@eq_comm _ y x,← orders.equal]
    exact Int.neg_eq_zero
  · rw [← orders.before]
    exact Int.neg_pos

theorem Orders.of_gt (positive : 0 < d) (greater : y < x) : Orders d x y := by
  have swapped := (Orders.of_lt (Int.neg_neg_iff_pos.mpr positive) greater).swap
  rwa [Int.neg_neg] at swapped

theorem Orders.le (orders : Orders d x y) : d ≤ 0 ↔ x ≤ y := by
  rw [← Int.not_lt,orders.behind,not_lt]

end Values

theorem orders_sub (m n : Nat) : Orders ((m : Int) - n) m n := by
  constructor <;> omega

section Lists

variable {α : Type} [LinearOrder α] {d : Int} {a b : α} {l m : List α}

theorem Orders.cons (a : α) (orders : Orders d l m) : Orders d (a :: l) (a :: m) := by
  constructor
  · rw [List.cons_lt_cons_self,orders.before]
  · rw [List.cons_inj_right,orders.equal]
  · rw [List.cons_lt_cons_self,orders.behind]

theorem Orders.head (orders : Orders d a b) (apart : a ≠ b) (l m : List α) :
    Orders d (a :: l) (b :: m) := by
  rcases lt_or_gt_of_ne apart with less | greater
  · exact .of_lt (orders.before.mpr less) (List.cons_lt_cons_iff.mpr (.inl less))
  · exact .of_gt (orders.behind.mpr greater) (List.cons_lt_cons_iff.mpr (.inl greater))

theorem Orders.nil (negative : d < 0) (a : α) (l : List α) : Orders d [] (a :: l) :=
  .of_lt negative (List.nil_lt_cons a l)

end Lists

end Foundation.Comparison
