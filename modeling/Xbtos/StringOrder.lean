import Xbtos.Strings

/-! The order that kstrcmp gives to strings: the lexicographic order of their bytes, taken as unsigned
values. -/
namespace Xbtos.Strings
open Foundation.Comparison

theorem kstrcmp_swap (str1 str2 : Bytes) :
    kstrcmp str2 str1 = (kstrcmp str1 str2).map fun d => -d := by
  fun_induction kstrcmp str1 str2 with
  | case1 a str1 b str2 both ih =>
    obtain ⟨nonzero,rfl⟩ := both
    rw [kstrcmp_same nonzero,ih]
  | case2 a str1 b str2 ended =>
    have stays : ¬(b ≠ 0 ∧ b = a) := fun both => ended ⟨both.2 ▸ both.1,both.2.symm⟩
    rw [kstrcmp,if_neg stays,Option.map_some,Int.neg_sub]
  | case3 str1 str2 short =>
    cases str2 with
    | nil => rfl
    | cons b str2 =>
      cases str1 with
      | nil => rfl
      | cons a str1 => exact absurd rfl (short a str1 b str2 rfl)

theorem kstrcmp_bounds {str1 str2 : Bytes} {d : Int} (compared : kstrcmp str1 str2 = some d) :
    -255 ≤ d ∧ d ≤ 255 := by
  fun_induction kstrcmp str1 str2 with
  | case1 a str1 b str2 both ih => exact ih compared
  | case2 a str1 b str2 ended =>
    have first := a.toNat_lt
    have second := b.toNat_lt
    cases compared
    omega
  | case3 str1 str2 short => cases compared

def CString.values (s : CString) : List Nat := Strings.values s.bytes

/-- What a call of kstrcmp says of two strings. It reads neither behind its terminator: the call has
its result too where the objects end there. -/
structure Compared (a b : CString) (d : Int) : Prop where
  returned : kstrcmp a.pointer b.pointer = some d
  within : kstrcmp (a.bytes ++ [0]) (b.bytes ++ [0]) = some d
  swapped : kstrcmp b.pointer a.pointer = some (-d)
  bounds : -255 ≤ d ∧ d ≤ 255
  same : d = 0 ↔ a.bytes = b.bytes
  before : d < 0 ↔ a.values < b.values
  behind : 0 < d ↔ b.values < a.values

theorem CString.compared (a b : CString) : ∃ d, Compared a b d := by
  obtain ⟨d,compared,orders⟩ := kstrcmp_orders a.noNul b.noNul
  have returned := compared a.after b.after
  refine ⟨d,returned,compared [] [],?_,kstrcmp_bounds returned,?_,orders.before,orders.behind⟩
  · rw [CString.pointer,CString.pointer,kstrcmp_swap,returned,Option.map_some]
  · rw [orders.equal]
    exact values_inj

/-- The relation of strings that a caller tests by kstrcmp(a, b) <= 0. -/
def Precedes (a b : CString) : Prop := ∃ d ≤ 0, kstrcmp a.pointer b.pointer = some d

/-- kstrcmp(a, b) < 0 -/
def Before (a b : CString) : Prop := ∃ d < 0, kstrcmp a.pointer b.pointer = some d

theorem tested_iff {a b : CString} {d : Int} (test : Int → Prop)
    (returned : kstrcmp a.pointer b.pointer = some d) :
    (∃ e, test e ∧ kstrcmp a.pointer b.pointer = some e) ↔ test d := by
  constructor
  · rintro ⟨e,passes,again⟩
    rw [returned,Option.some.injEq] at again
    rwa [again]
  · exact fun passes => ⟨d,passes,returned⟩

theorem precedes_iff {a b : CString} : Precedes a b ↔ a.values ≤ b.values := by
  obtain ⟨d,compared,orders⟩ := kstrcmp_orders a.noNul b.noNul
  exact (tested_iff (· ≤ 0) (compared a.after b.after)).trans orders.le

theorem before_iff {a b : CString} : Before a b ↔ a.values < b.values := by
  obtain ⟨d,compared,orders⟩ := kstrcmp_orders a.noNul b.noNul
  exact (tested_iff (· < 0) (compared a.after b.after)).trans orders.before

structure TotalOrder : Prop where
  antisymmetric : ∀ a b, Precedes a b → Precedes b a → a.bytes = b.bytes
  transitive : ∀ a b c, Precedes a b → Precedes b c → Precedes a c
  total : ∀ a b, Precedes a b ∨ Precedes b a
  strict : ∀ a b, Before a b ↔ ¬Precedes b a

/-- kstrcmp is the lexicographic order of unsigned bytes. -/
theorem kstrcmp_lexicographic : (∀ a b, ∃ d, Compared a b d) ∧ TotalOrder := by
  refine ⟨CString.compared,?_⟩
  constructor
  case antisymmetric =>
    intro a b first second
    exact values_inj.mp (le_antisymm (precedes_iff.mp first) (precedes_iff.mp second))
  case transitive =>
    intro a b c first second
    exact precedes_iff.mpr ((precedes_iff.mp first).trans (precedes_iff.mp second))
  case total =>
    intro a b
    rw [precedes_iff,precedes_iff]
    exact le_total a.values b.values
  case strict =>
    intro a b
    rw [before_iff,precedes_iff,not_le]

end Xbtos.Strings
