import Xbtos.LibcNumbers

/-! Numbers through text and back: atoi reads what print_signed prints. -/
namespace Xbtos.Libc
open Foundation.Numeral Strings

theorem int_inside (result : Int) (lower : -2^31 ≤ result) (upper : result < 2^31) :
    ∃ value, int result = some value ∧ value.toInt = result :=
  ⟨Int32.ofInt result,if_pos ⟨lower,upper⟩,Int32.toInt_ofInt_of_le lower upper⟩

theorem int_own (value : Int32) : int value.toInt = some value := by
  obtain ⟨again,returned,same⟩ := int_inside value.toInt value.le_toInt value.toInt_lt
  rw [returned,Int32.toInt_inj.mp same]

/-! atoi on the characters of digits. -/

theorem promote_glyph : ∀ d < 10, promote (glyph d) = 48 + d := by decide

theorem isdigit_glyph : ∀ d < 10, isdigit (promote (glyph d)) = true := by decide

theorem skipSpaces_other {c : UInt8} (other : isspace (promote c) = false) (text : Bytes) :
    skipSpaces (c :: text) = some (c :: text) := by
  rw [skipSpaces,other,if_neg Bool.false_ne_true]

/-- No value on the way is above the last one. -/
theorem readDigits_glyphs {digits : List Nat} (small : ∀ d ∈ digits, d < 10) (after : Bytes)
    {value : Int32} {n : Nat} (read : value.toInt = n) (fits : horner 10 n digits < 2^31) :
    ∃ last, readDigits value (glyphs digits ++ 0 :: after) = some last ∧
      last.toInt = horner 10 n digits := by
  induction digits generalizing value n with
  | nil => exact ⟨value,rfl,read⟩
  | cons d digits ih =>
    rw [List.forall_mem_cons] at small
    have below : n * 10 + d < 2^31 :=
      Nat.lt_of_le_of_lt (le_horner (by decide) (n * 10 + d) digits) fits
    have promoted : promote (glyph d) - 48 = d := by
      rw [promote_glyph d small.1]
      omega
    obtain ⟨tens,multiplied,isTens⟩ := int_inside (value.toInt * 10) (by omega) (by omega)
    obtain ⟨next,added,isNext⟩ := int_inside (tens.toInt + d) (by omega) (by omega)
    have held : next.toInt = ((n * 10 + d : Nat) : Int) := by omega
    obtain ⟨last,returned,isLast⟩ := ih small.2 held fits
    refine ⟨last,?_,isLast⟩
    rw [glyphs,List.map_cons,List.cons_append,readDigits,if_pos (isdigit_glyph d small.1),multiplied,
      Option.bind_eq_bind,Option.bind_some,promoted,added,Option.bind_some]
    exact returned

theorem numeral_filled (n : Nat) : ∃ d digits, numeral 10 n = d :: digits ∧ d < 10 := by
  have canonical := canonical_numeral (show 1 < 10 by decide) n
  obtain ⟨d,digits,split⟩ := List.exists_cons_of_ne_nil canonical.filled
  exact ⟨d,digits,split,canonical.below d (by rw [split]; exact List.mem_cons_self)⟩

theorem readDigits_numeral {n : Nat} (fits : n < 2^31) (after : Bytes) :
    ∃ value, readDigits 0 (glyphs (numeral 10 n) ++ 0 :: after) = some value ∧
      value.toInt = n := by
  have canonical := canonical_numeral (show 1 < 10 by decide) n
  have zero : (0 : Int32).toInt = (0 : Nat) := rfl
  obtain ⟨value,returned,read⟩ :=
    readDigits_glyphs canonical.below after zero (canonical.horner.symm ▸ fits)
  rw [canonical.horner] at read
  exact ⟨value,returned,read⟩

theorem digit_begins : ∀ d < 10, isspace (promote (glyph d)) = false ∧ glyph d ≠ minus := by
  decide

theorem atoi_numeral {n : Nat} (fits : n < 2^31) (after : Bytes) :
    atoi (glyphs (numeral 10 n) ++ 0 :: after) = int n := by
  obtain ⟨value,returned,read⟩ := readDigits_numeral fits after
  obtain ⟨d,digits,split,small⟩ := numeral_filled n
  obtain ⟨filled,unsigned⟩ := digit_begins d small
  rw [split,glyphs,List.map_cons,List.cons_append] at returned ⊢
  rw [atoi,skipSpaces_other filled,Option.bind_eq_bind,Option.bind_some]
  dsimp only
  rw [if_neg unsigned,if_neg unsigned,returned,Option.bind_eq_bind,Option.bind_some,read,Int.mul_one]

theorem atoi_minus {n : Nat} (fits : n < 2^31) (after : Bytes) :
    atoi (minus :: glyphs (numeral 10 n) ++ 0 :: after) = int (-n) := by
  obtain ⟨value,returned,read⟩ := readDigits_numeral fits after
  have other : isspace (promote minus) = false := by decide
  rw [List.cons_append,atoi,skipSpaces_other other,Option.bind_eq_bind,Option.bind_some]
  dsimp only
  rw [if_pos rfl,if_pos rfl,returned,Option.bind_eq_bind,Option.bind_some,read,Int.mul_neg_one]

/-! print_signed. -/

/-- The text that print_signed prints is read as the number, and no signed operation overflows. -/
def RoundTrips (v : Int32) : Prop :=
  ∃ text, printSigned v = some (text.map .printChar) ∧
    ∀ after, atoi (text ++ 0 :: after) = some v

theorem toUInt32_natural {v : Int32} (natural : 0 ≤ v.toInt) :
    (v.toUInt32.toNat : Int) = v.toInt := by
  have zero : (0 : Int32) ≤ v := Int32.le_iff_toInt_le.mpr natural
  rw [Int32.toNat_toUInt32_of_le zero]
  exact Int.toNat_of_nonneg natural

theorem roundTrips_natural {v : Int32} (natural : 0 ≤ v.toInt) : RoundTrips v := by
  have word := toUInt32_natural natural
  have upper := v.toInt_lt
  refine ⟨glyphs (numeral 10 v.toUInt32.toNat),?_,fun after => ?_⟩
  · have unsigned : ¬v < 0 := fun negative =>
      absurd (Int32.lt_iff_toInt_lt.mp negative) (Int.not_lt.mpr natural)
    rw [printSigned,if_neg unsigned]
    exact printUnsigned_glyphs (by decide) (by decide)
  · rw [atoi_numeral (by omega),word]
    exact int_own v

theorem roundTrips_negative {v : Int32} (negative : v.toInt < 0) (inside : -2^31 < v.toInt) :
    RoundTrips v := by
  obtain ⟨magnitude,negated,value⟩ := int_inside (-v.toInt) (by omega) (by omega)
  have word := toUInt32_natural (v := magnitude) (by omega)
  refine ⟨minus :: glyphs (numeral 10 magnitude.toUInt32.toNat),?_,fun after => ?_⟩
  · have signed : v < 0 := Int32.lt_iff_toInt_lt.mpr negative
    have printed : printUnsigned magnitude.toUInt32 10 =
        some ((glyphs (numeral 10 magnitude.toUInt32.toNat)).map .printChar) :=
      printUnsigned_glyphs (by decide) (by decide)
    rw [printSigned,if_pos signed,negated,Option.bind_eq_bind,Option.bind_some,printed]
    rfl
  · rw [atoi_minus (by omega),word,value,Int.neg_neg]
    exact int_own v

/-- -2147483648 has a magnitude that is no int. -/
theorem printSigned_least : printSigned Int32.minValue = none := by decide

/-- Every number but the least goes through its text and back. -/
theorem roundTrips_iff (v : Int32) : RoundTrips v ↔ v ≠ Int32.minValue := by
  constructor
  · rintro ⟨text,printed,_⟩ rfl
    rw [printSigned_least] at printed
    cases printed
  · intro other
    have lower := v.le_toInt
    have apart : v.toInt ≠ -2^31 := fun same => other (Int32.toInt_inj.mp same)
    rcases lt_or_ge v.toInt 0 with negative | natural
    · exact roundTrips_negative negative (by omega)
    · exact roundTrips_natural natural

/-- Printing the least number negates it. Its text would overflow again where it is read. -/
theorem least_overflows : ¬RoundTrips Int32.minValue ∧ printSigned Int32.minValue = none ∧
    atoi (literal "-2147483648" ++ [0]) = none := by
  refine ⟨?_,printSigned_least,by decide⟩
  rintro ⟨text,printed,_⟩
  rw [printSigned_least] at printed
  cases printed

end Xbtos.Libc
