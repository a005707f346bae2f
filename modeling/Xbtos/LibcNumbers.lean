import Xbtos.VfsRefinement
import Xbtos.Shell
import Xbtos.Libc
import Xbtos.Foundation.Numeral

/-! The numbers that are printed. A listing, the shell and libc each take the digits of a number in
a loop of their own; all come to its one canonical numeral. -/
namespace Xbtos.Libc
open Foundation.Buffer Foundation.Numeral Strings

/-- The character of a digit. -/
def glyph (digit : Nat) : UInt8 := (literal "0123456789abcdef").getD digit 0

def glyphs (digits : List Nat) : Bytes := digits.map glyph

theorem glyph_decimal : ∀ d < 10, UInt8.ofNat (48 + d) = glyph d := by decide

theorem digitByte_glyph : ∀ d < 16, digitByte d = glyph d := by decide

theorem glyphs_numeral {base n : Nat} {digit : Nat → UInt8} (large : 1 < base)
    (shown : ∀ d < base, digit d = glyph d) :
    (if n = 0 then [48] else ((Nat.digits base n).map digit).reverse) =
      glyphs (numeral base n) := by
  unfold glyphs numeral
  split_ifs with zero
  · rfl
  · rw [List.map_reverse,List.map_congr_left fun d member =>
      shown d (Nat.digits_lt_base large member)]

theorem storeDigits_digits {base r value : Nat} {buffer : Bytes} (large : 1 < base)
    (fits : value < base^r) (room : buffer.length + r ≤ 32) :
    storeDigits base r value buffer =
      some (buffer ++ (Nat.digits base value).map digitByte) := by
  induction r generalizing value buffer with
  | zero =>
    have zero : value = 0 := by simpa using fits
    simp [zero,storeDigits]
  | succ r ih =>
    rw [storeDigits]
    by_cases positive : 0 < value
    · have shorter : value / base < base^r := by
        rw [Nat.div_lt_iff_lt_mul (by omega)]
        exact fits
      have pushed := push_inside (digitByte (value % base)) (show buffer.length < 32 by omega)
      rw [if_pos positive,pushed,Option.bind_eq_bind,Option.bind_some,
        ih shorter (by simp; omega),Nat.digits_def' large positive]
      simp
    · have zero : value = 0 := by omega
      simp [zero]

theorem storeDigits_buffer {base : Nat} (large : 1 < base) (n : UInt32) :
    storeDigits base 32 n.toNat [] = some ((Nat.digits base n.toNat).map digitByte) := by
  have fits : n.toNat < base^32 :=
    Nat.lt_of_lt_of_le n.toNat_lt (Nat.pow_le_pow_left large 32)
  exact storeDigits_digits large fits (show ([] : Bytes).length + 32 ≤ 32 by simp)

theorem printUnsigned_glyphs {n : UInt32} {base : Nat} (large : 1 < base) (small : base ≤ 16) :
    printUnsigned n base = some ((glyphs (numeral base n.toNat)).map .printChar) := by
  have shown : ∀ d < base, digitByte d = glyph d := fun d below => digitByte_glyph d (by omega)
  rw [printUnsigned,← glyphs_numeral large shown,storeDigits_buffer large]
  by_cases zero : n = 0
  · subst zero
    rfl
  · have real : n.toNat ≠ 0 := fun null => zero (UInt32.toNat_inj.mp null)
    rw [if_neg zero,if_neg real]
    rfl

theorem printUint_glyphs {n : Nat} (fits : n < 10^12) :
    Shell.printUint n = (glyphs (numeral 10 n)).map .printChar := by
  rw [Shell.printUint,← glyphs_numeral (by decide) glyph_decimal,Vfs.reverseDigits_digits fits]
  split <;> rfl

theorem sizeText_glyphs {n : Nat} (fits : n < 10^11) :
    Vfs.sizeText n = some (glyphs (numeral 10 n) ++ [0]) := by
  rw [Vfs.sizeText_decimal fits,← glyphs_numeral (by decide) glyph_decimal]
  rfl

theorem digits_few {base : Nat} (large : 10 ≤ base) (n : UInt32) :
    (Nat.digits base n.toNat).length ≤ 10 := by
  have ten : n.toNat < 10^10 := Nat.lt_trans n.toNat_lt (by decide)
  exact (Nat.digits_length_le_iff (by omega) n.toNat).mpr
    (Nat.lt_of_lt_of_le ten (Nat.pow_le_pow_left large 10))

/-- What is printed of a number: tens and sixteens are its one canonical numeral in each base,
every printer gives the characters of the one or the other, and no buffer comes to its end. -/
structure Printed (n : UInt32) (tens sixteens : List Nat) : Prop where
  decimal : ∀ digits, Canonical 10 n.toNat digits ↔ digits = tens
  hexadecimal : ∀ digits, Canonical 16 n.toNat digits ↔ digits = sixteens
  size : Vfs.sizeText n.toNat = some (glyphs tens ++ [0])
  shell : Shell.printUint n.toNat = (glyphs tens).map .printChar
  unsigned : printUnsigned n 10 = some ((glyphs tens).map .printChar)
  lower : printUnsigned n 16 = some ((glyphs sixteens).map .printChar)
  reversed : (Vfs.reverseDigits 12 n.toNat []).length ≤ 10
  buffer : ∀ base, base = 10 ∨ base = 16 →
    ∃ stored, storeDigits base 32 n.toNat [] = some stored ∧ stored.length ≤ 10

/-- The size of a listing, the shell and libc print the same numerals. -/
theorem printers_agree (n : UInt32) : ∃ tens sixteens, Printed n tens sixteens := by
  have fits : n.toNat < 10^11 := Nat.lt_trans n.toNat_lt (by decide)
  have places : n.toNat < 10^12 := Nat.lt_trans fits (by decide)
  refine ⟨numeral 10 n.toNat,numeral 16 n.toNat,?_⟩
  constructor
  case decimal => exact fun _ => canonical_iff (by decide)
  case hexadecimal => exact fun _ => canonical_iff (by decide)
  case size => exact sizeText_glyphs fits
  case shell => exact printUint_glyphs places
  case unsigned => exact printUnsigned_glyphs (by decide) (by decide)
  case lower => exact printUnsigned_glyphs (by decide) (by decide)
  case reversed =>
    rw [Vfs.reverseDigits_digits places,List.nil_append,List.length_map]
    exact digits_few (by decide) n
  case buffer =>
    intro base either
    refine ⟨_,storeDigits_buffer (by omega) n,?_⟩
    rw [List.length_map]
    exact digits_few (by omega) n

end Xbtos.Libc
