import Xbtos.LibcRoundTrip

/-! What atoi reads of a text: white space, a sign, and the digits that follow. -/
namespace Xbtos.Libc
open Foundation.Buffer Foundation.Numeral Strings

def blank (c : UInt8) : Bool := isspace (promote c)

def figure (c : UInt8) : Bool := isdigit (promote c)

/-- The digits a text begins with. -/
def figures (text : Bytes) : List Nat := (text.takeWhile figure).map fun c => c.toNat - 48

def negative (text : Bytes) : Bool := (text.dropWhile blank).head? == some minus

def unsigned (text : Bytes) : Bytes :=
  if negative text then (text.dropWhile blank).tail else text.dropWhile blank

def magnitude (text : Bytes) : Nat := horner 10 0 (figures (unsigned text))

theorem int_above {result : Int} (above : 2^31 ≤ result) : int result = none := by
  unfold int
  rw [if_neg]
  omega

theorem promote_figure {c : UInt8} (digit : figure c = true) : promote c - 48 = ((c.toNat - 48 : Nat) : Int) := by
  have bounds : 48 ≤ promote c ∧ promote c ≤ 57 := of_decide_eq_true digit
  have byte := c.toNat_lt
  have word : promote c = c.toBitVec.toInt := rfl
  have size : c.toBitVec.toNat = c.toNat := rfl
  rw [BitVec.toInt_eq_toNat_cond,size] at word
  split at word <;> omega

theorem skipSpaces_text (text after : Bytes) :
    skipSpaces (text ++ 0 :: after) = some (text.dropWhile blank ++ 0 :: after) := by
  induction text with
  | nil => rfl
  | cons c text ih =>
    rw [List.cons_append,skipSpaces,List.dropWhile_cons]
    unfold blank
    split
    next => exact ih
    next => rfl

/-- One of the operations overflows just when the value of the digits is no int. -/
theorem readDigits_figures (text after : Bytes) {value : Int32} {n : Nat} (read : value.toInt = n) :
    readDigits value (text ++ 0 :: after) = int (horner 10 n (figures text)) := by
  induction text generalizing value n with
  | nil =>
    rw [List.nil_append,readDigits,if_neg (by decide),← int_own value,read]
    rfl
  | cons c text ih =>
    have same : figure c = isdigit (promote c) := rfl
    rw [List.cons_append,readDigits,figures,List.takeWhile_cons,same]
    cases digit : isdigit (promote c) with
    | false =>
      rw [if_neg Bool.false_ne_true,if_neg Bool.false_ne_true,← int_own value,read]
      rfl
    | true =>
      have rises := le_horner (show 0 < 10 by decide) (n * 10 + (c.toNat - 48)) (figures text)
      rw [if_pos rfl,if_pos rfl,List.map_cons,horner,List.foldl_cons,← horner,promote_figure digit,read,← figures]
      by_cases fits : n * 10 + (c.toNat - 48) < 2^31
      · obtain ⟨tens,multiplied,isTens⟩ := int_inside ((n : Int) * 10) (by omega) (by omega)
        obtain ⟨next,added,isNext⟩ := int_inside (tens.toInt + (c.toNat - 48 : Nat)) (by omega) (by omega)
        rw [multiplied,Option.bind_eq_bind,Option.bind_some,added,Option.bind_some]
        exact ih (by omega)
      · rw [int_above (show (2^31 : Int) ≤ horner 10 (n * 10 + (c.toNat - 48)) (figures text) by omega)]
        by_cases tens : n * 10 < 2^31
        · obtain ⟨ten,multiplied,isTens⟩ := int_inside ((n : Int) * 10) (by omega) (by omega)
          rw [multiplied,Option.bind_eq_bind,Option.bind_some,
            int_above (show (2^31 : Int) ≤ ten.toInt + (c.toNat - 48 : Nat) by omega)]
          rfl
        · rw [int_above (show (2^31 : Int) ≤ (n : Int) * 10 by omega)]
          rfl

/-- atoi gives the number that the digits after white space and a '-' are, up to the first character
that is none, and an operation overflows just when that number without its sign is no int. -/
theorem atoi_reads (text : CString) : atoi text.pointer =
    if magnitude text.bytes < 2^31 then
      some (Int32.ofInt (if negative text.bytes then -magnitude text.bytes else magnitude text.bytes))
    else none := by
  have zero : (0 : Int32).toInt = (0 : Nat) := rfl
  have digits := readDigits_figures (unsigned text.bytes) text.after zero
  rw [← magnitude] at digits
  have signed : atoi text.pointer = (int (magnitude text.bytes)).bind fun value =>
      int (value.toInt * if negative text.bytes then -1 else 1) := by
    rw [← digits,atoi,CString.pointer,skipSpaces_text,Option.bind_eq_bind,Option.bind_some]
    unfold unsigned negative
    cases rest : text.bytes.dropWhile blank with
    | nil => rfl
    | cons c rest =>
      rw [List.cons_append]
      dsimp only
      by_cases sign : c = minus
      · rw [if_pos sign,if_pos sign]
        simp [sign]
      · rw [if_neg sign,if_neg sign]
        simp [sign]
  rw [signed]
  by_cases fits : magnitude text.bytes < 2^31
  · obtain ⟨value,small,same⟩ := int_inside (magnitude text.bytes : Int) (by omega) (by omega)
    rw [if_pos fits,small,Option.bind_some,same,int]
    cases negative text.bytes with
    | false => rw [if_neg Bool.false_ne_true,if_neg Bool.false_ne_true,Int.mul_one,if_pos (by omega)]
    | true => rw [if_pos rfl,if_pos rfl,Int.mul_neg_one,if_pos (by omega)]
  · rw [if_neg fits,int_above (by omega)]
    rfl

end Xbtos.Libc
