import Xbtos.Foundation.ByteMemory
import Xbtos.Foundation.Buffer
import Xbtos.Foundation.Comparison

/-! The string routines of kernel/include/string.h. A pointer to char is the bytes
from it to the end of its object; a read past them has no result, nor has a store
outside the destination. -/
namespace Xbtos.Strings
open Foundation.ByteMemory Foundation.Buffer Foundation.Comparison

abbrev Bytes := List UInt8

/-- A C string in its object, as a caller passes it. -/
structure CString where
  bytes : Bytes
  after : Bytes
  noNul : 0 ∉ bytes
  fits : bytes.length < 2^32

def CString.pointer (s : CString) : Bytes := s.bytes ++ 0 :: s.after

/-- The loop of kstrlen from str[len] on. -/
def countBytes : Bytes → Nat → Option Nat
  | [], _ => none
  | c :: rest, len => if c = 0 then some len else countBytes rest (wrap (len+1))

def kstrlen : Option Bytes → Option Nat
  | none => some 0
  | some str => countBytes str 0

def kstrcmp : Bytes → Bytes → Option Int
  | a :: str1, b :: str2 => if a ≠ 0 ∧ a = b then kstrcmp str1 str2 else some (a.toNat - b.toNat)
  | _, _ => none

/-- Copies to dest + i. -/
def kstrcpy {n : Nat} : Vector UInt8 n → Nat → Bytes → Option (Vector UInt8 n)
  | _, _, [] => none
  | dest, i, c :: src =>
    if c = 0 then store dest i 0
    else do kstrcpy (← store dest i c) (i+1) src

/-- Copies to destination + i. -/
def kmemcpy {n : Nat} : Vector UInt8 n → Nat → Bytes → Nat → Option (Vector UInt8 n)
  | destination, _, _, 0 => some destination
  | _, _, [], _+1 => none
  | destination, i, c :: source, num+1 => do
    kmemcpy (← store destination i c) (i+1) source num

/-- What hal::print_string sends to the console. -/
def printString : Bytes → Option Bytes
  | [] => none
  | c :: rest => if c = 0 then some [] else do return c :: (← printString rest)

def literal (text : String) : Bytes := text.toList.map fun c => UInt8.ofNat c.toNat

theorem countBytes_text {text : Bytes} (rest : Bytes) {len : Nat} (noNul : 0 ∉ text)
    (fits : len + text.length < 2^32) :
    countBytes (text ++ 0 :: rest) len = some (len + text.length) := by
  induction text generalizing len with
  | nil => rfl
  | cons c text ih =>
    rw [List.mem_cons,not_or] at noNul
    rw [List.length_cons] at fits ⊢
    have more : wrap (len+1) = len + 1 := wrap_of_lt (by omega)
    rw [List.cons_append,countBytes,if_neg (Ne.symm noNul.1),more,ih noNul.2 (by omega)]
    exact congrArg some (by omega)

theorem kstrlen_pointer (s : CString) : kstrlen (some s.pointer) = some s.bytes.length := by
  have fits : 0 + s.bytes.length < 2^32 := by simpa using s.fits
  have counted := countBytes_text s.after s.noNul fits
  rwa [Nat.zero_add] at counted

theorem printString_text {text : Bytes} (rest : Bytes) (noNul : 0 ∉ text) :
    printString (text ++ 0 :: rest) = some text := by
  induction text with
  | nil => rfl
  | cons c text ih =>
    rw [List.mem_cons,not_or] at noNul
    rw [List.cons_append,printString,if_neg (Ne.symm noNul.1),ih noNul.2]
    rfl

def values (text : Bytes) : List Nat := text.map UInt8.toNat

theorem values_inj {first second : Bytes} : values first = values second ↔ first = second :=
  (List.map_injective_iff.mpr fun _ _ => UInt8.toNat_inj.mp).eq_iff

/-- A call of kstrcmp goes on behind a byte that both have, and otherwise ends there. -/
theorem kstrcmp_same {a : UInt8} (nonzero : a ≠ 0) (str1 str2 : Bytes) :
    kstrcmp (a :: str1) (a :: str2) = kstrcmp str1 str2 := by
  rw [kstrcmp,if_pos ⟨nonzero,rfl⟩]

theorem kstrcmp_apart {a b : UInt8} (apart : a ≠ b) (str1 str2 : Bytes) :
    kstrcmp (a :: str1) (b :: str2) = some ((a.toNat : Int) - b.toNat) := by
  rw [kstrcmp,if_neg fun both => apart both.2]

theorem toNat_apart {a b : UInt8} (apart : a ≠ b) : a.toNat ≠ b.toNat :=
  fun same => apart (UInt8.toNat_inj.mp same)

theorem kstrcmp_orders {first second : Bytes} (noNul : 0 ∉ first) (clean : 0 ∉ second) :
    ∃ d, (∀ rest other, kstrcmp (first ++ 0 :: rest) (second ++ 0 :: other) = some d) ∧
      Orders d (values first) (values second) := by
  induction first generalizing second with
  | nil =>
    cases second with
    | nil => exact ⟨0,fun _ _ => rfl,.refl _⟩
    | cons b second =>
      have nonzero : b ≠ 0 := fun zero => clean (by simp [zero])
      have positive : 0 < b.toNat := Nat.pos_of_ne_zero (toNat_apart nonzero)
      exact ⟨_,fun rest other => kstrcmp_apart (Ne.symm nonzero) rest (second ++ 0 :: other),
        .nil (Int.sub_neg_of_lt (Int.ofNat_lt.mpr positive)) b.toNat (values second)⟩
  | cons a first ih =>
    rw [List.mem_cons,not_or] at noNul
    have nonzero : a ≠ 0 := Ne.symm noNul.1
    cases second with
    | nil =>
      have positive : 0 < a.toNat := Nat.pos_of_ne_zero (toNat_apart nonzero)
      exact ⟨_,fun rest other => kstrcmp_apart nonzero (first ++ 0 :: rest) other,
        .of_gt (Int.sub_pos_of_lt (Int.ofNat_lt.mpr positive)) (List.nil_lt_cons _ _)⟩
    | cons b second =>
      rw [List.mem_cons,not_or] at clean
      by_cases same : a = b
      · subst same
        obtain ⟨d,compared,orders⟩ := ih noNul.2 clean.2
        refine ⟨d,fun rest other => ?_,orders.cons a.toNat⟩
        rw [List.cons_append,List.cons_append,kstrcmp_same nonzero]
        exact compared rest other
      · exact ⟨_,fun rest other => kstrcmp_apart same (first ++ 0 :: rest) (second ++ 0 :: other),
          (orders_sub a.toNat b.toNat).head (toNat_apart same) _ _⟩

example : kstrcmp (0x80 :: literal "a" ++ [0]) (literal "a" ++ [0]) = some 31 := by decide

theorem kstrcmp_text {first second : Bytes} (rest other : Bytes) (noNul : 0 ∉ first)
    (clean : 0 ∉ second) :
    ∃ d, kstrcmp (first ++ 0 :: rest) (second ++ 0 :: other) = some d ∧
      (d = 0 ↔ first = second) := by
  obtain ⟨d,compared,orders⟩ := kstrcmp_orders noNul clean
  exact ⟨d,compared rest other,orders.equal.trans values_inj⟩

theorem kstrcpy_text {n : Nat} (dest : Vector UInt8 n) (i : Nat) {text : Bytes} (rest : Bytes)
    (noNul : 0 ∉ text) :
    kstrcpy dest i (text ++ 0 :: rest) = storeAll dest i (text ++ [0]) := by
  induction text generalizing dest i with
  | nil => simp [kstrcpy,storeAll]
  | cons c text ih =>
    rw [List.mem_cons,not_or] at noNul
    simp only [List.cons_append,kstrcpy,storeAll,if_neg (Ne.symm noNul.1)]
    exact congrArg _ (funext fun one => ih one (i+1) noNul.2)

theorem kstrcpy_buffer {n : Nat} (dest src : Vector UInt8 n) {text : Bytes} (noNul : 0 ∉ text)
    (begins : text ++ [0] <+: src.toList) :
    ∃ copied, kstrcpy dest 0 src.toList = some copied ∧ text ++ [0] <+: copied.toList := by
  obtain ⟨rest,split⟩ := begins
  have lengths := congrArg List.length split
  rw [List.length_append,src.length_toList] at lengths
  obtain ⟨copied,stored,layout⟩ := storeAll_inside dest (text ++ [0]) (show 0 + _ ≤ n by omega)
  refine ⟨copied,?_,?_⟩
  · rw [← split,List.append_assoc,List.singleton_append,kstrcpy_text dest 0 rest noNul]
    exact stored
  · rw [layout,List.take_zero,List.nil_append]
    exact List.prefix_append _ _

theorem kmemcpy_take {n : Nat} (destination : Vector UInt8 n) (i : Nat) {source : Bytes} {num : Nat}
    (inside : num ≤ source.length) :
    kmemcpy destination i source num = storeAll destination i (source.take num) := by
  induction source generalizing destination i num with
  | nil =>
    have none_left : num = 0 := by simpa using inside
    subst none_left
    rfl
  | cons c source ih =>
    cases num with
    | zero => rfl
    | succ num =>
      simp only [kmemcpy,List.take_succ_cons,storeAll]
      exact congrArg _ (funext fun one => ih one (i+1) (by simpa using inside))

end Xbtos.Strings
