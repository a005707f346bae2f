import Xbtos.Shell
import Mathlib.Data.List.TakeWhile

/-! The parts of a command line. Every parsing function yields C strings again. -/
namespace Xbtos.Shell
open Foundation.Buffer Strings
open I18n (isWord)

theorem isWord_text {text : Bytes} (rest : Bytes) (noNul : 0 ∉ text) {word : String}
    (clean : 0 ∉ literal word) :
    isWord (text ++ 0 :: rest) word = some (decide (text = literal word)) := by
  obtain ⟨d,compared,zero⟩ := kstrcmp_text rest [] noNul clean
  simp only [isWord,compared,Option.bind_eq_bind,Option.bind_some,zero]
  rfl

theorem startsWith_text {text : Bytes} (rest : Bytes) {word : Bytes} (clean : 0 ∉ word) :
    startsWith (text ++ 0 :: rest) (word ++ [0]) = some (decide (word <+: text)) := by
  induction word generalizing text with
  | nil =>
    rw [List.nil_append,startsWith.eq_def]
    simp
  | cons p word ih =>
    rw [List.mem_cons,not_or] at clean
    rw [List.cons_append,startsWith.eq_def]
    simp only [Ne.symm clean.1,if_false]
    cases text with
    | nil => simp [clean.1]
    | cons c text =>
      simp only [List.cons_append,List.cons_prefix_cons]
      by_cases same : c = p
      · rw [if_neg (not_not.mpr same),ih clean.2]
        simp [same]
      · rw [if_pos same]
        simp [Ne.symm same]

theorem skipSpaces_text (text rest : Bytes) :
    skipSpaces (text ++ 0 :: rest) = some (text.dropWhile (· = space) ++ 0 :: rest) := by
  induction text with
  | nil => rfl
  | cons c text ih =>
    by_cases blank : c = space
    · rw [List.cons_append,skipSpaces,if_pos blank,ih,List.dropWhile_cons_of_pos (by simpa using blank)]
    · rw [List.cons_append,skipSpaces,if_neg blank,List.dropWhile_cons_of_neg (by simpa using blank)]
      rfl

theorem skipToken_text {text : Bytes} (rest : Bytes) (noNul : 0 ∉ text) :
    skipToken (text ++ 0 :: rest) = some (text.dropWhile (· ≠ space) ++ 0 :: rest) := by
  induction text with
  | nil => rfl
  | cons c text ih =>
    rw [List.mem_cons,not_or] at noNul
    by_cases blank : c = space
    · rw [List.cons_append,skipToken,if_neg fun both => both.2 blank,
        List.dropWhile_cons_of_neg (by simpa using blank)]
      rfl
    · rw [List.cons_append,skipToken,if_pos ⟨Ne.symm noNul.1,blank⟩,ih noNul.2,
        List.dropWhile_cons_of_pos (by simpa using blank)]

theorem copyTokenFrom_text {outSize : Nat} {text : Bytes} (rest : Bytes) {out : Bytes}
    (noNul : 0 ∉ text) (room : out.length < outSize) :
    copyTokenFrom outSize (text ++ 0 :: rest) out =
      some (out ++ (text.takeWhile (· ≠ space)).take (outSize - 1 - out.length) ++ [0]) := by
  induction text generalizing out with
  | nil => simpa [copyTokenFrom] using push_inside (0 : UInt8) room
  | cons c text ih =>
    rw [List.mem_cons,not_or] at noNul
    rw [List.cons_append,copyTokenFrom]
    by_cases blank : c = space
    · rw [if_neg fun all => all.2.1 blank,List.takeWhile_cons_of_neg (by simpa using blank),
        push_inside 0 room]
      simp
    · rw [List.takeWhile_cons_of_pos (by simpa using blank)]
      by_cases more : out.length + 1 < outSize
      · have left : outSize - 1 - out.length = outSize - 1 - (out ++ [c]).length + 1 := by
          rw [List.length_append,List.length_singleton]
          omega
        rw [if_pos ⟨Ne.symm noNul.1,blank,more⟩,push_inside c room,Option.bind_eq_bind,
          Option.bind_some,ih noNul.2 (by rw [List.length_append,List.length_singleton]; exact more),
          left,List.take_succ_cons]
        simp
      · have full : outSize - 1 - out.length = 0 := by omega
        rw [if_neg fun all => more all.2.2,full,push_inside 0 room,List.take_zero,List.append_nil]

/-! The same of C strings. -/

/-- A C string further on in the same object. -/
def tail (s : CString) (bytes : Bytes) (inside : bytes <:+ s.bytes) : CString :=
  ⟨bytes,s.after,fun member => s.noNul (inside.subset member),
    Nat.lt_of_le_of_lt inside.length_le s.fits⟩

def skipped (s : CString) : CString := tail s (s.bytes.dropWhile (· = space)) (List.dropWhile_suffix _)

def afterToken (s : CString) : CString :=
  tail s (s.bytes.dropWhile (· ≠ space)) (List.dropWhile_suffix _)

def token (s : CString) : CString :=
  ⟨(s.bytes.takeWhile (· ≠ space)).take (Vfs.fileNameSize - 1),[],fun member =>
    s.noNul ((List.takeWhile_sublist _).mem (List.mem_of_mem_take member)),
    Nat.lt_of_le_of_lt (Nat.le_trans (List.length_take_le _ _)
      (show Vfs.fileNameSize - 1 ≤ 31 by decide)) (by decide)⟩

/-- The command from its n-th byte on. -/
def argsFrom (n : Nat) (cmd : CString) : CString := tail cmd (cmd.bytes.drop n) (List.drop_suffix _ _)

theorem skipSpaces_pointer (s : CString) : skipSpaces s.pointer = some (skipped s).pointer :=
  skipSpaces_text s.bytes s.after

theorem skipToken_pointer (s : CString) : skipToken s.pointer = some (afterToken s).pointer :=
  skipToken_text s.after s.noNul

theorem copyToken_pointer (s : CString) :
    copyToken s.pointer Vfs.fileNameSize = some (token s).pointer :=
  copyTokenFrom_text s.after s.noNul (by decide)

theorem isWord_pointer (s : CString) {word : String} (clean : 0 ∉ literal word) :
    isWord s.pointer word = some (decide (s.bytes = literal word)) :=
  isWord_text s.after s.noNul clean

theorem startsWith_pointer (s : CString) {word : Bytes} (clean : 0 ∉ word) :
    startsWith s.pointer (word ++ [0]) = some (decide (word <+: s.bytes)) :=
  startsWith_text s.after clean

theorem drop_pointer {n : Nat} {s : CString} (inside : n ≤ s.bytes.length) :
    s.pointer.drop n = (argsFrom n s).pointer :=
  List.drop_append_of_le_length inside

/-- The content of rec and append. -/
def contentOf (args : CString) : CString := skipped (afterToken (skipped args))

theorem fileArguments_pointer (args : CString) :
    fileArguments args.pointer = some ((token (skipped args)).pointer,(contentOf args).pointer) := by
  simp only [fileArguments,skipSpaces_pointer,copyToken_pointer,skipToken_pointer,
    Option.bind_eq_bind,Option.bind_some]
  rfl

end Xbtos.Shell
