import Xbtos.Vfs

/-! The names normalize_name yields: the path without its leading separators, when that
is a valid name. A valid name is its own normal form. -/
namespace Xbtos.Vfs
open Foundation.ByteMemory Foundation.Buffer Strings

structure ValidName (name : Bytes) : Prop where
  nonempty : name ≠ []
  short : name.length < fileNameSize
  noNul : 0 ∉ name
  noSeparator : ∀ c ∈ name, isPathSeparator c = false
  noDot : name.head? ≠ some dot

/-- The name normalize_name yields for a path. -/
def norm (path : Option Bytes) : Option Bytes :=
  match normalizeName path with
  | some (.ok,outName) => some (upTo 0 outName)
  | _ => none

theorem skipSeparators_text (text rest : Bytes) :
    skipSeparators (text ++ 0 :: rest) = some (text.dropWhile isPathSeparator ++ 0 :: rest) := by
  induction text with
  | nil => rfl
  | cons c text ih =>
    by_cases separator : isPathSeparator c = true
    · rw [List.cons_append,skipSeparators,if_pos separator,ih,List.dropWhile_cons_of_pos separator]
    · rw [List.cons_append,skipSeparators,if_neg separator,List.dropWhile_cons_of_neg separator]
      rfl

theorem copyName_valid {text : Bytes} (rest : Bytes) {outName : Bytes} (noNul : 0 ∉ text)
    (noSeparator : ∀ c ∈ text, isPathSeparator c = false)
    (short : outName.length + text.length < fileNameSize) :
    copyName (text ++ 0 :: rest) outName = some (.ok,outName ++ text ++ [0]) := by
  induction text generalizing outName with
  | nil =>
    have stored := push_inside (0 : UInt8) (show outName.length < fileNameSize by simpa using short)
    simp [copyName,stored]
  | cons c text ih =>
    rw [List.mem_cons,not_or] at noNul
    rw [List.length_cons] at short
    have plain : isPathSeparator c = false := noSeparator c List.mem_cons_self
    have room : ¬fileNameSize - 1 ≤ outName.length := by omega
    have stored := push_inside c (show outName.length < fileNameSize by omega)
    rw [List.cons_append,copyName,if_neg (Ne.symm noNul.1),if_neg (by simp [plain]),if_neg room,stored]
    have more : (outName ++ [c]).length + text.length < fileNameSize := by
      rw [List.length_append,List.length_singleton]
      omega
    have copied := ih noNul.2 (fun d member => noSeparator d (List.mem_cons_of_mem c member)) more
    simpa using copied

theorem copyName_invalid {text : Bytes} (rest : Bytes) {outName : Bytes} (noNul : 0 ∉ text)
    (begun : outName.length < fileNameSize)
    (invalid : ¬((∀ c ∈ text, isPathSeparator c = false) ∧
      outName.length + text.length < fileNameSize)) :
    ∃ out, copyName (text ++ 0 :: rest) outName = some (.errInvalidName,out) := by
  induction text generalizing outName with
  | nil => exact absurd ⟨by simp,by simpa using begun⟩ invalid
  | cons c text ih =>
    rw [List.mem_cons,not_or] at noNul
    rw [List.cons_append,copyName,if_neg (Ne.symm noNul.1)]
    by_cases separator : isPathSeparator c = true
    · exact ⟨outName,if_pos separator⟩
    · rw [if_neg separator]
      by_cases full : fileNameSize - 1 ≤ outName.length
      · exact ⟨outName,if_pos full⟩
      · rw [if_neg full,push_inside c begun]
        apply ih noNul.2 (by simp; omega)
        rintro ⟨noSeparator,short⟩
        apply invalid
        refine ⟨?_,by simp at short ⊢; omega⟩
        simpa [separator] using noSeparator

/-- The checks before the copy look at the path behind its separators only. -/
theorem normalizeName_text {text : Bytes} (rest : Bytes) (noNul : 0 ∉ text) :
    normalizeName (some (text ++ 0 :: rest)) =
      if text.dropWhile isPathSeparator = [] ∨ (text.dropWhile isPathSeparator).head? = some dot then
        some (.errInvalidName,[])
      else copyName (text.dropWhile isPathSeparator ++ 0 :: rest) [] := by
  have skipped := skipSeparators_text text rest
  have clean : 0 ∉ text.dropWhile isPathSeparator :=
    fun member => noNul ((List.dropWhile_sublist _).mem member)
  cases text with
  | nil => simp [normalizeName]
  | cons c text =>
    have nonzero : c ≠ 0 := fun zero => noNul (by simp [zero])
    generalize (c :: text).dropWhile isPathSeparator = name at skipped clean
    rw [List.cons_append] at skipped ⊢
    cases name with
    | nil => simp [normalizeName,skipped]
    | cons d name =>
      have real : d ≠ 0 := fun zero => clean (by simp [zero])
      by_cases dotted : d = dot <;> simp [normalizeName,nonzero,skipped,real,dotted]

theorem normalizeName_valid {text : Bytes} (rest : Bytes) (noNul : 0 ∉ text)
    (valid : ValidName (text.dropWhile isPathSeparator)) :
    normalizeName (some (text ++ 0 :: rest)) =
      some (.ok,text.dropWhile isPathSeparator ++ [0]) := by
  have accepted : ¬(text.dropWhile isPathSeparator = [] ∨
      (text.dropWhile isPathSeparator).head? = some dot) :=
    fun bad => bad.elim valid.nonempty valid.noDot
  rw [normalizeName_text rest noNul,if_neg accepted]
  exact copyName_valid rest valid.noNul valid.noSeparator (by simpa using valid.short)

theorem normalizeName_invalid {text : Bytes} (rest : Bytes) (noNul : 0 ∉ text)
    (invalid : ¬ValidName (text.dropWhile isPathSeparator)) :
    ∃ out, normalizeName (some (text ++ 0 :: rest)) = some (.errInvalidName,out) := by
  have clean : 0 ∉ text.dropWhile isPathSeparator :=
    fun member => noNul ((List.dropWhile_sublist _).mem member)
  rw [normalizeName_text rest noNul]
  split
  next => exact ⟨[],rfl⟩
  next accepted =>
    rw [not_or] at accepted
    apply copyName_invalid rest clean (by decide)
    rintro ⟨noSeparator,short⟩
    exact invalid ⟨accepted.1,by simpa using short,clean,noSeparator,accepted.2⟩

/-- A valid name is its own normal form, so find may normalise it again. -/
theorem normalizeName_name {name : Bytes} (valid : ValidName name) :
    normalizeName (some (name ++ [0])) = some (.ok,name ++ [0]) := by
  have kept : name.dropWhile isPathSeparator = name := by
    obtain ⟨c,rest,rfl⟩ := List.exists_cons_of_ne_nil valid.nonempty
    apply List.dropWhile_cons_of_neg
    rw [valid.noSeparator c List.mem_cons_self]
    exact Bool.false_ne_true
  have normal := normalizeName_valid [] valid.noNul (by rwa [kept])
  rwa [kept] at normal

def pointerOf (path : Option CString) : Option Bytes := path.map CString.pointer

theorem normalizeName_cases (path : Option CString) :
    (norm (pointerOf path) = none ∧
      ∃ out, normalizeName (pointerOf path) = some (.errInvalidName,out)) ∨
    ∃ name, ValidName name ∧ norm (pointerOf path) = some name ∧
      normalizeName (pointerOf path) = some (.ok,name ++ [0]) := by
  cases path with
  | none => exact .inl ⟨rfl,[],rfl⟩
  | some path =>
    have text : pointerOf (some path) = some (path.bytes ++ 0 :: path.after) := rfl
    by_cases valid : ValidName (path.bytes.dropWhile isPathSeparator)
    · have normal := normalizeName_valid path.after path.noNul valid
      refine .inr ⟨_,valid,?_,by rw [text,normal]⟩
      simp only [norm,text,normal,upTo_append [] valid.noNul]
    · obtain ⟨out,normal⟩ := normalizeName_invalid path.after path.noNul valid
      exact .inl ⟨by simp only [norm,text,normal],out,by rw [text,normal]⟩

theorem norm_valid {path : Option CString} {name : Bytes}
    (normal : norm (pointerOf path) = some name) : ValidName name := by
  rcases normalizeName_cases path with ⟨bad,_⟩ | ⟨other,valid,good,_⟩
  · rw [bad] at normal
    cases normal
  · rw [good] at normal
    cases normal
    exact valid

end Xbtos.Vfs
