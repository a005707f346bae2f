import Xbtos.VfsTable

/-! Which paths name a file. The grammar is stated without the two loops of normalize_name, and
the lookups that normalise a name again agree with those that do it once. -/
namespace Xbtos.Vfs
open Foundation.Buffer Strings

/-- A path of separators, then the name. -/
structure Names (path name : Bytes) : Prop where
  behind : ∃ separators, path = separators ++ name ∧ ∀ c ∈ separators, c = slash ∨ c = backslash
  filled : 1 ≤ name.length
  short : name.length ≤ 31
  visible : name.head? ≠ some dot
  single : ∀ c ∈ name, c ≠ slash ∧ c ≠ backslash

theorem isPathSeparator_iff (c : UInt8) : isPathSeparator c = true ↔ c = slash ∨ c = backslash :=
  decide_eq_true_iff

theorem isPathSeparator_false (c : UInt8) :
    isPathSeparator c = false ↔ c ≠ slash ∧ c ≠ backslash := by
  rw [← Bool.not_eq_true,isPathSeparator_iff,not_or]

theorem Names.dropped {path name : Bytes} (names : Names path name) :
    path.dropWhile isPathSeparator = name := by
  obtain ⟨separators,rfl,all⟩ := names.behind
  rw [List.dropWhile_append_of_pos fun c member => (isPathSeparator_iff c).mpr (all c member)]
  cases name with
  | nil => rfl
  | cons c name =>
    apply List.dropWhile_cons_of_neg
    rw [(isPathSeparator_false c).mpr (names.single c List.mem_cons_self)]
    exact Bool.false_ne_true

theorem Names.valid {path name : Bytes} (names : Names path name) (noNul : 0 ∉ path) :
    ValidName name := by
  obtain ⟨separators,rfl,_⟩ := names.behind
  refine ⟨List.length_pos_iff.mp names.filled,Nat.lt_succ_of_le names.short,
    fun member => noNul (List.mem_append_right _ member),fun c member => ?_,names.visible⟩
  exact (isPathSeparator_false c).mpr (names.single c member)

theorem ValidName.names {path : Bytes} (valid : ValidName (path.dropWhile isPathSeparator)) :
    Names path (path.dropWhile isPathSeparator) := by
  refine ⟨⟨path.takeWhile isPathSeparator,List.takeWhile_append_dropWhile.symm,fun c member => ?_⟩,
    List.length_pos_iff.mpr valid.nonempty,Nat.le_of_lt_succ valid.short,valid.noDot,
    fun c member => (isPathSeparator_false c).mp (valid.noSeparator c member)⟩
  exact (isPathSeparator_iff c).mp (List.mem_takeWhile_imp member)

theorem copyName_inside {path outName : Bytes} {result : FileResult} {out : Bytes}
    (inside : outName.length ≤ fileNameSize) (returned : copyName path outName = some (result,out)) :
    out.length ≤ fileNameSize := by
  induction path generalizing outName with
  | nil => cases returned
  | cons c path ih =>
    unfold copyName at returned
    split_ifs at returned
    · obtain ⟨one,stored,same⟩ := Option.bind_eq_some_iff.mp returned
      cases same
      exact length_push stored
    · cases returned
      exact inside
    · cases returned
      exact inside
    · obtain ⟨one,stored,rest⟩ := Option.bind_eq_some_iff.mp returned
      exact ih (length_push stored) rest

theorem normalizeName_inside {path : CString} {result : FileResult} {out : Bytes}
    (returned : normalizeName (some path.pointer) = some (result,out)) : out.length ≤ fileNameSize := by
  rw [CString.pointer,normalizeName_text path.after path.noNul] at returned
  split at returned
  next =>
    cases returned
    exact Nat.zero_le _
  next => exact copyName_inside (Nat.zero_le _) returned

/-! The lookups. -/

theorem find_normalized {path other : Option Bytes} (same : normalizeName path = normalizeName other)
    (s : FileSystem) : find path s = find other s := by
  rw [find,find,same]

/-- The lookup inside create selects what find selects. -/
theorem create_lookup {path : Option Bytes} {name : Bytes} (valid : ValidName name)
    (accepted : normalizeName path = some (.ok,name ++ [0])) {s s' : FileSystem} {result : FileResult}
    (created : create path s = some (result,s')) :
    result = .errExists ↔ ∃ slot, find path s = some (some slot) := by
  have again : find (some (name ++ [0])) s = find path s :=
    find_normalized ((normalizeName_name valid).trans accepted.symm) s
  simp only [create,accepted,again,Option.bind_eq_bind,Option.bind_some,ne_eq,not_true_eq_false,
    if_false] at created
  cases found : find path s with
  | none => simp [found] at created
  | some selected =>
    rw [found,Option.bind_some] at created
    cases selected with
    | some slot =>
      cases created
      exact iff_of_true rfl ⟨slot,rfl⟩
    | none =>
      refine iff_of_false ?_ (by simp)
      rintro rfl
      rw [Option.isSome_none,if_neg Bool.false_ne_true] at created
      split at created
      next => cases created
      next =>
        obtain ⟨_,_,rest⟩ := Option.bind_eq_some_iff.mp created
        obtain ⟨_,_,same⟩ := Option.bind_eq_some_iff.mp rest
        cases same

/-- What normalize_name makes of a path, and what the lookups make of the name. -/
structure Grammar (path : CString) : Prop where
  accepted : ∀ name, Names path.bytes name ↔
    normalizeName (some path.pointer) = some (.ok,name ++ [0])
  rejected : (∀ name, ¬Names path.bytes name) →
    (∃ out, normalizeName (some path.pointer) = some (.errInvalidName,out)) ∧
      ∀ s, find (some path.pointer) s = some none
  inside : ∀ result out, normalizeName (some path.pointer) = some (result,out) → out.length ≤ 32
  stable : ∀ name, Names path.bytes name → ∀ rest,
    normalizeName (some (name ++ 0 :: rest)) = some (.ok,name ++ [0])
  lookup : ∀ name, Names path.bytes name → ∀ rest s,
    find (some (name ++ 0 :: rest)) s = find (some path.pointer) s
  create : ∀ name, Names path.bytes name → ∀ s result s',
    create (some path.pointer) s = some (result,s') →
      (result = .errExists ↔ ∃ slot, find (some path.pointer) s = some (some slot))

theorem Names.normalized {path : CString} {name : Bytes} (names : Names path.bytes name) :
    normalizeName (some path.pointer) = some (.ok,name ++ [0]) := by
  have valid := names.valid path.noNul
  rw [← names.dropped] at valid
  have normal := normalizeName_valid path.after path.noNul valid
  rwa [names.dropped] at normal

theorem Names.again {path name : Bytes} (names : Names path name) : Names name name :=
  ⟨⟨[],rfl,by simp⟩,names.filled,names.short,names.visible,names.single⟩

/-- The grammar of the names of files. -/
theorem name_grammar (path : CString) : Grammar path := by
  have stable : ∀ name, Names path.bytes name → ∀ rest,
      normalizeName (some (name ++ 0 :: rest)) = some (.ok,name ++ [0]) := by
    intro name names rest
    have valid := names.valid path.noNul
    have kept := names.again.dropped
    have normal := normalizeName_valid rest valid.noNul (by rwa [kept])
    rwa [kept] at normal
  refine ⟨fun name => ⟨Names.normalized,fun returned => ?_⟩,fun none => ?_,
    fun _ _ => normalizeName_inside,stable,fun name names rest s => ?_,
    fun name names s _ _ => create_lookup (names.valid path.noNul) names.normalized⟩
  · by_cases valid : ValidName (path.bytes.dropWhile isPathSeparator)
    · have normal := valid.names.normalized
      rw [normal,Option.some.injEq,Prod.mk.injEq,List.append_cancel_right_eq] at returned
      exact returned.2 ▸ valid.names
    · obtain ⟨out,rejected⟩ := normalizeName_invalid path.after path.noNul valid
      cases rejected.symm.trans returned
  · obtain ⟨out,rejected⟩ :=
      normalizeName_invalid path.after path.noNul fun valid => none _ valid.names
    exact ⟨⟨out,rejected⟩,fun s => find_invalid s rejected⟩
  · exact find_normalized ((stable name names rest).trans names.normalized.symm) s

end Xbtos.Vfs
