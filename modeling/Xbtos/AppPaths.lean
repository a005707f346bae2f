import Xbtos.AppContainers

/-! The path of a container as text: where it is the whole path of its identifier, and that no
identifier leads out of the directory of the applications. -/
namespace Xbtos.App
open Foundation.Buffer Strings

/-! The whole path. -/

/-- The path of an identifier, whatever its length. -/
def fullPath (identifier : Bytes) : Bytes :=
  literal "/Applications/" ++ identifier.map (fun c => if c = dot then slash else c) ++ literal ".app"

/-- A path that fits is built, and what is built always fits. -/
structure ExactPath (identifier : CString) : Prop where
  exact : (fullPath identifier.bytes).length + 1 ≤ 64 →
    buildContainerPath (some identifier.pointer) containerPathSize =
      some (fullPath identifier.bytes ++ [0])
  terminated : ∃ path, buildContainerPath (some identifier.pointer) containerPathSize =
    some (path ++ [0]) ∧ 0 ∉ path ∧ path.length + 1 ≤ 64

theorem length_fullPath (identifier : Bytes) :
    (fullPath identifier).length = identifier.length + 18 := by
  have base : (literal "/Applications/").length = 14 := rfl
  have suffix : (literal ".app").length = 4 := rfl
  rw [fullPath,List.length_append,List.length_append,List.length_map,base,suffix]
  omega

theorem length_containerOf (identifier : Bytes) : (containerOf identifier).length + 1 ≤ 64 := by
  have base : (literal "/Applications/").length = 14 := rfl
  have suffix : (literal ".app").length = 4 := rfl
  have cut := length_kept identifier
  rw [containerOf_kept,List.length_append,List.length_append,base,suffixOf]
  split_ifs
  · rw [suffix]
    omega
  · rw [List.length_nil]
    omega

theorem noNul_containerOf (identifier : CString) : 0 ∉ containerOf identifier.bytes := by
  rw [← containerOf_text identifier]
  exact notMem_upTo 0 _

/-- The identifier of 45 bytes is the one whose path fits and is built without its suffix. -/
theorem containerOf_full (identifier : Bytes) (fits : identifier.length ≤ 45) :
    containerOf identifier = fullPath identifier ↔ identifier.length ≠ 45 := by
  have whole : kept identifier = identifier.map pathByte :=
    List.take_of_length_le (by rw [List.length_map]; omega)
  have same : fullPath identifier = literal "/Applications/" ++ (kept identifier ++ literal ".app") := by
    rw [whole,← List.append_assoc]
    rfl
  rw [containerOf_kept,same,List.append_cancel_left_eq,List.append_cancel_left_eq,suffixOf]
  split_ifs with short
  · exact iff_of_true rfl (by omega)
  · exact iff_of_false (by decide) (by omega)

/-- The path that is built is exact, but for the identifiers of 45 bytes. -/
theorem path_exact_iff (identifier : CString) :
    ExactPath identifier ↔ identifier.bytes.length ≠ 45 := by
  have built := buildContainerPath_text identifier
  have terminated : ∃ path, buildContainerPath (some identifier.pointer) containerPathSize =
      some (path ++ [0]) ∧ 0 ∉ path ∧ path.length + 1 ≤ 64 :=
    ⟨_,built,noNul_containerOf identifier,length_containerOf identifier.bytes⟩
  have length := length_fullPath identifier.bytes
  constructor
  · intro exactPath at45
    have whole := exactPath.exact (by omega)
    rw [built,Option.some.injEq,List.append_cancel_right_eq] at whole
    exact (containerOf_full _ (by omega)).mp whole at45
  · refine fun other => ⟨fun fits => ?_,terminated⟩
    rw [built,(containerOf_full _ (by omega)).mpr other]

/-- An identifier of 45 letters. -/
def longIdentifier : CString := ⟨List.replicate 45 97,[],by simp,by simp⟩

theorem suffix_missing : ¬ExactPath longIdentifier := by
  intro exactPath
  have whole := exactPath.exact (by rw [length_fullPath]; decide)
  rw [buildContainerPath_text] at whole
  exact absurd whole (by decide)

/-! Inside the directory of the applications. -/

/-- A path in the directory of the applications that does not lead out of it. -/
structure Confined (path : Bytes) : Prop where
  below : literal "/Applications/" <+: path
  components : ∀ part ∈ path.splitOn slash, part ≠ [dot] ∧ part ≠ [dot,dot]
  dots : dot ∉ path ∨ ∃ front, path = front ++ literal ".app" ∧ dot ∉ front

/-- The '.' of the suffix is followed by an 'a', so no component is made of it alone. -/
theorem suffix_component {front part : Bytes} (clean : dot ∉ front)
    (member : part ∈ (front ++ literal ".app").splitOn slash) (dots : ∀ c ∈ part, c = dot) :
    part = [] := by
  obtain ⟨before,after,split,ends⟩ := mem_splitOn member
  cases part with
  | nil => rfl
  | cons c part =>
    obtain rfl := dots c List.mem_cons_self
    rw [literal_app,List.append_assoc,List.cons_append] at split
    have counts := congrArg (List.count dot) split
    rw [List.count_append,List.count_append,List.count_cons_self,List.count_cons_self,
      List.count_append,List.count_eq_zero.mpr clean] at counts
    have none : List.count dot (literal "app") = 0 := by decide
    have cleanBefore : dot ∉ before := List.count_eq_zero.mp (by omega)
    have cleanPart : dot ∉ part := List.count_eq_zero.mp (by omega)
    have front_before := congrArg (upTo dot) split
    rw [upTo_append _ clean,upTo_append _ cleanBefore] at front_before
    rw [front_before,List.append_cancel_left_eq,List.cons.injEq] at split
    cases part with
    | nil =>
      have first : after = literal "app" := split.2.symm
      exact absurd (ends 97 (by rw [first]; rfl)) (by decide)
    | cons d part =>
      exact absurd (dots d (List.mem_cons_of_mem _ List.mem_cons_self) ▸ List.mem_cons_self) cleanPart

theorem notDots {part : Bytes} (empty : (∀ c ∈ part, c = dot) → part = []) :
    part ≠ [dot] ∧ part ≠ [dot,dot] := by
  constructor
  · rintro rfl
    exact absurd (empty (by simp)) (by simp)
  · rintro rfl
    exact absurd (empty (by simp)) (by simp)

theorem confined_containerOf (identifier : Bytes) : Confined (containerOf identifier) := by
  have base : dot ∉ literal "/Applications/" := by decide
  have clean : dot ∉ literal "/Applications/" ++ kept identifier := by
    rw [List.mem_append,not_or]
    exact ⟨base,dot_kept identifier⟩
  rw [containerOf_kept,← List.append_assoc]
  have below : literal "/Applications/" <+:
      literal "/Applications/" ++ kept identifier ++ suffixOf identifier := by
    rw [List.append_assoc]
    exact List.prefix_append _ _
  generalize literal "/Applications/" ++ kept identifier = front at below clean ⊢
  unfold suffixOf at below ⊢
  split_ifs at below ⊢
  · exact ⟨below,fun part member => notDots (suffix_component clean member),.inr ⟨front,rfl,clean⟩⟩
  · rw [List.append_nil] at below ⊢
    refine ⟨below,fun part member => notDots fun dots => ?_,.inl clean⟩
    obtain ⟨before,after,split,_⟩ := mem_splitOn member
    apply List.eq_nil_iff_forall_not_mem.mpr
    intro c inside
    apply clean
    rw [split,← dots c inside]
    simp [inside]

theorem launch_entered {ε : Type} {m : AppManager ε} {identifier : Option Bytes} {l : Launch ε}
    (launched : launch identifier m = some l) {entered : ε × AppContext} (member : entered ∈ l.entered) :
    buildContainerPath identifier containerPathSize = some entered.2.sandbox.containerPath := by
  obtain ⟨found,_,rest⟩ := Option.bind_eq_some_iff.mp launched
  cases found with
  | none =>
    cases rest
    cases member
  | some i =>
    obtain ⟨bundle,_,rest⟩ := Option.bind_eq_some_iff.mp rest
    obtain ⟨path,built,rest⟩ := Option.bind_eq_some_iff.mp rest
    obtain ⟨entry,_,same⟩ := Option.bind_eq_some_iff.mp rest
    cases same
    rw [List.mem_singleton.mp member,built]

/-- The path that is built for an identifier does not lead out of the directory, and every
application is entered with such a path. -/
theorem identifier_confined {ε : Type} (identifier : CString) :
    (∃ path, buildContainerPath (some identifier.pointer) containerPathSize = some path ∧
      Confined (upTo 0 path)) ∧
    ∀ (m : AppManager ε) (l : Launch ε), launch (some identifier.pointer) m = some l →
      ∀ entered ∈ l.entered, Confined (upTo 0 entered.2.sandbox.containerPath) := by
  have built := buildContainerPath_text identifier
  have confined : Confined (upTo 0 (containerOf identifier.bytes ++ [0])) := by
    rw [containerOf_text]
    exact confined_containerOf identifier.bytes
  refine ⟨⟨_,built,confined⟩,fun m l launched entered member => ?_⟩
  have same := (launch_entered launched member).symm.trans built
  rwa [Option.some.inj same]

end Xbtos.App
