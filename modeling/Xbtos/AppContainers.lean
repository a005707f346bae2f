import Xbtos.AppRegistry

/-! Which applications have containers apart from each other. A path writes a '.' of the
identifier as a '/', keeps 49 bytes of it, and ends in ".app" only where that fits, so
different identifiers can share a container or lie in each other's. -/
namespace Xbtos.App
open Foundation.Buffer Foundation.EntryMap Strings

/-- Neither path is the other, or a directory above it. -/
structure Isolated (first second : Bytes) : Prop where
  different : first ≠ second
  notAbove : ¬first ++ [slash] <+: second
  notBelow : ¬second ++ [slash] <+: first

/-- What a path keeps of an identifier. -/
def kept (identifier : Bytes) : Bytes := (identifier.map pathByte).take 49

/-- An identifier so long that its path has no suffix, and another that goes on with a
separator where this one ends. -/
def Encloses (outer inner : Bytes) : Prop := 45 ≤ outer.length ∧ kept outer ++ [slash] <+: kept inner

structure Apart (first second : Bytes) : Prop where
  kept : kept first ≠ kept second
  notAbove : ¬Encloses first second
  notBelow : ¬Encloses second first

theorem dot_kept (identifier : Bytes) : dot ∉ kept identifier := by
  intro member
  obtain ⟨c,_,same⟩ := List.mem_map.mp (List.mem_of_mem_take member)
  unfold pathByte at same
  split_ifs at same with dotted
  · exact absurd same (by decide)
  · exact dotted same

theorem length_kept (identifier : Bytes) : (kept identifier).length = min 49 identifier.length := by
  rw [kept,List.length_take,List.length_map]

def suffixOf (identifier : Bytes) : Bytes :=
  if identifier.length ≤ 44 then literal ".app" else []

theorem containerOf_kept (identifier : Bytes) :
    containerOf identifier = literal "/Applications/" ++ (kept identifier ++ suffixOf identifier) := by
  rw [containerOf,List.append_assoc]
  rfl

theorem suffixOf_kept (identifier : Bytes) :
    suffixOf identifier = if (kept identifier).length ≤ 44 then literal ".app" else [] := by
  rw [suffixOf,length_kept]
  exact if_congr (by omega) rfl rfl

theorem literal_app : literal ".app" = dot :: literal "app" := rfl

theorem containers_equal (first second : Bytes) :
    containerOf first = containerOf second ↔ kept first = kept second := by
  rw [containerOf_kept,containerOf_kept,List.append_cancel_left_eq]
  constructor
  · have cleanFirst := dot_kept first
    have cleanSecond := dot_kept second
    intro same
    rw [suffixOf,suffixOf] at same
    split_ifs at same
    · exact List.append_cancel_right same
    · rw [List.append_nil,literal_app] at same
      exact absurd (by simp [← same]) cleanSecond
    · rw [List.append_nil,literal_app] at same
      exact absurd (by simp [same]) cleanFirst
    · rwa [List.append_nil,List.append_nil] at same
  · intro same
    rw [suffixOf_kept,suffixOf_kept,same]

/-- A path with a suffix is not above another: the only '.' of a path starts its suffix. -/
theorem suffix_encloses_nothing {outer inner : Bytes} (short : outer.length ≤ 44) :
    ¬kept outer ++ suffixOf outer ++ [slash] <+: kept inner ++ suffixOf inner := by
  rintro ⟨rest,same⟩
  have cleanOuter := dot_kept outer
  have cleanInner := dot_kept inner
  have whole : kept outer ++ dot :: (literal "app" ++ slash :: rest) =
      kept inner ++ suffixOf inner := by
    rw [← same,suffixOf,if_pos short,literal_app]
    simp
  unfold suffixOf at whole
  split_ifs at whole
  · rw [literal_app] at whole
    have front := congrArg (upTo dot) whole
    rw [upTo_append _ cleanOuter,upTo_append _ cleanInner] at front
    rw [front,List.append_cancel_left_eq] at whole
    have lengths := congrArg List.length whole
    simp [literal] at lengths
  · rw [List.append_nil] at whole
    exact cleanInner (by simp [← whole])

theorem container_above (outer inner : Bytes) :
    containerOf outer ++ [slash] <+: containerOf inner ↔ Encloses outer inner := by
  rw [containerOf_kept,containerOf_kept,List.append_assoc (literal _),List.prefix_append_right_inj]
  by_cases short : outer.length ≤ 44
  · exact iff_of_false (suffix_encloses_nothing short) fun encloses => by
      have long := encloses.1
      omega
  · have none_left : suffixOf outer = [] := if_neg short
    rw [none_left,List.append_nil,Encloses,and_iff_right (by omega)]
    constructor
    · intro above
      unfold suffixOf at above
      split_ifs at above with small
      · -- the path of outer would reach over the '.' of the suffix
        have dotted : kept inner ++ [dot] <+: kept inner ++ literal ".app" := ⟨literal "app",by
          rw [literal_app,List.append_assoc,List.singleton_append]⟩
        have reached := List.prefix_of_prefix_length_le dotted ((List.prefix_append _ _).trans above) (by
          rw [List.length_append,List.length_singleton,length_kept,length_kept]
          omega)
        exact absurd (reached.subset (by simp)) (dot_kept outer)
      · rwa [List.append_nil] at above
    · intro encloses
      exact encloses.trans (List.prefix_append _ _)

theorem isolated_iff (first second : Bytes) :
    Isolated (containerOf first) (containerOf second) ↔ Apart first second := by
  constructor
  · rintro ⟨different,notAbove,notBelow⟩
    rw [ne_eq,containers_equal] at different
    rw [container_above] at notAbove notBelow
    exact ⟨different,notAbove,notBelow⟩
  · rintro ⟨different,notAbove,notBelow⟩
    refine ⟨?_,?_,?_⟩
    · rwa [ne_eq,containers_equal]
    · rwa [container_above]
    · rwa [container_above]

theorem containerOf_text (identifier : CString) :
    upTo 0 (containerOf identifier.bytes ++ [0]) = containerOf identifier.bytes := by
  apply upTo_append
  rw [containerOf_kept,List.mem_append,List.mem_append,not_or,not_or]
  refine ⟨by decide,fun member => ?_,?_⟩
  · obtain ⟨c,original,same⟩ := List.mem_map.mp (List.mem_of_mem_take member)
    unfold pathByte at same
    split_ifs at same
    · exact absurd same (by decide)
    · exact identifier.noNul (same ▸ original)
  · unfold suffixOf
    split_ifs <;> decide

theorem Registry.launch_known {ε : Type} {m : AppManager ε} {live : List (Registration ε)}
    (registry : Registry m live) {identifier : CString}
    (known : identifier.bytes ∈ live.map Registration.name) :
    ∃ l entry context, launch (some identifier.pointer) m = some l ∧
      l.entered = [(entry,context)] ∧
      upTo 0 context.sandbox.containerPath = containerOf identifier.bytes := by
  cases first : registered live identifier with
  | none => exact absurd known (registered_none.mp first)
  | some r =>
    obtain ⟨printed,_,launched⟩ := registry.launch_present first
    exact ⟨_,_,_,launched,rfl,containerOf_text identifier⟩

/-- The containers launch builds for two registered identifiers are isolated exactly when
what the paths keep of the identifiers is apart. -/
theorem containers_isolated_iff {ε : Type} {m : AppManager ε} {calls : List (Call ε × AppResult)}
    (run : Run m calls) (first second : CString)
    (known : first.bytes ∈ (registrations calls).map Registration.name)
    (alsoKnown : second.bytes ∈ (registrations calls).map Registration.name) :
    ∃ l₁ l₂ e₁ e₂ c₁ c₂, launch (some first.pointer) m = some l₁ ∧ l₁.entered = [(e₁,c₁)] ∧
      launch (some second.pointer) m = some l₂ ∧ l₂.entered = [(e₂,c₂)] ∧
      (Isolated (upTo 0 c₁.sandbox.containerPath) (upTo 0 c₂.sandbox.containerPath) ↔
        Apart first.bytes second.bytes) := by
  obtain ⟨l₁,e₁,c₁,launched₁,entered₁,path₁⟩ := run.registry.launch_known known
  obtain ⟨l₂,e₂,c₂,launched₂,entered₂,path₂⟩ := run.registry.launch_known alsoKnown
  refine ⟨l₁,l₂,e₁,e₂,c₁,c₂,launched₁,entered₁,launched₂,entered₂,?_⟩
  rw [path₁,path₂]
  exact isolated_iff first.bytes second.bytes

def otherIdentifier : CString := ⟨literal "a/b",[],by decide,by decide⟩
def thirdIdentifier : CString := ⟨literal "ab",[],by decide,by decide⟩

def registrationOf (identifier : CString) : Registration Unit :=
  ⟨⟨some identifier,none,none,0⟩,identifier,(),rfl⟩

def bothCalls (first second : CString) : List (Call Unit × AppResult) :=
  [(.register (some (registrationOf first).manifest) (some ()),.ok),
    (.register (some (registrationOf second).manifest) (some ()),.ok)]

theorem registrations_both (first second : CString) :
    registrations (bothCalls first second) = [registrationOf first,registrationOf second] := rfl

theorem run_both {first second : CString} (different : first.bytes ≠ second.bytes) :
    ∃ m, Run m (bothCalls first second) := by
  obtain ⟨_,run⟩ := (Run.init blankManager).next (registrationOf first) (by decide) (by
    simp [registrations])
  have before : registrations [(Call.register (some (registrationOf first).manifest)
      (some (registrationOf first).entry),AppResult.ok)] = [registrationOf first] := rfl
  obtain ⟨m,both⟩ := run.next (registrationOf second) (by
    rw [List.nil_append,before]; exact show 1 < maxApps by decide) (by
    rw [List.nil_append,before]
    simpa [Registration.name,registrationOf] using Ne.symm different)
  exact ⟨m,both⟩

theorem containers_isolated_sample : ∃ (l₁ l₂ : Launch Unit) (c₁ c₂ : AppContext),
    l₁.entered = [((),c₁)] ∧ l₂.entered = [((),c₂)] ∧
      Isolated (upTo 0 c₁.sandbox.containerPath) (upTo 0 c₂.sandbox.containerPath) := by
  obtain ⟨m,run⟩ := run_both (show sampleIdentifier.bytes ≠ thirdIdentifier.bytes by decide)
  obtain ⟨l₁,l₂,_,_,c₁,c₂,_,entered₁,_,entered₂,isolated⟩ :=
    containers_isolated_iff run sampleIdentifier thirdIdentifier (by
      rw [registrations_both]; decide) (by rw [registrations_both]; decide)
  refine ⟨l₁,l₂,c₁,c₂,entered₁,entered₂,isolated.mpr ⟨by decide,?_,?_⟩⟩
  · exact fun encloses => absurd encloses.1 (by decide)
  · exact fun encloses => absurd encloses.1 (by decide)

/-- The applications a.b and a/b run in one container. -/
theorem container_shared : ∃ (m : AppManager Unit) (l₁ l₂ : Launch Unit) (c₁ c₂ : AppContext),
    Run m (bothCalls sampleIdentifier otherIdentifier) ∧
      sampleIdentifier.bytes ≠ otherIdentifier.bytes ∧
      launch (some sampleIdentifier.pointer) m = some l₁ ∧ l₁.entered = [((),c₁)] ∧
      launch (some otherIdentifier.pointer) m = some l₂ ∧ l₂.entered = [((),c₂)] ∧
      ¬Isolated (upTo 0 c₁.sandbox.containerPath) (upTo 0 c₂.sandbox.containerPath) := by
  obtain ⟨m,run⟩ := run_both (show sampleIdentifier.bytes ≠ otherIdentifier.bytes by decide)
  have registry := run.registry
  rw [registrations_both] at registry
  obtain ⟨l₁,_,c₁,launched₁,entered₁,path₁⟩ :=
    registry.launch_known (show sampleIdentifier.bytes ∈ _ by decide)
  obtain ⟨l₂,_,c₂,launched₂,entered₂,path₂⟩ :=
    registry.launch_known (show otherIdentifier.bytes ∈ _ by decide)
  refine ⟨m,l₁,l₂,c₁,c₂,run,by decide,launched₁,entered₁,launched₂,entered₂,fun isolated => ?_⟩
  apply isolated.different
  rw [path₁,path₂]
  decide

end Xbtos.App
