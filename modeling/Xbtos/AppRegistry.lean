import Xbtos.App
import Xbtos.Foundation.PackedTable
import Xbtos.Foundation.EntryMap

/-! The applications registered in any run: at most sixteen, each under the identifier it
was first registered with. -/
namespace Xbtos.App
open Foundation.Buffer Foundation.PackedTable Foundation.EntryMap Strings

/-! The path of a container. -/

theorem copyMapped_text (f : UInt8 → UInt8) {outSize : Nat} {text : Bytes} (rest : Bytes)
    {outPath : Bytes} (noNul : 0 ∉ text) (room : outPath.length < outSize) :
    copyMapped f outSize (text ++ 0 :: rest) outPath =
      some (outPath ++ (text.map f).take (outSize - 1 - outPath.length)) := by
  induction text generalizing outPath with
  | nil => simp [copyMapped]
  | cons c text ih =>
    rw [List.mem_cons,not_or] at noNul
    rw [List.cons_append,copyMapped]
    by_cases more : outPath.length + 1 < outSize
    · have left : outSize - 1 - outPath.length = outSize - 1 - (outPath ++ [f c]).length + 1 := by
        rw [List.length_append,List.length_singleton]
        omega
      rw [if_pos ⟨Ne.symm noNul.1,more⟩,push_inside (f c) room,Option.bind_eq_bind,Option.bind_some,
        ih noNul.2 (by rw [List.length_append,List.length_singleton]; exact more),left,
        List.map_cons,List.take_succ_cons,List.append_assoc,List.singleton_append]
    · have full : outSize - 1 - outPath.length = 0 := by omega
      rw [if_neg fun both => more both.2,full,List.take_zero,List.append_nil]

/-- The path of the container of an identifier. The suffix is left out where it does not fit. -/
def containerOf (identifier : Bytes) : Bytes :=
  literal "/Applications/" ++ (identifier.map pathByte).take 49 ++
    if identifier.length ≤ 44 then literal ".app" else []

theorem buildContainerPath_text (identifier : CString) :
    buildContainerPath (some identifier.pointer) containerPathSize =
      some (containerOf identifier.bytes ++ [0]) := by
  have base : (literal "/Applications/").length = 14 := rfl
  have first := copyMapped_text id [] (show 0 ∉ literal "/Applications/" by decide)
    (show ([] : Bytes).length < containerPathSize by decide)
  have whole : ([] ++ ((literal "/Applications/").map id).take (containerPathSize - 1 - 0)) =
      literal "/Applications/" := rfl
  rw [List.length_nil,whole] at first
  have second := copyMapped_text pathByte identifier.after identifier.noNul
    (show (literal "/Applications/").length < containerPathSize by decide)
  have length : (literal "/Applications/" ++ (identifier.bytes.map pathByte).take 49).length =
      14 + min 49 identifier.bytes.length := by
    rw [List.length_append,List.length_take,List.length_map,base]
  have short : (literal ".app").length = 4 := rfl
  simp only [buildContainerPath,first,CString.pointer,Option.bind_eq_bind,Option.bind_some,second]
  simp only [base,containerPathSize,Nat.reduceSub,length,containerOf]
  by_cases fits : identifier.bytes.length ≤ 44
  · rw [if_pos (by omega),if_pos fits,pushAll_inside _ (by rw [length,short]; omega),
      Option.bind_some]
    exact push_inside 0 (by rw [List.length_append,length,short]; omega)
  · rw [if_neg (by omega),if_neg fits,List.append_nil]
    exact push_inside 0 (by rw [length]; omega)

/-! The table. -/

section
variable {ε : Type}

/-- What a successful registration leaves in a slot. -/
structure Registration (ε : Type) where
  manifest : AppManifest
  identifier : CString
  entry : ε
  named : manifest.identifier = some identifier

def Registration.bundle (r : Registration ε) : AppBundle ε := ⟨r.manifest,some r.entry,true⟩

def Registration.name (r : Registration ε) : Bytes := r.identifier.bytes

/-- The registrations in use are live, in this order. -/
structure Registry (m : AppManager ε) (live : List (Registration ε)) : Prop where
  packed : Packed zeroBundle m.apps (live.map Registration.bundle)
  count : m.appCount = live.length
  distinct : Distinct Registration.name live

theorem registry_init (m : AppManager ε) : Registry (init m) [] :=
  ⟨packed_replicate maxApps zeroBundle,rfl,List.nodup_nil⟩

theorem Registry.slot {m : AppManager ε} {live : List (Registration ε)} (registry : Registry m live)
    {i : Nat} (inside : i < live.length) : m.apps[i]? = some live[i].bundle := by
  have bound : i < (live.map Registration.bundle).length := by rwa [List.length_map]
  rw [registry.packed.slot bound,List.getElem_map]

theorem Registry.room {m : AppManager ε} {live : List (Registration ε)}
    (registry : Registry m live) : live.length ≤ maxApps := by
  have room := registry.packed.room
  rwa [List.length_map] at room

theorem compare_identifiers (a b : CString) :
    ∃ d, kstrcmp a.pointer b.pointer = some d ∧ (d = 0 ↔ a.bytes = b.bytes) :=
  kstrcmp_text a.after b.after a.noNul b.noNul

theorem Registry.findFrom {m : AppManager ε} {live : List (Registration ε)}
    (registry : Registry m live) (identifier : CString) {r i : Nat} (left : i + r = live.length) :
    ∃ found, App.findFrom m (some identifier.pointer) r i = some found ∧
      (found.bind fun j => live[j]?) = (live.drop i).find? (fun r => r.name = identifier.bytes) ∧
      ∀ j ∈ found, j < live.length := by
  induction r generalizing i with
  | zero =>
    have done : live.drop i = [] := List.drop_eq_nil_of_le (by omega)
    exact ⟨none,rfl,by rw [done]; rfl,by simp⟩
  | succ r ih =>
    have inside : i < live.length := by omega
    have slot := registry.slot inside
    obtain ⟨d,compared,zero⟩ := compare_identifiers live[i].identifier identifier
    have front := List.drop_eq_getElem_cons inside
    simp only [App.findFrom,slot,Registration.bundle,live[i].named,pointerOf,Option.map_some,
      Option.bind_eq_bind,Option.bind_some,if_true,compared]
    by_cases same : live[i].name = identifier.bytes
    · rw [if_pos (zero.mpr same)]
      refine ⟨some i,rfl,?_,by simpa using inside⟩
      rw [front,List.find?_cons_of_pos (by simpa using same)]
      exact List.getElem?_eq_getElem inside
    · rw [if_neg fun equal => same (zero.mp equal)]
      obtain ⟨found,searched,first,bounds⟩ := ih (i := i+1) (by omega)
      exact ⟨found,searched,by rw [first,front,List.find?_cons_of_neg (by simpa using same)],bounds⟩

def registered (live : List (Registration ε)) (identifier : CString) : Option (Registration ε) :=
  live.find? fun r => r.name = identifier.bytes

theorem Registry.search {m : AppManager ε} {live : List (Registration ε)}
    (registry : Registry m live) (identifier : CString) :
    (registered live identifier = none ∧
      App.findFrom m (some identifier.pointer) m.appCount 0 = some none) ∨
    ∃ i, ∃ inside : i < live.length, registered live identifier = some live[i] ∧
      App.findFrom m (some identifier.pointer) m.appCount 0 = some (some i) := by
  obtain ⟨found,searched,first,bounds⟩ :=
    registry.findFrom identifier (show 0 + m.appCount = live.length by rw [registry.count]; omega)
  rw [List.drop_zero] at first
  cases found with
  | none => exact .inl ⟨first.symm,searched⟩
  | some i =>
    have inside : i < live.length := bounds i rfl
    rw [Option.bind_some,List.getElem?_eq_getElem inside] at first
    exact .inr ⟨i,inside,first.symm,searched⟩

theorem registered_none {live : List (Registration ε)} {identifier : CString} :
    registered live identifier = none ↔ identifier.bytes ∉ live.map Registration.name := by
  simp [registered,List.find?_eq_none]

/-! The operations. -/

theorem Registry.register {m : AppManager ε} {live : List (Registration ε)}
    (registry : Registry m live) (r : Registration ε) :
    (maxApps ≤ live.length ∧ registerApp (some r.manifest) (some r.entry) m = some (.errFull,m)) ∨
    (r.name ∈ live.map Registration.name ∧
      registerApp (some r.manifest) (some r.entry) m = some (.errInvalid,m)) ∨
    (live.length < maxApps ∧ r.name ∉ live.map Registration.name ∧ ∃ m',
      registerApp (some r.manifest) (some r.entry) m = some (.ok,m') ∧ Registry m' (live ++ [r])) := by
  have named : r.manifest.identifier.isNone = false := by rw [r.named]; rfl
  have pointer : pointerOf r.manifest.identifier = some r.identifier.pointer := by rw [r.named]; rfl
  rcases Nat.lt_or_ge live.length maxApps with free | full
  · have open_slot : ¬maxApps ≤ m.appCount := by rw [registry.count]; omega
    rcases registry.search r.identifier with ⟨absent,missing⟩ | ⟨i,inside,present,found⟩
    · have fresh : r.name ∉ live.map Registration.name := registered_none.mp absent
      obtain ⟨apps,stored,packed⟩ := registry.packed.push r.bundle (by rwa [List.length_map])
      rw [List.length_map] at stored
      refine .inr (.inr ⟨free,fresh,⟨apps,m.appCount + 1⟩,?_,?_,?_,registry.distinct.push fresh⟩)
      · rw [← registry.count] at stored
        simp only [Registration.bundle] at stored
        simp [registerApp,named,open_slot,pointer,missing,stored]
      · rw [List.map_append]
        exact packed
      · rw [List.length_append,List.length_singleton,registry.count]
    · refine .inr (.inl ⟨?_,?_⟩)
      · by_contra fresh
        rw [registered_none.mpr fresh] at present
        cases present
      · simp [registerApp,named,open_slot,pointer,found]
  · refine .inl ⟨full,?_⟩
    have taken : maxApps ≤ m.appCount := by rwa [registry.count]
    simp [registerApp,named,taken]

theorem register_null {manifest : Option AppManifest} {entry : Option ε} (m : AppManager ε)
    (null : ∀ r : Registration ε, ¬(manifest = some r.manifest ∧ entry = some r.entry)) :
    registerApp manifest entry m = some (.errInvalid,m) := by
  match manifest, entry with
  | none, _ => rfl
  | some _, none => rfl
  | some manifest, some entry =>
    cases named : manifest.identifier with
    | none => simp [registerApp,named]
    | some identifier => exact absurd ⟨rfl,rfl⟩ (null ⟨manifest,identifier,entry,named⟩)

/-- The context launch hands to the entry point. -/
def contextOf (manifest : AppManifest) (identifier : Bytes) : AppContext :=
  ⟨manifest,⟨containerOf identifier ++ [0],defaultAllowedPermissions manifest.requestedPermissions⟩⟩

theorem Registry.launch_absent {m : AppManager ε} {live : List (Registration ε)}
    (registry : Registry m live) {identifier : CString} (absent : registered live identifier = none) :
    launch (some identifier.pointer) m = some ⟨.errNotFound,[],[]⟩ := by
  rcases registry.search identifier with ⟨_,missing⟩ | ⟨_,_,present,_⟩
  · simp [launch,missing]
  · rw [absent] at present
    cases present

theorem Registry.launch_present {m : AppManager ε} {live : List (Registration ε)}
    (registry : Registry m live) {identifier : CString} {r : Registration ε}
    (present : registered live identifier = some r) :
    ∃ printed, (∀ text ∈ printed, ∀ bytes ∈ text, 0 ∈ bytes) ∧
      launch (some identifier.pointer) m =
        some ⟨.ok,printed,[(r.entry,contextOf r.manifest identifier.bytes)]⟩ := by
  rcases registry.search identifier with ⟨absent,_⟩ | ⟨i,inside,here,found⟩
  · rw [absent] at present
    cases present
  · rw [present] at here
    cases here
    have slot := registry.slot inside
    have named : ∀ bytes ∈ pointerOf live[i].manifest.displayName, 0 ∈ bytes := by
      intro bytes member
      obtain ⟨name,_,rfl⟩ := Option.map_eq_some_iff.mp member
      simp [CString.pointer]
    refine ⟨[some (literal "Launching app: " ++ [0]),pointerOf live[i].manifest.displayName,
      some (literal "\nSandbox: " ++ [0]),some (containerOf identifier.bytes ++ [0]),
      some (literal "\n" ++ [0])],by simpa using named,?_⟩
    simp only [launch,found,slot,buildContainerPath_text,Registration.bundle,contextOf,
      Option.bind_eq_bind,Option.bind_some]
    rfl

/-! Runs. -/

inductive Call (ε : Type)
  | register (manifest : Option AppManifest) (entry : Option ε)
  | launch (identifier : CString)

def Call.run : Call ε → AppManager ε → Option (AppResult × AppManager ε)
  | .register manifest entry, m => registerApp manifest entry m
  | .launch identifier, m => do return ((← App.launch (some identifier.pointer) m).result,m)

/-- The managers after AppManager::init and any calls, with the calls and their results in order. -/
inductive Run : AppManager ε → List (Call ε × AppResult) → Prop
  | init (m : AppManager ε) : Run (init m) []
  | call (m : AppManager ε) (calls : List (Call ε × AppResult)) (call : Call ε)
      (result : AppResult) (m' : AppManager ε) (before : Run m calls)
      (returned : call.run m = some (result,m')) : Run m' (calls ++ [(call,result)])

def succeeded : Call ε × AppResult → Option (Registration ε)
  | (.register (some manifest) (some entry),.ok) =>
    match named : manifest.identifier with
    | some identifier => some ⟨manifest,identifier,entry,named⟩
    | none => none
  | _ => none

/-- The successful registrations among the calls, in order. -/
def registrations (calls : List (Call ε × AppResult)) : List (Registration ε) :=
  calls.filterMap succeeded

theorem succeeded_register (r : Registration ε) :
    succeeded (.register (some r.manifest) (some r.entry),.ok) = some r := by
  obtain ⟨manifest,identifier,entry,named⟩ := r
  simp only [succeeded]
  split
  next found =>
    rw [named] at found
    cases found
    rfl
  next missing =>
    rw [named] at missing
    cases missing

theorem succeeded_failed (call : Call ε) {result : AppResult} (failed : result ≠ .ok) :
    succeeded (call,result) = none := by
  unfold succeeded
  split
  next same =>
    exact absurd (congrArg Prod.snd same) failed
  next => rfl

theorem Registry.failed {m : AppManager ε} {live : List (Registration ε)}
    (registry : Registry m live) (call : Call ε) {result : AppResult} (failed : result ≠ .ok) :
    Registry m (live ++ (succeeded (call,result)).toList) := by
  rw [succeeded_failed call failed]
  simpa using registry

/-- Every call returns; only a successful registration changes the manager. -/
theorem Registry.call {m : AppManager ε} {live : List (Registration ε)} (registry : Registry m live)
    (call : Call ε) : ∃ result m', call.run m = some (result,m') ∧
      Registry m' (live ++ (succeeded (call,result)).toList) := by
  cases call with
  | launch identifier =>
    cases first : registered live identifier with
    | none =>
      exact ⟨.errNotFound,m,by simp [Call.run,registry.launch_absent first],
        registry.failed _ (by decide)⟩
    | some r =>
      obtain ⟨printed,_,launched⟩ := registry.launch_present first
      exact ⟨.ok,m,by simp [Call.run,launched],by simpa [succeeded] using registry⟩
  | register manifest entry =>
    by_cases real : ∃ r : Registration ε, manifest = some r.manifest ∧ entry = some r.entry
    · obtain ⟨r,rfl,rfl⟩ := real
      rcases registry.register r with ⟨_,full⟩ | ⟨_,known⟩ | ⟨_,_,m',added,grown⟩
      · exact ⟨_,m,full,registry.failed _ (by decide)⟩
      · exact ⟨_,m,known,registry.failed _ (by decide)⟩
      · refine ⟨_,m',added,?_⟩
        rwa [succeeded_register]
    · exact ⟨_,m,register_null m fun r same => real ⟨r,same⟩,registry.failed _ (by decide)⟩

theorem Run.registry {m : AppManager ε} {calls : List (Call ε × AppResult)} (run : Run m calls) :
    Registry m (registrations calls) := by
  induction run with
  | init m => exact registry_init m
  | call m calls call result m' _ returned ih =>
    obtain ⟨_,_,ran,registry⟩ := ih.call call
    rw [returned] at ran
    cases ran
    have last : registrations (calls ++ [(call,result)]) =
        registrations calls ++ (succeeded (call,result)).toList := by
      rw [registrations,List.filterMap_append]
      cases first : succeeded (call,result) <;> simp [registrations,first]
    rwa [last]

/-! The registry as its callers see it. -/

structure FirstWins (m : AppManager ε) (calls : List (Call ε × AppResult)) : Prop where
  count : m.appCount ≤ maxApps
  used : ∀ i, i < m.appCount → ∃ bundle identifier, m.apps[i]? = some bundle ∧
    bundle.isUsed = true ∧ bundle.manifest.identifier = some identifier
  distinct : ∀ i j first second a b, i < m.appCount → j < m.appCount →
    m.apps[i]? = some first → m.apps[j]? = some second → first.manifest.identifier = some a →
    second.manifest.identifier = some b → a.bytes = b.bytes → i = j
  register : ∀ manifest entry, ∃ result m', registerApp manifest entry m = some (result,m') ∧
    (result = .ok ↔ ∃ r : Registration ε, manifest = some r.manifest ∧ entry = some r.entry ∧
      m.appCount < maxApps ∧ r.name ∉ (registrations calls).map Registration.name) ∧
    (result ≠ .ok → m' = m)
  launch : ∀ identifier : CString, ∃ l, launch (some identifier.pointer) m = some l ∧
    match registered (registrations calls) identifier with
    | some r => l.result = .ok ∧ ∃ context, l.entered = [(r.entry,context)]
    | none => l.result = .errNotFound ∧ l.entered = []

theorem Registry.distinct_slots {m : AppManager ε} {live : List (Registration ε)}
    (registry : Registry m live) {i j : Nat} {first second : AppBundle ε} {a b : CString}
    (insideFirst : i < m.appCount) (insideSecond : j < m.appCount)
    (slotFirst : m.apps[i]? = some first) (slotSecond : m.apps[j]? = some second)
    (namedFirst : first.manifest.identifier = some a)
    (namedSecond : second.manifest.identifier = some b) (same : a.bytes = b.bytes) : i = j := by
  rw [registry.count] at insideFirst insideSecond
  rw [registry.slot insideFirst,Option.some_inj] at slotFirst
  rw [registry.slot insideSecond,Option.some_inj] at slotSecond
  rw [← slotFirst,Registration.bundle,live[i].named,Option.some_inj] at namedFirst
  rw [← slotSecond,Registration.bundle,live[j].named,Option.some_inj] at namedSecond
  have inFirst : i < (live.map Registration.name).length := by simpa using insideFirst
  have inSecond : j < (live.map Registration.name).length := by simpa using insideSecond
  have names : (live.map Registration.name)[i] = (live.map Registration.name)[j] := by
    simp only [List.getElem_map,Registration.name,namedFirst,namedSecond,same]
  exact (List.Nodup.getElem_inj_iff registry.distinct).mp names

theorem Registry.register_iff {m : AppManager ε} {live : List (Registration ε)}
    (registry : Registry m live) (manifest : Option AppManifest) (entry : Option ε) :
    ∃ result m', registerApp manifest entry m = some (result,m') ∧
      (result = .ok ↔ ∃ r : Registration ε, manifest = some r.manifest ∧ entry = some r.entry ∧
        m.appCount < maxApps ∧ r.name ∉ live.map Registration.name) ∧
      (result ≠ .ok → m' = m) := by
  by_cases real : ∃ r : Registration ε, manifest = some r.manifest ∧ entry = some r.entry
  · obtain ⟨r,rfl,rfl⟩ := real
    have same : ∀ other : Registration ε, some r.manifest = some other.manifest →
        other.name = r.name := by
      intro other equal
      have names := other.named
      rw [← Option.some.inj equal,r.named] at names
      rw [Registration.name,Registration.name,Option.some.inj names]
    rcases registry.register r with ⟨full,failed⟩ | ⟨known,failed⟩ | ⟨free,fresh,m',added,_⟩
    · refine ⟨_,m,failed,iff_of_false (by decide) ?_,fun _ => rfl⟩
      rintro ⟨_,_,_,free,_⟩
      rw [registry.count] at free
      omega
    · refine ⟨_,m,failed,iff_of_false (by decide) ?_,fun _ => rfl⟩
      rintro ⟨other,equal,_,_,fresh⟩
      rw [same other equal] at fresh
      exact fresh known
    · refine ⟨_,m',added,iff_of_true rfl ⟨r,rfl,rfl,?_,fresh⟩,fun failed => absurd rfl failed⟩
      rwa [registry.count]
  · refine ⟨_,m,register_null m fun r same => real ⟨r,same⟩,iff_of_false (by decide) ?_,fun _ => rfl⟩
    rintro ⟨r,here,there,_⟩
    exact real ⟨r,here,there⟩

/-- In every run the registry is bounded, and the first registration of an identifier wins. -/
theorem registry_first_wins {m : AppManager ε} {calls : List (Call ε × AppResult)}
    (run : Run m calls) : FirstWins m calls := by
  have registry := run.registry
  refine ⟨by rw [registry.count]; exact registry.room,fun i inside => ?_,?_,registry.register_iff,
    fun identifier => ?_⟩
  · rw [registry.count] at inside
    exact ⟨_,_,registry.slot inside,rfl,(registrations calls)[i].named⟩
  · intro i j first second a b
    exact registry.distinct_slots
  · cases first : registered (registrations calls) identifier with
    | none => exact ⟨_,registry.launch_absent first,rfl,rfl⟩
    | some r =>
      obtain ⟨printed,_,launched⟩ := registry.launch_present first
      exact ⟨_,launched,rfl,_,rfl⟩

theorem Run.next {m : AppManager ε} {calls : List (Call ε × AppResult)} (run : Run m calls)
    (r : Registration ε) (free : (registrations calls).length < maxApps)
    (fresh : r.name ∉ (registrations calls).map Registration.name) :
    ∃ m', Run m' (calls ++ [(.register (some r.manifest) (some r.entry),.ok)]) := by
  rcases run.registry.register r with ⟨full,_⟩ | ⟨known,_⟩ | ⟨_,_,m',added,_⟩
  · omega
  · exact absurd known fresh
  · exact ⟨m',.call _ calls _ .ok m' run added⟩

end

def sampleIdentifier : CString := ⟨literal "a.b",[],by decide,by decide⟩

def blankManager : AppManager Unit := ⟨Vector.replicate maxApps zeroBundle,0⟩

def sample : Registration Unit := ⟨⟨some sampleIdentifier,none,none,0x3F⟩,sampleIdentifier,(),rfl⟩

def namedAgain (entry : Bool) : Registration Bool :=
  ⟨⟨some sampleIdentifier,none,none,0⟩,sampleIdentifier,entry,rfl⟩

/-- The identifier is registered a second time, and launching it runs the first entry. -/
theorem registry_first_wins_sample : ∃ (m : AppManager Bool) (l : Launch Bool) (context : AppContext),
    FirstWins m [(.register (some (namedAgain false).manifest) (some false),.ok),
      (.register (some (namedAgain true).manifest) (some true),.errInvalid)] ∧
    launch (some sampleIdentifier.pointer) m = some l ∧ l.entered = [(false,context)] := by
  obtain ⟨m,once⟩ := (Run.init (⟨Vector.replicate maxApps zeroBundle,0⟩ : AppManager Bool)).next
    (namedAgain false) (by decide) (by decide)
  have first : registrations [(Call.register (some (namedAgain false).manifest)
      (some (namedAgain false).entry),AppResult.ok)] = [namedAgain false] := rfl
  rcases once.registry.register (namedAgain true) with ⟨full,_⟩ | ⟨_,refused⟩ | ⟨_,fresh,_⟩
  · rw [List.nil_append,first] at full
    exact absurd full (by decide)
  · have twice := once.call _ _ (.register (some (namedAgain true).manifest) (some true)) .errInvalid m refused
    have wins := registry_first_wins twice
    obtain ⟨l,launched,runs⟩ := wins.launch sampleIdentifier
    obtain ⟨_,context,entered⟩ := runs
    exact ⟨m,l,context,wins,launched,entered⟩
  · rw [List.nil_append,first] at fresh
    exact absurd fresh (by decide)

end Xbtos.App
