import Xbtos.AppRegistry
import Mathlib.Data.Nat.Bitwise

/-! What the context of a launched application permits: of the permissions its manifest
asks for, those to use the console and to read and write files. -/
namespace Xbtos.App
open Foundation.Buffer Foundation.EntryMap Strings

/-- Bit i of a mask. -/
def Has (mask : UInt32) (i : Nat) : Prop := mask.toNat.testBit i = true

def Safe (i : Nat) : Prop :=
  Has appPermissionConsole i ∨ Has appPermissionFileRead i ∨ Has appPermissionFileWrite i

/-- The bits of the other permissions, and those of none. -/
def Other (i : Nat) : Prop :=
  Has appPermissionNetwork i ∨ Has appPermissionHardware i ∨ Has appPermissionProcess i ∨ 6 ≤ i

structure Grants (context : AppContext) (requested : UInt32) : Prop where
  granted : ∀ i, Has context.sandbox.grantedPermissions i ↔ Has requested i ∧ Safe i
  asked : ∀ p : UInt32, hasPermission (some context) p = true ↔
    ∀ i, Has p i → Has requested i ∧ Safe i
  others : ∀ (p : UInt32) (i : Nat), Has p i → Other i → hasPermission (some context) p = false

theorem has_and (a b : UInt32) (i : Nat) : Has (a &&& b) i ↔ Has a i ∧ Has b i := by
  simp [Has]

theorem has_or (a b : UInt32) (i : Nat) : Has (a ||| b) i ↔ Has a i ∨ Has b i := by
  simp [Has]

theorem mask_ext {a b : UInt32} (same : ∀ i, Has a i ↔ Has b i) : a = b := by
  apply UInt32.toNat_inj.mp
  apply Nat.eq_of_testBit_eq
  intro i
  exact Bool.eq_iff_iff.mpr (same i)

theorem and_eq_right_iff (a p : UInt32) : a &&& p = p ↔ ∀ i, Has p i → Has a i := by
  constructor
  · intro same i bit
    rw [← same,has_and] at bit
    exact bit.1
  · intro contained
    exact mask_ext fun i => by rw [has_and]; exact and_iff_right_of_imp (contained i)

theorem has_allowed (requested : UInt32) (i : Nat) :
    Has (defaultAllowedPermissions requested) i ↔ Has requested i ∧ Safe i := by
  simp only [defaultAllowedPermissions,has_and,has_or,Safe,or_assoc]

theorem has_two_pow {mask : UInt32} {n : Nat} (value : mask.toNat = 2^n) (i : Nat) :
    Has mask i ↔ i = n := by
  rw [Has,value,Nat.testBit_two_pow,decide_eq_true_iff,eq_comm]

theorem other_not_safe {i : Nat} (other : Other i) : ¬Safe i := by
  simp only [Other,Safe,has_two_pow (n := 0) (show appPermissionConsole.toNat = _ from rfl),
    has_two_pow (n := 1) (show appPermissionFileRead.toNat = _ from rfl),
    has_two_pow (n := 2) (show appPermissionFileWrite.toNat = _ from rfl),
    has_two_pow (n := 3) (show appPermissionNetwork.toNat = _ from rfl),
    has_two_pow (n := 4) (show appPermissionHardware.toNat = _ from rfl),
    has_two_pow (n := 5) (show appPermissionProcess.toNat = _ from rfl)] at other ⊢
  omega

theorem grants_contextOf (manifest : AppManifest) (identifier : Bytes) :
    Grants (contextOf manifest identifier) manifest.requestedPermissions := by
  have asked : ∀ p : UInt32, hasPermission (some (contextOf manifest identifier)) p = true ↔
      ∀ i, Has p i → Has manifest.requestedPermissions i ∧ Safe i := by
    intro p
    rw [hasPermission,decide_eq_true_iff,and_eq_right_iff]
    simp only [contextOf,has_allowed]
  refine ⟨has_allowed _,asked,fun p i bit other => ?_⟩
  rw [Bool.eq_false_iff,ne_eq,asked]
  intro all
  exact other_not_safe other (all i bit).2

/-- In every run an entry point is called with a context that grants the safe permissions of
the manifest first registered under the identifier, whatever else the run did. -/
theorem permissions_granted {ε : Type} {m : AppManager ε} {calls : List (Call ε × AppResult)}
    (run : Run m calls) (identifier : CString) (r : Registration ε)
    (first : registered (registrations calls) identifier = some r) :
    ∃ l context, launch (some identifier.pointer) m = some l ∧ l.entered = [(r.entry,context)] ∧
      Grants context r.manifest.requestedPermissions ∧
      ∀ (other : AppManager ε) (otherCalls : List (Call ε × AppResult)) (otherLaunch : Launch ε)
        (otherRegistration : Registration ε) (otherContext : AppContext), Run other otherCalls →
        registered (registrations otherCalls) identifier = some otherRegistration →
        otherRegistration.manifest.requestedPermissions = r.manifest.requestedPermissions →
        launch (some identifier.pointer) other = some otherLaunch →
        otherLaunch.entered = [(otherRegistration.entry,otherContext)] →
        ∀ p, hasPermission (some otherContext) p = hasPermission (some context) p := by
  obtain ⟨printed,_,launched⟩ := run.registry.launch_present first
  have grants := grants_contextOf r.manifest identifier.bytes
  refine ⟨_,_,launched,rfl,grants,?_⟩
  intro other otherCalls otherLaunch otherRegistration otherContext otherRun otherFirst requested
    returned entered p
  obtain ⟨_,_,again⟩ := otherRun.registry.launch_present otherFirst
  rw [returned,Option.some_inj] at again
  rw [again] at entered
  obtain ⟨_,rfl⟩ := Prod.mk.inj (List.cons.inj entered).1
  have otherGrants := grants_contextOf otherRegistration.manifest identifier.bytes
  rw [Bool.eq_iff_iff,otherGrants.asked,grants.asked,requested]

/-- A manifest that asks for all six permissions is granted three. -/
theorem permissions_granted_sample : ∃ (m : AppManager Unit) (l : Launch Unit)
    (context : AppContext), launch (some sampleIdentifier.pointer) m = some l ∧
      l.entered = [((),context)] ∧ Grants context 0x3F := by
  obtain ⟨m,run⟩ := (Run.init blankManager).next sample (by decide) (by decide)
  have first : registered (registrations [(Call.register (some sample.manifest)
      (some sample.entry),AppResult.ok)]) sampleIdentifier = some sample := rfl
  obtain ⟨l,context,launched,entered,grants,_⟩ := permissions_granted run sampleIdentifier sample first
  exact ⟨m,l,context,launched,entered,grants⟩

end Xbtos.App
