import Xbtos.LineScreen
import Xbtos.Semantics.HeldKeys

/-! The shift keys. The kernel has one flag for both, and takes their scancodes from the same stream
as those of all other keys. -/
namespace Xbtos.Machine
open Semantics.HeldKeys Semantics.LineEditor
open Shell (EntryPoint Cpuid)
open Editor (decode Decoded decode_decoded)

inductive ShiftKey
  | left
  | right
deriving DecidableEq

/-- What a scancode says of the shift keys. Behind the prefix it is of another key. -/
def shiftChange (scancode : UInt8) (prefixed : Bool) : Change ShiftKey :=
  if prefixed then .other
  else if scancode = 0x2A then .press .left
  else if scancode = 0x36 then .press .right
  else if scancode = 0xAA then .release .left
  else if scancode = 0xB6 then .release .right
  else .other

def shiftChanges : Bool → List UInt8 → List (Change ShiftKey)
  | _, [] => []
  | prefixed, scancode :: scancodes =>
    shiftChange scancode prefixed :: shiftChanges (scancode = 0xE0) scancodes

/-- The shift keys held after scancodes, none of them being held at first. -/
def heldShifts (scancodes : List UInt8) : Finset ShiftKey :=
  heldAfter (shiftChanges false scancodes) ∅

/-- After each of the scancodes the flag is set if and only if a shift key is held. -/
def ShiftFollows (m : Machine) (scancodes : List UInt8) : Prop :=
  ∀ typed, typed <+: scancodes → ∃ m' calls, pressAll typed m = some (m',calls) ∧
    (m'.kernel.editor.shiftPressed = true ↔ (heldShifts typed).Nonempty)

def LegalShifts (scancodes : List UInt8) : Prop :=
  Throughout Change.Legal (shiftChanges false scancodes) ∅

/-- Whenever a shift key is released the other one is not held. -/
def ReleasedAlone (scancodes : List UInt8) : Prop :=
  Throughout Change.Alone (shiftChanges false scancodes) ∅

theorem shift_decoded {scancode : UInt8} {shift extended : Bool} {key : Key UInt8}
    {shift' extended' : Bool} (decoded : Decoded scancode shift extended key shift' extended') :
    shift' = (shiftChange scancode extended).flag shift := by
  cases decoded with
  | first code =>
    rw [code]
    cases extended <;> rfl
  | behind other => rfl
  | press other code =>
    rcases code with rfl | rfl <;> rfl
  | release other notPress code =>
    rcases code with rfl | rfl <;> rfl
  | char other notPress notRelease =>
    rw [not_or] at notPress notRelease
    simp [shiftChange,notPress,notRelease,Change.flag]

theorem Sound.shifts {m : Machine} {d : Draft UInt8} (sound : Sound m d) (scancodes : List UInt8) :
    ∃ m' calls, Machine.pressAll scancodes m = some (m',calls) ∧
      m'.kernel.editor.shiftPressed =
        flagAfter (shiftChanges m.kernel.editor.extendedKey scancodes) m.kernel.editor.shiftPressed := by
  induction scancodes generalizing m d with
  | nil => exact ⟨m,[],rfl,rfl⟩
  | cons scancode scancodes ih =>
    obtain ⟨key,shift,extended,decoded⟩ : ∃ key shift extended,
        decode scancode m.kernel.editor.shiftPressed m.kernel.editor.extendedKey = (key,shift,extended) :=
      ⟨_,_,_,rfl⟩
    obtain ⟨one,calls,first,pressed⟩ := sound.press scancode decoded
    have step := decode_decoded decoded
    obtain ⟨m',more,rest,last⟩ := ih pressed.sound
    refine ⟨m',_,pressAll_cons first rest,?_⟩
    rw [last,pressed.shift,pressed.extended,shift_decoded step,step.extended]
    rfl

/-- The bytes that have come give the changes that have come. -/
theorem forall_typed {P : List (Change ShiftKey) → Prop} {prefixed : Bool} {scancodes : List UInt8} :
    (∀ typed, typed <+: scancodes → P (shiftChanges prefixed typed)) ↔
      ∀ first, first <+: shiftChanges prefixed scancodes → P first := by
  induction scancodes generalizing P prefixed with
  | nil => simp [shiftChanges]
  | cons scancode scancodes ih =>
    rw [shiftChanges,forall_prefix_cons,forall_prefix_cons]
    exact and_congr_right fun _ => ih (P := fun first => P (shiftChange scancode prefixed :: first))

/-- The flag follows the shift keys just where each is released alone. -/
theorem shift_follows_iff (cpuid : Cpuid) (files : Vfs.FileSystem) (apps : App.AppManager EntryPoint)
    (console : Console.State) : ∃ m₀, boot cpuid files apps console = some m₀ ∧
      ∀ scancodes, ShiftFollows m₀ scancodes ↔ ReleasedAlone scancodes := by
  obtain ⟨m₀,booted,sound,fresh⟩ := boot_sound cpuid files apps console
  refine ⟨m₀,booted,fun scancodes => ?_⟩
  have start : Agrees false (∅ : Finset ShiftKey) := by simp [Agrees]
  rw [ReleasedAlone,← start.always,← forall_typed]
  apply forall₂_congr
  intro typed _
  obtain ⟨m,calls,ran,flag⟩ := sound.shifts typed
  rw [fresh] at flag
  constructor
  · rintro ⟨m',calls',again,follows⟩
    cases ran.symm.trans again
    rw [flag] at follows
    exact follows
  · intro agrees
    refine ⟨m,calls,ran,?_⟩
    rw [flag]
    exact agrees

/-- Both shift keys are pressed and the left one is released. -/
theorem other_shift_held : ∃ m, boot ⟨0,0,0⟩ Vfs.blankSystem Shell.blankApps blankConsole = some m ∧
    LegalShifts [0x2A,0x36,0xAA] ∧ ¬ShiftFollows m [0x2A,0x36,0xAA] := by
  obtain ⟨m,booted,sound,fresh⟩ := boot_sound ⟨0,0,0⟩ Vfs.blankSystem Shell.blankApps blankConsole
  have pressed : ShiftKey.left ∈ heldShifts [0x2A,0x36] := by decide
  refine ⟨m,booted,⟨trivial,trivial,pressed,trivial⟩,fun follows => ?_⟩
  obtain ⟨m',calls,ran,holds⟩ := follows _ List.prefix_rfl
  obtain ⟨last,calls',again,flag⟩ := sound.shifts [0x2A,0x36,0xAA]
  cases ran.symm.trans again
  rw [flag,fresh] at holds
  exact absurd (holds.mpr (by decide)) (by decide)

end Xbtos.Machine
