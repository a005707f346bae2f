import Xbtos.SystemRefinement

/-! The cursor of the display. Every output ends by writing the place of the cursor to the
registers of the display, so that it blinks where the next character will stand. -/
namespace Xbtos.Console
open Foundation.Buffer Strings

/-- The place in the registers of the display. -/
def shownPlace (s : State) : Nat := (s.crtc 0x0E).toNat * 256 + (s.crtc 0x0F).toNat

/-- The display has its cursor where the console has it. -/
def CursorShown (s : State) : Prop := shownPlace s = index s % 2^16

theorem updateCursor_cursorShown (s : State) : CursorShown (updateCursor s) := by
  obtain ⟨low,high⟩ := updateCursor_shown s
  obtain ⟨_,sameX,sameY,_⟩ := updateCursor_fields s
  have here : index (updateCursor s) = index s := by rw [index,index,sameX,sameY]
  have mask : ∀ x : Nat, x &&& 255 = x % 2^8 := fun x => Nat.and_two_pow_sub_one_eq_mod x 8
  rw [CursorShown,shownPlace,low,high,here]
  simp only [UInt16.toNat_toUInt8,UInt16.toNat_and,UInt16.toNat_shiftRight,UInt16.toNat_ofNat',
    UInt16.reduceToNat,mask,Nat.shiftRight_eq_div_pow,Nat.reduceMod,Nat.reducePow]
  omega

theorem vgaPutChar_cursorShown {c : UInt8} {s s' : State} (put : vgaPutChar c s = some s') :
    CursorShown s' := by
  unfold vgaPutChar at put
  obtain ⟨placed,_,rest⟩ := Option.bind_eq_some_iff.mp put
  obtain ⟨scrolled,_,same⟩ := Option.bind_eq_some_iff.mp rest
  cases same
  exact updateCursor_cursorShown scrolled

theorem vgaClear_cursorShown {s s' : State} (cleared : vgaClear s = some s') : CursorShown s' := by
  unfold vgaClear at cleared
  obtain ⟨_,_,same⟩ := Option.bind_eq_some_iff.mp cleared
  cases same
  exact updateCursor_cursorShown _

theorem putAll_cursorShown {text : Bytes} {s s' : State} (shown : CursorShown s)
    (put : putAll text s = some s') : CursorShown s' := by
  induction text generalizing s with
  | nil =>
    cases put
    exact shown
  | cons c text ih =>
    obtain ⟨one,first,rest⟩ := Option.bind_eq_some_iff.mp put
    exact ih (vgaPutChar_cursorShown first) rest

theorem writeFrom_cursorShown {text : Bytes} {s s' : State} (shown : CursorShown s)
    (written : writeFrom text s = some s') : CursorShown s' := by
  induction text generalizing s with
  | nil => cases written
  | cons c text ih =>
    rw [writeFrom] at written
    split_ifs at written
    · cases written
      exact shown
    · obtain ⟨one,first,rest⟩ := Option.bind_eq_some_iff.mp written
      exact ih (vgaPutChar_cursorShown first) rest

theorem vgaWriteUtf8_cursorShown {text : Bytes} {s s' : State} (shown : CursorShown s)
    (written : vgaWriteUtf8 (some text) s = some s') : CursorShown s' := by
  rw [vgaWriteUtf8,writeUtf8From_chars] at written
  obtain ⟨chars,_,put⟩ := Option.bind_eq_some_iff.mp written
  exact putAll_cursorShown shown put

end Xbtos.Console

namespace Xbtos.Machine
open Foundation.Buffer Strings Semantics
open Shell (Call EntryPoint Cpuid)
open Console (CursorShown shownPlace vgaWidth vgaHeight)

theorem perform_cursorShown {call : Call} {s s' : Console.State} (shown : CursorShown s)
    (performed : perform call s = some s') : CursorShown s' := by
  cases call with
  | printChar => exact Console.vgaPutChar_cursorShown performed
  | printString => exact Console.writeFrom_cursorShown shown performed
  | printUtf8 => exact Console.vgaWriteUtf8_cursorShown shown performed
  | clearScreen => exact Console.vgaClear_cursorShown performed
  | endOfInterrupt | executeCommand | file | entry =>
    cases performed
    exact shown

theorem performAll_cursorShown {calls : List Call} {s s' : Console.State} (shown : CursorShown s)
    (performed : performAll calls s = some s') : CursorShown s' := by
  induction calls generalizing s with
  | nil =>
    cases performed
    exact shown
  | cons call calls ih =>
    obtain ⟨one,first,rest⟩ := Option.bind_eq_some_iff.mp performed
    exact ih (perform_cursorShown shown first) rest

theorem press_cursorShown {scancode : UInt8} {m m' : Machine} {calls : List Call}
    (shown : CursorShown m.console) (pressed : press scancode m = some (m',calls)) :
    CursorShown m'.console := by
  unfold press at pressed
  obtain ⟨_,_,rest⟩ := Option.bind_eq_some_iff.mp pressed
  obtain ⟨_,performed,same⟩ := Option.bind_eq_some_iff.mp rest
  cases same
  exact performAll_cursorShown shown performed

theorem pressAll_cursorShown {scancodes : List UInt8} {m m' : Machine} {calls : List Call}
    (shown : CursorShown m.console) (ran : pressAll scancodes m = some (m',calls)) :
    CursorShown m'.console := by
  induction scancodes generalizing m calls with
  | nil =>
    cases ran
    exact shown
  | cons scancode scancodes ih =>
    obtain ⟨_,pressed,rest⟩ := Option.bind_eq_some_iff.mp ran
    obtain ⟨_,after,same⟩ := Option.bind_eq_some_iff.mp rest
    cases same
    exact ih (press_cursorShown shown pressed) after

theorem boot_cursorShown {cpuid : Cpuid} {files : Vfs.FileSystem} {apps : App.AppManager EntryPoint}
    {console : Console.State} {m : Machine} (booted : boot cpuid files apps console = some m) :
    CursorShown m.console := by
  unfold boot at booted
  obtain ⟨_,cleared,booted⟩ := Option.bind_eq_some_iff.mp booted
  obtain ⟨_,told,booted⟩ := Option.bind_eq_some_iff.mp booted
  obtain ⟨_,_,booted⟩ := Option.bind_eq_some_iff.mp booted
  obtain ⟨_,greeted,same⟩ := Option.bind_eq_some_iff.mp booted
  cases same
  exact performAll_cursorShown (perform_cursorShown (Console.vgaClear_cursorShown cleared) told) greeted

/-- From the first prompt on the display has its cursor in the row and the column where the page
goes on. -/
theorem display_cursor_follows (cpuid : Cpuid) (files : Vfs.FileSystem)
    (apps : App.AppManager EntryPoint) (console : Console.State) :
    ∃ m₀, boot cpuid files apps console = some m₀ ∧ ∀ scancodes, ∃ m calls t,
      pressAll scancodes m₀ = some (m,calls) ∧
      t = System.pressAll scancodes (.start (upTo 0 (Shell.vendor cpuid))) ∧
      shownPlace m.console = (t.page.row - t.page.top vgaHeight) * vgaWidth + t.page.column := by
  obtain ⟨m₀,booted,sim⟩ := boot_simulates cpuid files apps console
  refine ⟨m₀,booted,fun scancodes => ?_⟩
  obtain ⟨m,calls,ran,after⟩ := sim.pressAll scancodes
  have cursor := pressAll_cursorShown (boot_cursorShown booted) ran
  have window := after.screen.window
  have inside := window.onScreen.index
  have small : vgaHeight * vgaWidth < 2^16 := by decide
  have row : m.console.cursorY = _ - _ := (Nat.sub_eq_of_eq_add' window.row.symm).symm
  refine ⟨m,calls,_,ran,rfl,?_⟩
  rw [cursor,Nat.mod_eq_of_lt (Nat.lt_trans inside small),Console.index,window.column,row]

end Xbtos.Machine
