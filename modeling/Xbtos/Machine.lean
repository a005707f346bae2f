import Xbtos.Editor

/-! The kernel with its console: kernel_main up to the first prompt, and the interrupts of the
keyboard after it, each given the scancode that keyboard_handler reads. -/
namespace Xbtos
open Strings
open Shell (Call EntryPoint Cpuid)
open Editor (Kernel)

structure Machine where
  kernel : Kernel
  console : Console.State

namespace Machine

/-- What a call does to the console. -/
def perform : Call → Console.State → Option Console.State
  | .printChar c, s => Console.vgaPutChar c s
  | .printString text, s => Console.vgaWrite text s
  | .printUtf8 text, s => Console.vgaWriteUtf8 (some text) s
  | .clearScreen, s => Console.vgaClear s
  | _, s => some s

def performAll : List Call → Console.State → Option Console.State
  | [], s => some s
  | call :: calls, s => do performAll calls (← perform call s)

/-- What kernel_main prints after it has cleared the screen. -/
def greeting (shell : Shell.State) : List Call :=
  [Shell.print "128/128MB --- MEM  OK\n",Shell.print "i386-X86  --- Heap OK\n",
    Shell.print "HAL       --- Ready\n",Shell.print "VFS       --- Ready\n",
    Shell.message .welcome shell] ++ Shell.prompt shell

/-- kernel_main from the initialisation of the console on; the memory managers, the interrupt
tables and the devices have no part in it. -/
def boot (cpuid : Cpuid) (files : Vfs.FileSystem) (apps : App.AppManager EntryPoint)
    (console : Console.State) : Option Machine := do
  let console ← Console.vgaClear console
  let (vfs,text) := Vfs.init files
  let console ← perform (.printString (some (text ++ [0]))) console
  let apps ← Shell.registerBuiltinApps (App.init apps)
  let shell : Shell.State := ⟨vfs,apps,I18n.loadedLanguage,cpuid⟩
  let console ← performAll (.clearScreen :: greeting shell) console
  return ⟨⟨shell,Editor.loaded⟩,console⟩

/-- One interrupt of the keyboard, with the calls it made. -/
def press (scancode : UInt8) (m : Machine) : Option (Machine × List Call) := do
  let (kernel,calls) ← Editor.keyboardHandler scancode m.kernel
  let console ← performAll calls m.console
  return (⟨kernel,console⟩,calls)

def pressAll : List UInt8 → Machine → Option (Machine × List Call)
  | [], m => some (m,[])
  | scancode :: scancodes, m => do
    let (m,calls) ← press scancode m
    let (m,more) ← pressAll scancodes m
    return (m,calls ++ more)

/-- The interrupt that a call ends. -/
def ended : Call → Option UInt8
  | .endOfInterrupt irq => some irq
  | _ => none

/-- The string that is passed to execute_command. -/
def executed : Call → Option Bytes
  | .executeCommand cmd => some (Foundation.Buffer.upTo 0 cmd)
  | _ => none

end Machine

end Xbtos
