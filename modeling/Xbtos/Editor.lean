import Xbtos.Shell
import Xbtos.Console

/-! The line editor of kernel/main.cpp and the handler of the keyboard, which feeds it. An
access outside an array has no result. The functions give the calls they make, in order. -/
namespace Xbtos.Editor
open Foundation.Buffer Strings
open Shell (Call bufferSize)
open Console (newline backspace)

def historySize : Nat := 10

/-- The variables of the editor. -/
structure State where
  inputBuffer : Vector UInt8 bufferSize
  bufferIndex : Int
  shiftPressed : Bool
  extendedKey : Bool
  history : Vector (Vector UInt8 bufferSize) historySize
  historyCount : Int
  historyIndex : Int

/-- The variables as they are loaded. -/
def loaded : State where
  inputBuffer := Vector.replicate bufferSize 0
  bufferIndex := 0
  shiftPressed := false
  extendedKey := false
  history := Vector.replicate historySize (Vector.replicate bufferSize 0)
  historyCount := 0
  historyIndex := -1

structure Kernel where
  shell : Shell.State
  editor : State

def scancodeToAscii : Bytes :=
  [0,27] ++ literal "1234567890-=" ++ [8,9] ++ literal "qwertyuiop[]" ++ [10,0] ++
    literal "asdfghjkl;'`" ++ [0] ++ literal "\\zxcvbnm,./" ++ [0] ++ literal "*" ++ [0] ++
    literal " " ++ [0]

def scancodeToAsciiShift : Bytes :=
  [0,27] ++ literal "!@#$%^&*()_+" ++ [8,9] ++ literal "QWERTYUIOP\x7b\x7d" ++ [10,0] ++
    literal "ASDFGHJKL:\x22~" ++ [0] ++ literal "|ZXCVBNM<>?" ++ [0] ++ literal "*" ++ [0] ++
    literal " " ++ [0]

/-- The loop of clear_input_buffer, in at most r iterations. -/
def clearFrom : Nat → Int → Option (Int × List Call)
  | 0, _ => none
  | r+1, bufferIndex =>
    if 0 < bufferIndex then do
      let (bufferIndex,calls) ← clearFrom r (bufferIndex - 1)
      return (bufferIndex,.printChar backspace :: calls)
    else some (bufferIndex,[])

def clearInputBuffer (e : State) : Option (State × List Call) := do
  let (bufferIndex,calls) ← clearFrom (bufferSize + 1) e.bufferIndex
  let inputBuffer ← put e.inputBuffer 0 0
  return ({ e with inputBuffer, bufferIndex },calls)

/-- The loop of recall_history from entry[i] on, in at most r iterations. -/
def copyEntry (entry : Vector UInt8 bufferSize) :
    Nat → Nat → State → Option (State × List Call)
  | 0, _, _ => none
  | r+1, i, e => do
    let c ← entry[i]?
    if c ≠ 0 ∧ e.bufferIndex < bufferSize - 1 then
      let inputBuffer ← put e.inputBuffer e.bufferIndex c
      let (e,calls) ← copyEntry entry r (i+1) { e with inputBuffer, bufferIndex := e.bufferIndex + 1 }
      return (e,.printChar c :: calls)
    else return (e,[])

/-- The part of recall_history after the entry is chosen. -/
def showEntry (e : State) : Option (State × List Call) := do
  if 0 ≤ e.historyIndex ∧ e.historyIndex < e.historyCount then
    let (e,cleared) ← clearInputBuffer e
    let entry ← fetch e.history e.historyIndex
    let (e,shown) ← copyEntry entry (bufferSize + 1) 0 e
    let inputBuffer ← put e.inputBuffer e.bufferIndex 0
    return ({ e with inputBuffer },cleared ++ shown)
  else return (e,[])

def recallHistory (direction : Int) (e : State) : Option (State × List Call) :=
  if e.historyCount = 0 then some (e,[])
  else if direction < 0 then
    if e.historyIndex = -1 then showEntry { e with historyIndex := e.historyCount - 1 }
    else if 0 < e.historyIndex then showEntry { e with historyIndex := e.historyIndex - 1 }
    else showEntry e
  else if e.historyIndex ≠ -1 then
    if e.historyCount ≤ e.historyIndex + 1 then clearInputBuffer { e with historyIndex := -1 }
    else showEntry { e with historyIndex := e.historyIndex + 1 }
  else showEntry e

/-- The loop of save_history from entry i on, with r iterations left. -/
def shiftHistory : Nat → Nat → Vector (Vector UInt8 bufferSize) historySize →
    Option (Vector (Vector UInt8 bufferSize) historySize)
  | 0, _, history => some history
  | r+1, i, history => do
    let entry ← kstrcpy (← history[i]?) 0 (← history[i+1]?).toList
    shiftHistory r (i+1) (← store history i entry)

def saveHistory (e : State) : Option State := do
  if e.bufferIndex = 0 then return e
  if e.historyCount < historySize then
    let entry ← kstrcpy (← fetch e.history e.historyCount) 0 e.inputBuffer.toList
    let history ← put e.history e.historyCount entry
    return { e with history, historyCount := e.historyCount + 1, historyIndex := -1 }
  else
    let history ← shiftHistory (historySize - 1) 0 e.history
    let entry ← kstrcpy (← history[historySize - 1]?) 0 e.inputBuffer.toList
    let history ← store history (historySize - 1) entry
    return { e with history, historyIndex := -1 }

def handleEnter (k : Kernel) : Option (Kernel × List Call) := do
  let inputBuffer ← put k.editor.inputBuffer k.editor.bufferIndex 0
  let editor ← saveHistory { k.editor with inputBuffer }
  let (shell,calls) ←
    if 0 < editor.bufferIndex then do
      let cmd := editor.inputBuffer.toList
      let (shell,calls) ← Shell.executeCommand cmd k.shell
      pure (shell,.executeCommand cmd :: calls)
    else pure (k.shell,Shell.prompt k.shell)
  let inputBuffer ← put editor.inputBuffer 0 0
  return (⟨shell,{ editor with inputBuffer, bufferIndex := 0 }⟩,Shell.print "\n" :: calls)

/-- What keyboard_handler does with the character of a key. -/
def handleChar (c : UInt8) (k : Kernel) : Option (Kernel × List Call) := do
  let e := k.editor
  if c = newline then handleEnter k
  else if c = backspace then
    if 0 < e.bufferIndex then
      let bufferIndex := e.bufferIndex - 1
      let inputBuffer ← put e.inputBuffer bufferIndex 0
      let editor := { e with inputBuffer, bufferIndex, historyIndex := -1 }
      return ({ k with editor },[.printChar backspace])
    else return (k,[])
  else if c ≠ 0 ∧ e.bufferIndex < bufferSize - 1 then
    let inputBuffer ← put e.inputBuffer e.bufferIndex c
    let bufferIndex := e.bufferIndex + 1
    let inputBuffer ← put inputBuffer bufferIndex 0
    let editor := { e with inputBuffer, bufferIndex, historyIndex := -1 }
    return ({ k with editor },[.printChar c])
  else return (k,[])

/-- What keyboard_handler does before it ends the interrupt. -/
def handleScancode (scancode : UInt8) (k : Kernel) : Option (Kernel × List Call) := do
  let e := k.editor
  if scancode = 0xE0 then return ({ k with editor := { e with extendedKey := true } },[])
  if e.extendedKey then
    let (e,calls) ←
      if scancode = 0x48 then recallHistory (-1) e
      else if scancode = 0x50 then recallHistory 1 e
      else some (e,[])
    return ({ k with editor := { e with extendedKey := false } },calls)
  if scancode = 0x2A ∨ scancode = 0x36 then
    return ({ k with editor := { e with shiftPressed := true } },[])
  if scancode = 0xAA ∨ scancode = 0xB6 then
    return ({ k with editor := { e with shiftPressed := false } },[])
  if scancode.toNat < scancodeToAscii.length then
    let table := if e.shiftPressed then scancodeToAsciiShift else scancodeToAscii
    return ← handleChar (← table[scancode.toNat]?) k
  return (k,[])

def keyboardHandler (scancode : UInt8) (k : Kernel) : Option (Kernel × List Call) := do
  let (k,calls) ← handleScancode scancode k
  return (k,calls ++ [.endOfInterrupt 1])

example : scancodeToAscii.length = 0x3B ∧ scancodeToAsciiShift.length = 0x3B := by decide

end Xbtos.Editor
