import Xbtos.Strings
import Mathlib.Logic.Function.Basic

/-! The text console of kernel/hal/console.cpp. A call with no result reads or writes a
cell outside the screen, or reads past the end of its text. -/
namespace Xbtos.Console
open Foundation.Buffer Strings Function

def vgaWidth : Nat := 80
def vgaHeight : Nat := 25

structure State where
  vgaBuffer : Vector UInt16 (vgaHeight * vgaWidth)
  cursorX : Nat
  cursorY : Nat
  color : UInt8
  /-- The display's registers, and the one port 0x3D5 writes. -/
  crtcIndex : UInt8
  crtc : UInt8 → UInt8

def newline : UInt8 := 10
def backspace : UInt8 := 8
def space : UInt8 := 32
def questionMark : UInt8 := 63

def cell (color c : UInt8) : UInt16 := color.toUInt16 <<< 8 ||| c.toUInt16

def outb (port : UInt16) (value : UInt8) (s : State) : State :=
  if port = 0x3D4 then { s with crtcIndex := value }
  else if port = 0x3D5 then { s with crtc := update s.crtc s.crtcIndex value }
  else s

def updateCursor (s : State) : State :=
  let pos := UInt16.ofNat (s.cursorY * vgaWidth + s.cursorX)
  let s := outb 0x3D5 (pos &&& 0xFF).toUInt8 (outb 0x3D4 0x0F s)
  outb 0x3D5 (pos >>> 8 &&& 0xFF).toUInt8 (outb 0x3D4 0x0E s)

/-- The loop of scroll_if_needed that moves the rows up, from cell i with r iterations left. -/
def moveUp {n : Nat} : Nat → Nat → Vector UInt16 n → Option (Vector UInt16 n)
  | 0, _, buffer => some buffer
  | r+1, i, buffer => do moveUp r (i+1) (← store buffer i (← buffer[i + vgaWidth]?))

/-- The loops that blank cells, from cell i with r iterations left. -/
def fillFrom {n : Nat} (color : UInt8) : Nat → Nat → Vector UInt16 n → Option (Vector UInt16 n)
  | 0, _, buffer => some buffer
  | r+1, i, buffer => do fillFrom color r (i+1) (← store buffer i (cell color space))

def scrollIfNeeded (s : State) : Option State := do
  if s.cursorY < vgaHeight then return s
  let moved ← moveUp ((vgaHeight - 1) * vgaWidth) 0 s.vgaBuffer
  let vgaBuffer ← fillFrom s.color vgaWidth ((vgaHeight - 1) * vgaWidth) moved
  return { s with vgaBuffer, cursorY := vgaHeight - 1 }

def vgaClear (s : State) : Option State := do
  let vgaBuffer ← fillFrom s.color (vgaWidth * vgaHeight) 0 s.vgaBuffer
  return updateCursor { s with vgaBuffer, cursorX := 0, cursorY := 0 }

/-- What vga_put_char does before it looks at the right and the lower edge. -/
def place (c : UInt8) (s : State) : Option State :=
  if c = newline then some { s with cursorX := 0, cursorY := s.cursorY + 1 }
  else if c = backspace then
    if 0 < s.cursorX then do
      let cursorX := s.cursorX - 1
      let vgaBuffer ← store s.vgaBuffer (s.cursorY * vgaWidth + cursorX) (cell s.color space)
      return { s with vgaBuffer, cursorX }
    else some s
  else do
    let vgaBuffer ← store s.vgaBuffer (s.cursorY * vgaWidth + s.cursorX) (cell s.color c)
    return { s with vgaBuffer, cursorX := s.cursorX + 1 }

def vgaPutChar (c : UInt8) (s : State) : Option State := do
  let s ← place c s
  let s := if vgaWidth ≤ s.cursorX then { s with cursorX := 0, cursorY := s.cursorY + 1 } else s
  return updateCursor (← scrollIfNeeded s)

/-- The loop of vga_write from text[i] on. -/
def writeFrom : Bytes → State → Option State
  | [], _ => none
  | c :: text, s => if c = 0 then some s else do writeFrom text (← vgaPutChar c s)

def vgaWrite (text : Option Bytes) (s : State) : Option State :=
  writeFrom (text.getD (literal "(null)" ++ [0])) s

/-- How many bytes vga_write_utf8 passes over behind the first byte of a character. -/
def utf8Skip (byte : UInt8) : Nat :=
  if byte &&& 0xE0 = 0xC0 then 1
  else if byte &&& 0xF0 = 0xE0 then 2
  else if byte &&& 0xF8 = 0xF0 then 3
  else 0

/-- The loop of vga_write_utf8 from text[i] on, with some bytes still to pass over. -/
def writeUtf8From : Nat → Bytes → State → Option State
  | _, [], _ => none
  | skip+1, _ :: text, s => writeUtf8From skip text s
  | 0, byte :: text, s =>
    if byte = 0 then some s
    else if byte < 0x80 then do writeUtf8From 0 text (← vgaPutChar byte s)
    else do writeUtf8From (utf8Skip byte) text (← vgaPutChar questionMark s)

def vgaWriteUtf8 (text : Option Bytes) (s : State) : Option State :=
  match text with
  | none => vgaWrite (some (literal "(null)" ++ [0])) s
  | some text => writeUtf8From 0 text s

/-- One character after another. -/
def putAll : List UInt8 → State → Option State
  | [], s => some s
  | c :: text, s => do putAll text (← vgaPutChar c s)

end Xbtos.Console
