import Xbtos.Strings
import Mathlib.Algebra.Group.Int.Defs

/-! The printing functions of kernel/memory/libc.cpp, and atoi. A function that prints gives the
calls it makes, in order; printf gives what it reads and takes as well. A call with no result
accesses memory outside a buffer or overflows a signed number. -/
namespace Xbtos.Libc
open Foundation.Buffer Strings

inductive Call
  | printChar (c : UInt8)
  | printString (text : UInt32)
  | printUnsigned (value : UInt32) (base : Nat)
  | printSigned (value : Int32)
deriving DecidableEq

def digitByte (digit : Nat) : UInt8 :=
  UInt8.ofNat (if digit < 10 then 48 + digit else 97 + digit - 10)

/-- The loop of print_unsigned that takes the digits, with r places left in buffer. -/
def storeDigits (base : Nat) : Nat → Nat → Bytes → Option Bytes
  | 0, _, buffer => some buffer
  | r+1, value, buffer =>
    if 0 < value then do
      storeDigits base r (value / base) (← push 32 buffer (digitByte (value % base)))
    else some buffer

def printUnsigned (value : UInt32) (base : Nat) : Option (List Call) :=
  if value = 0 then some [.printChar 48]
  else do
    let buffer ← storeDigits base 32 value.toNat []
    return buffer.reverse.map .printChar

/-- The result of a signed operation. -/
def int (result : Int) : Option Int32 :=
  if -2^31 ≤ result ∧ result < 2^31 then some (Int32.ofInt result) else none

def minus : UInt8 := 45

def printSigned (value : Int32) : Option (List Call) :=
  if value < 0 then do
    let magnitude ← int (-value.toInt)
    let calls ← printUnsigned magnitude.toUInt32 10
    return .printChar minus :: calls
  else printUnsigned value.toUInt32 10

/-! printf. -/

def percent : UInt8 := 37

/-- What printf does: it reads format[i], takes the word of a slot for a conversion, or calls. -/
inductive Event
  | read (i : Nat)
  | argument (conversion : UInt8) (slot : Nat)
  | call (call : Call)
deriving DecidableEq

/-- What follows a '%', where the arguments are the words of slots and the next is at slot k;
and the slot of the next afterwards. -/
def convert (slots : Nat → UInt32) (k : Nat) (c : UInt8) : List Event × Nat :=
  if c = 115 then ([.argument c k,.call (.printString (slots k))],k+1)
  else if c = 100 ∨ c = 105 then ([.argument c k,.call (.printSigned (slots k).toInt32)],k+1)
  else if c = 117 then ([.argument c k,.call (.printUnsigned (slots k) 10)],k+1)
  else if c = 120 then ([.argument c k,.call (.printUnsigned (slots k) 16)],k+1)
  else if c = 99 then ([.argument c k,.call (.printChar (slots k).toUInt8)],k+1)
  else if c = percent then ([.call (.printChar percent)],k)
  else ([.call (.printChar percent),.call (.printChar c)],k)

/-- The loop of printf from format[i] on. A read behind the object is the last event; no object
is so long that an index would wrap. -/
def printfFrom (slots : Nat → UInt32) : Nat → Nat → Bytes → List Event
  | i, _, [] => [.read i]
  | i, k, c :: format =>
    .read i ::
      if c = 0 then []
      else if c ≠ percent then .call (.printChar c) :: printfFrom slots (i+1) k format
      else
        match format with
        | [] => [.read (i+1)]
        | d :: format =>
          let converted := convert slots k d
          .read (i+1) :: converted.1 ++ printfFrom slots (i+2) converted.2 format

def printf (format : Option Bytes) (slots : Nat → UInt32) : List Event :=
  match format with
  | none => []
  | some format => printfFrom slots 0 0 format

/-! atoi. -/

/-- A char as the int it is promoted to. -/
def promote (c : UInt8) : Int := c.toInt8.toInt

def isdigit (c : Int) : Bool := 48 ≤ c ∧ c ≤ 57

def isspace (c : Int) : Bool := c = 32 ∨ c = 10 ∨ c = 13 ∨ c = 9 ∨ c = 11 ∨ c = 12

/-- The loop of atoi over white space. -/
def skipSpaces : Bytes → Option Bytes
  | [] => none
  | c :: text => if isspace (promote c) then skipSpaces text else some (c :: text)

/-- The loop of atoi over digits. -/
def readDigits : Int32 → Bytes → Option Int32
  | _, [] => none
  | value, c :: text =>
    if isdigit (promote c) then do
      let tens ← int (value.toInt * 10)
      let value ← int (tens.toInt + (promote c - 48))
      readDigits value text
    else some value

def atoi (text : Bytes) : Option Int32 := do
  match (← skipSpaces text) with
  | [] => none
  | c :: text =>
    let sign : Int := if c = minus then -1 else 1
    let value ← readDigits 0 (if c = minus then text else c :: text)
    int (value.toInt * sign)

end Xbtos.Libc
