import Mathlib.Logic.Function.Basic
import Mathlib.Tactic.SplitIfs

/-! The hardware abstraction layer of kernel/hal/hal.cpp: gates, handlers, interrupt
controllers and the keyboard mailbox. What is sent to a device is logged in order, what a
device answers is part of the state. Console output is left out. -/
namespace Xbtos.Hal
open Function

structure IdtEntry where
  offsetLow : UInt16
  selector : UInt16
  zero : UInt8
  typeAttr : UInt8
  offsetHigh : UInt16

inductive InterruptHandler
  | defaultExceptionHandler | pitHandler | keyboardHandler
deriving DecidableEq

inductive Output
  | outb (port : UInt16) (value : UInt8)
  | apicWrite (register value : UInt32)
  | wrmsr (register low high : UInt32)
  | lidt (limit : UInt16)
  | sti
  | endOfInterrupt (irq : UInt8)
deriving DecidableEq

structure State where
  idt : UInt8 → IdtEntry
  interruptHandlers : UInt8 → Option InterruptHandler
  apicEnabled : Bool
  systemTicks : UInt64
  lastScancode : UInt8
  keyboardReady : Bool
  /-- What inb reads from each port. -/
  ports : UInt16 → UInt8
  apic : UInt32 → UInt32
  cpuidEdx : UInt32
  apicBaseLow : UInt32
  apicBaseHigh : UInt32
  output : List Output

def pic1Cmd : UInt16 := 0x20
def pic1Data : UInt16 := 0x21
def pic2Cmd : UInt16 := 0xA0
def pic2Data : UInt16 := 0xA1
def picEoi : UInt8 := 0x20
def apicEoi : UInt32 := 0x0B0
def apicLvtTimer : UInt32 := 0x320
def apicSpurious : UInt32 := 0x0F0

def send (out : Output) (s : State) : State := { s with output := s.output ++ [out] }

/-- The data port of a PIC reads back its mask, the byte last written. -/
def outb (port : UInt16) (value : UInt8) (s : State) : State :=
  send (.outb port value) { s with
    ports := if port = pic1Data ∨ port = pic2Data then update s.ports port value else s.ports }

def apicWrite (register value : UInt32) (s : State) : State :=
  send (.apicWrite register value) { s with apic := update s.apic register value }

def idtSetGate (vector : UInt8) (handlerAddr : UInt32) (selector : UInt16) (flags : UInt8)
    (s : State) : State :=
  { s with idt := update s.idt vector ⟨(handlerAddr &&& 0xFFFF).toUInt16,selector,0,flags,
      (handlerAddr >>> 16 &&& 0xFFFF).toUInt16⟩ }

/-- The address the processor puts together from a gate. -/
def gateAddress (entry : IdtEntry) : UInt32 :=
  entry.offsetLow.toUInt32 + entry.offsetHigh.toUInt32 <<< 16

def picInit (s : State) : State :=
  [(pic1Cmd,0x11),(pic2Cmd,0x11),(pic1Data,0x20),(pic2Data,0x28),(pic1Data,0x04),(pic2Data,0x02),
    (pic1Data,0x01),(pic2Data,0x01),(pic1Data,0xFF),(pic2Data,0xFF)].foldl
    (fun s write => outb write.1 write.2 s) s

def picSendEoi (irq : UInt8) (s : State) : State :=
  outb pic1Cmd picEoi (if 8 ≤ irq then outb pic2Cmd picEoi s else s)

def apicInitInternal (s : State) : State :=
  if s.cpuidEdx &&& (1 : UInt32) <<< 9 = 0 then { s with apicEnabled := false }
  else
    let msrLow := s.apicBaseLow ||| (1 : UInt32) <<< 11
    let s := send (.wrmsr 0x1B msrLow s.apicBaseHigh) { s with apicBaseLow := msrLow }
    let s := apicWrite apicSpurious (s.apic apicSpurious ||| 0x100 ||| 0xFF) s
    let s := apicWrite apicLvtTimer (0x20 ||| 0x20000) s
    { s with apicEnabled := true }

def pitHandler (s : State) : State := { s with systemTicks := s.systemTicks + 1 }

def keyboardHandler (s : State) : State :=
  if s.ports 0x64 &&& 0x01 ≠ 0 then
    { s with lastScancode := s.ports 0x60, keyboardReady := true }
  else s

/-- The exception handler halts the machine and does not return. -/
def callHandler : InterruptHandler → State → Option State
  | .defaultExceptionHandler, _ => none
  | .pitHandler, s => some (pitHandler s)
  | .keyboardHandler, s => some (keyboardHandler s)

def halInterruptDispatcher (intNo : UInt8) (s : State) : Option State := do
  let s ← match s.interruptHandlers intNo with
    | some handler => callHandler handler s
    | none => if intNo < 32 then callHandler .defaultExceptionHandler s else some s
  if s.apicEnabled then return apicWrite apicEoi 0 s
  else if 32 ≤ intNo ∧ intNo ≤ 47 then return picSendEoi (intNo - 32) s
  else return s

def registerInterruptHandler (interruptNumber : UInt8) (handler : InterruptHandler)
    (s : State) : State :=
  { s with interruptHandlers := update s.interruptHandlers interruptNumber (some handler) }

def irqEnable (irq : UInt8) (s : State) : State :=
  if s.apicEnabled then s
  else
    let port := if irq < 8 then pic1Data else pic2Data
    let bit := if irq < 8 then irq else irq - 8
    outb port (s.ports port &&& ~~~(1 <<< bit)) s

def irqDisable (irq : UInt8) (s : State) : State :=
  if s.apicEnabled then s
  else
    let port := if irq < 8 then pic1Data else pic2Data
    let bit := if irq < 8 then irq else irq - 8
    outb port (s.ports port ||| (1 <<< bit)) s

def initTimer (frequency : UInt32) (s : State) : State :=
  if frequency = 0 then s
  else
    let divisor := 1193180 / frequency
    let s := outb 0x43 0x36 s
    let s := outb 0x40 (divisor &&& 0xFF).toUInt8 s
    let s := outb 0x40 (divisor >>> 8 &&& 0xFF).toUInt8 s
    irqEnable 0 (registerInterruptHandler 32 .pitHandler s)

def keyboardInit (s : State) : State :=
  irqEnable 1 (registerInterruptHandler 33 .keyboardHandler s)

def keyboardReadScancode (s : State) : UInt8 × State :=
  if ¬s.keyboardReady then (0,s) else (s.lastScancode,{ s with keyboardReady := false })

inductive Code
  | isrStub (vector : UInt8)
  | keyboardHandlerAsm
deriving DecidableEq

/-- A linked kernel: where its interrupt routines are, and what is at an address. -/
structure Image where
  isrStubTable : UInt8 → UInt32
  keyboardHandlerAsm : UInt32
  codeAt : UInt32 → Option Code
  stub_at : ∀ vector, codeAt (isrStubTable vector) = some (.isrStub vector)
  asm_at : codeAt keyboardHandlerAsm = some .keyboardHandlerAsm

/-- The loop of init over the gates after its first n iterations. -/
def setGates (image : Image) : Nat → State → State
  | 0, s => s
  | n+1, s =>
    let i := UInt8.ofNat n
    idtSetGate i (image.isrStubTable i) 0x08 0x8E (setGates image n s)

/-- The loop of init over the exceptions after its first n iterations. -/
def registerExceptions : Nat → State → State
  | 0, s => s
  | n+1, s => registerInterruptHandler (UInt8.ofNat n) .defaultExceptionHandler (registerExceptions n s)

def init (image : Image) (s : State) : State :=
  let s := apicInitInternal (picInit s)
  let s := send (.lidt (256 * 8 - 1)) (setGates image 256 s)
  let s := registerExceptions 32 s
  let s := if s.apicEnabled then s else irqEnable 2 s
  send .sti (keyboardInit (initTimer 1000 s))

/-! The two halves of the dispatcher. -/

def handled (intNo : UInt8) (s : State) : Option State :=
  match s.interruptHandlers intNo with
  | some handler => callHandler handler s
  | none => if intNo < 32 then callHandler .defaultExceptionHandler s else some s

def acknowledged (intNo : UInt8) (s : State) : State :=
  if s.apicEnabled then apicWrite apicEoi 0 s
  else if 32 ≤ intNo ∧ intNo ≤ 47 then picSendEoi (intNo - 32) s
  else s

theorem dispatcher_halves (intNo : UInt8) (s : State) :
    halInterruptDispatcher intNo s = (handled intNo s).map (acknowledged intNo) := by
  have last : ∀ t : State, (if t.apicEnabled then some (apicWrite apicEoi 0 t)
      else if 32 ≤ intNo ∧ intNo ≤ 47 then some (picSendEoi (intNo - 32) t) else some t) =
        some (acknowledged intNo t) := by
    intro t
    unfold acknowledged
    split_ifs <;> rfl
  unfold halInterruptDispatcher handled
  cases s.interruptHandlers intNo with
  | some handler =>
    dsimp only
    cases callHandler handler s with
    | none => rfl
    | some t => exact last t
  | none =>
    dsimp only
    split
    next => rfl
    next => exact last s

theorem gateAddress_halves (handlerAddr : UInt32) (selector : UInt16) (zero flags : UInt8) :
    gateAddress ⟨(handlerAddr &&& 0xFFFF).toUInt16,selector,zero,flags,
      (handlerAddr >>> 16 &&& 0xFFFF).toUInt16⟩ = handlerAddr := by
  apply UInt32.toNat_inj.mp
  have word := handlerAddr.toNat_lt
  have mask : ∀ x : Nat, x &&& 65535 = x % 2^16 := fun x => Nat.and_two_pow_sub_one_eq_mod x 16
  simp only [gateAddress,UInt32.toNat_add,UInt16.toNat_toUInt32,UInt32.toNat_toUInt16,
    UInt32.toNat_and,UInt32.toNat_shiftLeft,UInt32.toNat_shiftRight,UInt32.reduceToNat,mask,
    Nat.shiftLeft_eq,Nat.shiftRight_eq_div_pow,Nat.reduceMod,Nat.reducePow]
  omega

end Xbtos.Hal
