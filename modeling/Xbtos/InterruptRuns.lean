import Xbtos.InterruptEntry
import Xbtos.KeyDelivery
import Xbtos.Foundation.Interruption

/-! Interrupts that come between the instructions of the kernel. The gates lead to the routines
that save and restore the processor, so that a handler does to the machine what it would do if it
were simply called, and the interrupted program does not notice. -/
namespace Xbtos.Hal
open Function Foundation.ByteMemory Foundation.Processor Foundation.Interruption

/-- Where the routines enter a function: what an interrupt may need of the stack is still free
below. -/
structure Entry (z : Zone) (c : Cpu) : Prop where
  room : z.low + z.depth ≤ c.esp.toNat + 76
  bound : c.esp.toNat + 48 ≤ z.high
  word : c.esp.toNat + 48 < 2^32

/-- A function has returned, and has changed, beside variables of the handlers, only what is
below its arguments. -/
structure Returned (z : Zone) (arguments : Nat) (c c' : Cpu) : Prop where
  esp : c'.esp = c.esp + 4
  selector : ∀ source, c'.selector source = c.selector source
  clearsUpper : c'.clearsUpper = c.clearsUpper
  kept : ∀ x, ¬z.own x → x < z.low ∨ c.esp.toNat + 4 + arguments ≤ x → c'.memory x = c.memory x

/-- The argument is a pointer to the frame that lies above it. -/
def Passed (c : Cpu) : Prop := (word c.memory (c.esp.toNat + 4)).toNat = c.esp.toNat + 8

/-- What the routines call, as it is compiled. Nothing is asked of a call that is entered
elsewhere. -/
structure Handlers (z : Zone) {σ : Type} (process : UInt8 → σ → σ) where
  deep : 76 ≤ z.depth
  halInterruptDispatcher : Routine (Machine σ)
  keyboardHandler : Routine (Machine σ)
  dispatches : ∀ {c} m, Entry z c → Passed c → (halInterruptDispatcher (c,m)).map Prod.snd =
    let regs := readRegisters c.memory (word c.memory (c.esp.toNat + 4)).toNat
    (Hal.halInterruptDispatcher regs.intNo.toUInt8 m.hal).map fun hal => { m with hal := hal }
  takesKey : ∀ {c} m, Entry z c →
    (keyboardHandler (c,m)).map Prod.snd = some (shellKeyboardHandler process m)
  dispatcherReturns : ∀ {c m c' m'}, Entry z c → Passed c →
    halInterruptDispatcher (c,m) = some (c',m') → Returned z 4 c c'
  keyboardReturns : ∀ {c m c' m'}, Entry z c → keyboardHandler (c,m) = some (c',m') → Returned z 0 c c'

/-- An interrupt or a trap, and what the keyboard controller has when it comes. -/
structure Arrival where
  interrupt : Interrupt
  agrees : interrupt.errorCode.isSome = hasErrcode interrupt.vector
  plain : interrupt.resume = false
  key : Option (UInt8 × UInt8)

section
variable {z : Zone} {σ : Type} {process : UInt8 → σ → σ}

def Arrival.reaches (a : Arrival) (m : Machine σ) : Machine σ :=
  match a.key with
  | some (status,scancode) => { m with hal := present status scancode m.hal }
  | none => m

/-- The processor goes where the gate of the vector leads. -/
def enterGate (image : Image) (returnTo : UInt32)
    (halInterruptDispatcher keyboardHandler : Routine (Machine σ)) (i : Interrupt) (m : Cpu × Machine σ) :
    Option (Cpu × Machine σ) :=
  let gate := m.2.hal.idt i.vector
  let entered := (raise i gate.selector (gateAddress gate) m.1,m.2)
  match image.codeAt (gateAddress gate) with
  | some (.isrStub vector) => run (isr vector returnTo halInterruptDispatcher) entered
  | some .keyboardHandlerAsm => run (keyboardHandlerAsm returnTo keyboardHandler) entered
  | none => none

/-- A gate leads to the stub of its vector; that of the keyboard may have been replaced. -/
def GatesSet (image : Image) (s : State) : Prop := ∀ vector,
  image.codeAt (gateAddress (s.idt vector)) = some (.isrStub vector) ∨
    vector = 0x21 ∧ image.codeAt (gateAddress (s.idt vector)) = some .keyboardHandlerAsm

theorem gatesSet_init (image : Image) (s : State) : GatesSet image (init image s) := by
  intro vector
  rw [(gated_init image s).1.gates]
  exact .inl (image.stub_at vector)

theorem GatesSet.replaced {image : Image} {s : State} (gates : GatesSet image s) (selector : UInt16)
    (flags : UInt8) : GatesSet image (idtSetGate 0x21 image.keyboardHandlerAsm selector flags s) := by
  intro vector
  simp only [idtSetGate]
  by_cases keyboard : vector = 0x21
  · subst keyboard
    rw [update_self,gateAddress_halves]
    exact .inr ⟨rfl,image.asm_at⟩
  · rw [update_of_ne keyboard]
    exact gates vector

theorem GatesSet.same {image : Image} {s t : State} (gates : GatesSet image s) (same : t.idt = s.idt) :
    GatesSet image t := by
  unfold GatesSet
  rw [same]
  exact gates

theorem gatesSet_kernelMain (image : Image) (s : State) : GatesSet image (kernelMain image s) :=
  ((gatesSet_init image s).replaced 0x08 0x8E).same rfl

theorem callHandler_idt {handler : InterruptHandler} {s s' : State} (called : callHandler handler s = some s') :
    s'.idt = s.idt := by
  cases handler with
  | defaultExceptionHandler => cases called
  | pitHandler =>
    cases called
    rfl
  | keyboardHandler =>
    cases called
    unfold keyboardHandler
    split <;> rfl

/-- Neither the entry through a gate nor the function that is entered touches the segments. -/
theorem Returned.segments {arguments : Nat} {i : Interrupt} {selector : UInt16} {offset : UInt32}
    {c entered c' : Cpu} (returned : Returned z arguments entered c')
    (only : OnlyStack (raise i selector offset c) entered) :
    c'.ds = c.ds ∧ c'.es = c.es ∧ c'.fs = c.fs ∧ c'.gs = c.gs ∧ c'.clearsUpper = c.clearsUpper := by
  have raised := raise_same i selector offset c
  have kept : ∀ source, c'.selector source = (raise i selector offset c).selector source := fun source =>
    (returned.selector source).trans (only.selector source)
  refine ⟨?_,?_,?_,?_,?_⟩
  · exact (kept .ds).trans (congrArg Cpu.ds raised :)
  · exact (kept .es).trans (congrArg Cpu.es raised :)
  · exact (kept .fs).trans (congrArg Cpu.fs raised :)
  · exact (kept .gs).trans (congrArg Cpu.gs raised :)
  · exact returned.clearsUpper.trans ((congrArg Cpu.clearsUpper only :).trans (congrArg Cpu.clearsUpper raised :))

def Handlers.entered (image : Image) (returnTo : UInt32) (handlers : Handlers z process) (i : Interrupt)
    (m : Cpu × Machine σ) : Option (Cpu × Machine σ) :=
  enterGate image returnTo handlers.halInterruptDispatcher handlers.keyboardHandler i m

/-- The dispatcher finds the whole context of the interrupted program in its frame, and what it
leaves there, the stack pointer apart, is the context with which that program goes on. -/
theorem context_round_trip (image : Image) (returnTo : UInt32)
    (halInterruptDispatcher keyboardHandler : Compiled (Machine σ)) (hal : State) (shell : σ)
    {i : Interrupt} (agrees : i.errorCode.isSome = hasErrcode i.vector) (other : i.vector ≠ 0x21)
    {c : Cpu} (room : 76 ≤ c.esp.toNat) : ∃ entered, Entered i c entered ∧
      enterGate image returnTo halInterruptDispatcher.call keyboardHandler.call i (c,⟨kernelMain image hal,shell⟩) =
        (halInterruptDispatcher.call (entered,⟨kernelMain image hal,shell⟩)).map fun (c',m') =>
          (resumed (readRegisters c'.memory (entered.esp.toNat + 8)) c.esp c',m') := by
  obtain gate | ⟨keyboard,_⟩ := gatesSet_kernelMain image hal i.vector
  · unfold enterGate
    dsimp only
    rw [gate]
    obtain ⟨entered,entry,runs⟩ := isr_runs i agrees _ _ room returnTo halInterruptDispatcher.call _
    exact ⟨entered,entry,runs fun _ _ => halInterruptDispatcher.returns⟩
  · exact absurd keyboard other

end

/-! A machine on which the routines call the handlers as they are modelled. -/

/-- A function that saves ebp below its return address while it runs. -/
def modelled {σ : Type} (effect : Cpu → σ → Option σ) : Compiled σ where
  call m := (effect m.1 m.2).map fun s => (drop { push m.1.ebp m.1 with esp := m.1.esp },s)
  returns := by
    intro c s c' s' returned
    obtain ⟨_,_,same⟩ := Option.map_eq_some_iff.mp returned
    cases same
    rfl
  keeps := by
    intro c s c' s' returned
    obtain ⟨_,_,same⟩ := Option.map_eq_some_iff.mp returned
    cases same
    exact ⟨fun source => by cases source <;> rfl,rfl⟩

def idleCpu : Cpu where
  eax := 0
  ecx := 0
  edx := 0
  ebx := 0
  esp := 0x90000
  ebp := 0
  esi := 0
  edi := 0
  ds := 0x10
  es := 0x10
  fs := 0x10
  gs := 0x10
  cs := 0x08
  eip := 0
  eflags := 0x202
  memory _ := 0
  clearsUpper := true

def sampleMachine : Machine (List UInt8) := ⟨kernelMain smallImage (loaded smallDevices),[]⟩

/-- A page fault, with its error code. -/
theorem context_round_trip_fault : ∃ entered, Entered ⟨14,some 2,true⟩ idleCpu entered ∧
    enterGate smallImage 0 (modelled fun _ m => some m).call (modelled fun _ m => some m).call ⟨14,some 2,true⟩
        (idleCpu,sampleMachine) =
      ((modelled fun _ m => some m).call (entered,sampleMachine)).map fun (c',m') =>
        (resumed (readRegisters c'.memory (entered.esp.toNat + 8)) idleCpu.esp c',m') :=
  context_round_trip smallImage 0 _ _ (loaded smallDevices) [] (i := ⟨14,some 2,true⟩)
    (by decide) (by decide) (by decide)

end Xbtos.Hal
