import Xbtos.Hal
import Mathlib.Data.List.Basic

/-! How a key gets from IRQ1 to the shell. kernel_main sets the gate of vector 0x21 to
the shell's handler, and the HAL's handler, which alone fills the mailbox that the
shell's handler reads, is never run. -/
namespace Xbtos.Hal
open Function

structure Machine (σ : Type) where
  hal : State
  shell : σ

/-- What kernel_main sets up. Of its other calls none touches the state of the HAL. -/
def kernelMain (image : Image) (s : State) : State :=
  send .sti (idtSetGate 0x21 image.keyboardHandlerAsm 0x08 0x8E (init image s))

/-- keyboard_handler of kernel/main.cpp; process is what it does with the scancode. -/
def shellKeyboardHandler {σ : Type} (process : UInt8 → σ → σ) (m : Machine σ) : Machine σ :=
  let (scancode,hal) := keyboardReadScancode m.hal
  ⟨send (.endOfInterrupt 1) hal,process scancode m.shell⟩

/-- An interrupt runs what the gate of its vector leads to. -/
def deliver {σ : Type} (image : Image) (process : UInt8 → σ → σ) (vector : UInt8)
    (m : Machine σ) : Option (Machine σ) := do
  match ← image.codeAt (gateAddress (m.hal.idt vector)) with
  | .isrStub vector => return { m with hal := ← halInterruptDispatcher vector m.hal }
  | .keyboardHandlerAsm => return shellKeyboardHandler process m

/-- The keyboard controller has a scancode, and bit 0 of its status is set. -/
def present (status scancode : UInt8) (s : State) : State :=
  { s with ports := update (update s.ports 0x64 (status ||| 1)) 0x60 scancode }

theorem keyboardHandler_present (status scancode : UInt8) (s : State) :
    (keyboardHandler (present status scancode s)).keyboardReady = true ∧
      (keyboardHandler (present status scancode s)).lastScancode = scancode := by
  have full : (status ||| 1) &&& 1 = 1 := by
    apply UInt8.toNat_inj.mp
    simp [Nat.and_one_is_mod]
  have ready : (present status scancode s).ports 0x64 &&& 0x01 ≠ 0 := by
    simp [present,full]
  have code : (present status scancode s).ports 0x60 = scancode := by simp [present]
  rw [keyboardHandler,if_pos ready]
  exact ⟨rfl,code⟩

inductive Event
  | key (status scancode : UInt8)
  | timer

def Event.run {σ : Type} (image : Image) (process : UInt8 → σ → σ) :
    Event → Machine σ → Option (Machine σ)
  | .key status scancode, m =>
    deliver image process 0x21 { m with hal := present status scancode m.hal }
  | .timer, m => deliver image process 0x20 m

def runAll {σ : Type} (image : Image) (process : UInt8 → σ → σ) :
    List Event → Machine σ → Option (Machine σ)
  | [], m => some m
  | event :: events, m => do runAll image process events (← event.run image process m)

def Event.scancode : Event → Option UInt8
  | .key _ scancode => some scancode
  | .timer => none

def delivered (events : List Event) : List UInt8 := events.filterMap Event.scancode

/-! What talks to devices only. -/

structure Quiet (s s' : State) : Prop where
  idt : s'.idt = s.idt
  interruptHandlers : s'.interruptHandlers = s.interruptHandlers
  keyboardReady : s'.keyboardReady = s.keyboardReady

theorem Quiet.trans {s t u : State} (first : Quiet s t) (second : Quiet t u) : Quiet s u :=
  ⟨second.idt.trans first.idt,second.interruptHandlers.trans first.interruptHandlers,
    second.keyboardReady.trans first.keyboardReady⟩

theorem quiet_send (out : Output) (s : State) : Quiet s (send out s) := ⟨rfl,rfl,rfl⟩

theorem quiet_outb (port : UInt16) (value : UInt8) (s : State) : Quiet s (outb port value s) :=
  ⟨rfl,rfl,rfl⟩

theorem quiet_writes (writes : List (UInt16 × UInt8)) (s : State) :
    Quiet s (writes.foldl (fun s write => outb write.1 write.2 s) s) := by
  induction writes generalizing s with
  | nil => exact ⟨rfl,rfl,rfl⟩
  | cons write writes ih => exact (quiet_outb _ _ s).trans (ih _)

theorem quiet_picInit (s : State) : Quiet s (picInit s) := quiet_writes _ s

theorem quiet_picSendEoi (irq : UInt8) (s : State) : Quiet s (picSendEoi irq s) := by
  unfold picSendEoi
  split
  next => exact (quiet_outb _ _ _).trans (quiet_outb _ _ _)
  next => exact quiet_outb _ _ _

theorem quiet_apicInitInternal (s : State) : Quiet s (apicInitInternal s) := by
  unfold apicInitInternal
  split
  next => exact ⟨rfl,rfl,rfl⟩
  next => exact ⟨rfl,rfl,rfl⟩

theorem quiet_irqEnable (irq : UInt8) (s : State) : Quiet s (irqEnable irq s) := by
  unfold irqEnable
  split
  next => exact ⟨rfl,rfl,rfl⟩
  next => exact quiet_outb _ _ _

/-! The set-up. -/

theorem setGates_idt (image : Image) {n : Nat} (s : State) {vector : UInt8}
    (done : vector.toNat < n) (bound : n ≤ 256) :
    gateAddress ((setGates image n s).idt vector) = image.isrStubTable vector := by
  induction n with
  | zero => omega
  | succ n ih =>
    simp only [setGates,idtSetGate]
    by_cases last : vector = UInt8.ofNat n
    · subst last
      rw [update_self]
      exact gateAddress_halves _ _ _ _
    · rw [update_of_ne last]
      have other : vector.toNat ≠ n := by
        intro same
        apply last
        rw [← same,UInt8.ofNat_toNat]
      exact ih (by omega) (by omega)

theorem setGates_keyboardReady (image : Image) (n : Nat) (s : State) :
    (setGates image n s).keyboardReady = s.keyboardReady := by
  induction n with
  | zero => rfl
  | succ n ih => exact ih

structure Gated (image : Image) (s s' : State) : Prop where
  gates : ∀ vector, gateAddress (s'.idt vector) = image.isrStubTable vector
  keyboardReady : s'.keyboardReady = s.keyboardReady

theorem gated_setGates (image : Image) {s t : State} (quiet : Quiet s t) :
    Gated image s (setGates image 256 t) :=
  ⟨fun vector => setGates_idt image t vector.toNat_lt (Nat.le_refl 256),
    (setGates_keyboardReady image 256 t).trans quiet.keyboardReady⟩

theorem Gated.quiet {image : Image} {s t u : State} (gated : Gated image s t) (quiet : Quiet t u) :
    Gated image s u :=
  ⟨fun vector => by rw [quiet.idt]; exact gated.gates vector,
    quiet.keyboardReady.trans gated.keyboardReady⟩

theorem Gated.register {image : Image} {s t : State} (gated : Gated image s t)
    (interruptNumber : UInt8) (handler : InterruptHandler) :
    Gated image s (registerInterruptHandler interruptNumber handler t) :=
  ⟨gated.gates,gated.keyboardReady⟩

theorem Gated.registerExceptions {image : Image} {s t : State} (gated : Gated image s t) (n : Nat) :
    Gated image s (Hal.registerExceptions n t) := by
  induction n with
  | zero => exact gated
  | succ n ih => exact ih.register _ _

theorem registered_same (interruptNumber : UInt8) (handler : InterruptHandler) (s : State) :
    (registerInterruptHandler interruptNumber handler s).interruptHandlers interruptNumber =
      some handler := by
  simp [registerInterruptHandler]

theorem registered_other {interruptNumber other : UInt8} (handler : InterruptHandler) (s : State)
    (apart : other ≠ interruptNumber) :
    (registerInterruptHandler interruptNumber handler s).interruptHandlers other =
      s.interruptHandlers other := by
  simp [registerInterruptHandler,apart]

theorem quiet_cascade (s : State) : Quiet s (if s.apicEnabled then s else irqEnable 2 s) := by
  split
  next => exact ⟨rfl,rfl,rfl⟩
  next => exact quiet_irqEnable 2 s

theorem Gated.initTimer {image : Image} {s t : State} (gated : Gated image s t)
    {frequency : UInt32} (real : frequency ≠ 0) :
    Gated image s (Hal.initTimer frequency t) ∧
      (Hal.initTimer frequency t).interruptHandlers 32 = some .pitHandler := by
  unfold Hal.initTimer
  rw [if_neg real]
  constructor
  · apply Gated.quiet _ (quiet_irqEnable 0 _)
    apply Gated.register
    exact gated.quiet (((quiet_outb _ _ t).trans (quiet_outb _ _ _)).trans (quiet_outb _ _ _))
  · rw [(quiet_irqEnable 0 _).interruptHandlers]
    exact registered_same 32 .pitHandler _

theorem Gated.keyboardInit {image : Image} {s t : State} (gated : Gated image s t)
    (pit : t.interruptHandlers 32 = some .pitHandler) :
    Gated image s (Hal.keyboardInit t) ∧
      (Hal.keyboardInit t).interruptHandlers 32 = some .pitHandler := by
  refine ⟨(gated.register 33 .keyboardHandler).quiet (quiet_irqEnable 1 _),?_⟩
  unfold Hal.keyboardInit
  rw [(quiet_irqEnable 1 _).interruptHandlers]
  exact (registered_other .keyboardHandler t (by decide)).trans pit

theorem gated_init (image : Image) (s : State) :
    Gated image s (init image s) ∧ (init image s).interruptHandlers 32 = some .pitHandler := by
  have devices := (quiet_picInit s).trans (quiet_apicInitInternal (picInit s))
  have loaded := (gated_setGates image devices).quiet (quiet_send (.lidt (256 * 8 - 1)) _)
  have cascaded := (loaded.registerExceptions 32).quiet (quiet_cascade _)
  obtain ⟨timed,pit⟩ := cascaded.initTimer (show (1000 : UInt32) ≠ 0 by decide)
  obtain ⟨ready,kept⟩ := timed.keyboardInit pit
  exact ⟨ready.quiet (quiet_send .sti _),kept⟩

theorem setGates_beside (image : Image) (n : Nat) (s : State) :
    (setGates image n s).output = s.output ∧ (setGates image n s).ports = s.ports ∧
      (setGates image n s).apicEnabled = s.apicEnabled ∧
      (setGates image n s).interruptHandlers = s.interruptHandlers := by
  induction n with
  | zero => exact ⟨rfl,rfl,rfl,rfl⟩
  | succ n ih => exact ih

theorem registerExceptions_handlers {n : Nat} (few : n ≤ 32) (s : State) (vector : UInt8) :
    (registerExceptions n s).interruptHandlers vector =
      if vector.toNat < n then some .defaultExceptionHandler else s.interruptHandlers vector := by
  induction n with
  | zero => rfl
  | succ n ih =>
    have number : (UInt8.ofNat n).toNat = n := by
      rw [UInt8.toNat_ofNat']
      omega
    unfold registerExceptions
    by_cases last : vector = UInt8.ofNat n
    · rw [last,number,if_pos (Nat.lt_succ_self n)]
      exact registered_same _ _ _
    · have apart : vector.toNat ≠ n := fun same => last (UInt8.toNat_inj.mp (same.trans number.symm))
      have before : vector.toNat < n + 1 ↔ vector.toNat < n := by omega
      rw [registered_other _ _ last,ih (by omega)]
      simp only [before]

theorem keyboardInit_handlers (s : State) : (keyboardInit s).interruptHandlers =
    update s.interruptHandlers 33 (some .keyboardHandler) :=
  (quiet_irqEnable 1 _).interruptHandlers

theorem initTimer_handlers {frequency : UInt32} (real : frequency ≠ 0) (s : State) :
    (initTimer frequency s).interruptHandlers = update s.interruptHandlers 32 (some .pitHandler) := by
  unfold initTimer
  rw [if_neg real]
  exact (quiet_irqEnable 0 _).interruptHandlers

/-- What the set-up registers. -/
theorem registered_init (image : Image) (s : State) (vector : UInt8) : (init image s).interruptHandlers vector =
    if vector = 33 then some .keyboardHandler else if vector = 32 then some .pitHandler
    else if vector.toNat < 32 then some .defaultExceptionHandler else s.interruptHandlers vector := by
  have devices := ((quiet_picInit s).trans (quiet_apicInitInternal (picInit s))).interruptHandlers
  have gates := (setGates_beside image 256 (apicInitInternal (picInit s))).2.2.2
  have told := (quiet_send (.lidt (256 * 8 - 1))
    (setGates image 256 (apicInitInternal (picInit s)))).interruptHandlers
  unfold init
  dsimp only
  generalize setGates image 256 (apicInitInternal (picInit s)) = t at gates told ⊢
  generalize send (.lidt (256 * 8 - 1)) t = u at told ⊢
  have exceptions := registerExceptions_handlers (Nat.le_refl 32) u vector
  have cascade := (quiet_cascade (registerExceptions 32 u)).interruptHandlers
  rw [told,gates,devices] at exceptions
  rw [(quiet_send .sti _).interruptHandlers,keyboardInit_handlers,initTimer_handlers (by decide),cascade]
  simp only [update_apply,exceptions]

/-! After the set-up. -/

/-- The mailbox is empty and the HAL's keyboard handler is out of reach. -/
structure Bypassed (image : Image) (s : State) : Prop where
  empty : s.keyboardReady = false
  keyboard : gateAddress (s.idt 0x21) = image.keyboardHandlerAsm
  timer : gateAddress (s.idt 0x20) = image.isrStubTable 0x20
  pit : s.interruptHandlers 0x20 = some .pitHandler

theorem Bypassed.quiet {image : Image} {s t : State} (bypassed : Bypassed image s)
    (quiet : Quiet s t) : Bypassed image t :=
  ⟨quiet.keyboardReady.trans bypassed.empty,by rw [quiet.idt]; exact bypassed.keyboard,
    by rw [quiet.idt]; exact bypassed.timer,by rw [quiet.interruptHandlers]; exact bypassed.pit⟩

theorem bypassed_kernelMain (image : Image) {s : State} (empty : s.keyboardReady = false) :
    Bypassed image (kernelMain image s) := by
  obtain ⟨gated,pit⟩ := gated_init image s
  have apart : (0x20 : UInt8) ≠ 0x21 := by decide
  unfold kernelMain
  generalize init image s = t at gated pit
  refine ⟨gated.keyboardReady.trans empty,?_,?_,pit⟩
  · simp only [send,idtSetGate,update_self]
    exact gateAddress_halves _ _ _ _
  · simp only [send,idtSetGate,update_of_ne apart]
    exact gated.gates 0x20

theorem Bypassed.tick {image : Image} {s : State} (bypassed : Bypassed image s) :
    ∃ s', halInterruptDispatcher 0x20 s = some s' ∧ Bypassed image s' := by
  have ticked : Bypassed image (pitHandler s) := bypassed.quiet ⟨rfl,rfl,rfl⟩
  simp only [halInterruptDispatcher,bypassed.pit,callHandler,Option.bind_eq_bind,Option.bind_some]
  split
  next => exact ⟨_,rfl,ticked.quiet ⟨rfl,rfl,rfl⟩⟩
  next => exact ⟨_,rfl,ticked.quiet (quiet_picSendEoi _ _)⟩

def Event.effect {σ : Type} (process : UInt8 → σ → σ) : Event → σ → σ
  | .key _ _ => process 0
  | .timer => id

theorem Bypassed.step {σ : Type} {image : Image} {m : Machine σ} (bypassed : Bypassed image m.hal)
    (process : UInt8 → σ → σ) (event : Event) :
    ∃ m', event.run image process m = some m' ∧ Bypassed image m'.hal ∧
      m'.shell = event.effect process m.shell := by
  cases event with
  | key status scancode =>
    have waiting : Bypassed image (present status scancode m.hal) :=
      bypassed.quiet ⟨rfl,rfl,rfl⟩
    have handler : image.codeAt (gateAddress ((present status scancode m.hal).idt 0x21)) =
        some .keyboardHandlerAsm := by rw [waiting.keyboard,image.asm_at]
    refine ⟨⟨send (.endOfInterrupt 1) (present status scancode m.hal),process 0 m.shell⟩,?_,
      waiting.quiet (quiet_send _ _),rfl⟩
    simp [Event.run,deliver,handler,shellKeyboardHandler,keyboardReadScancode,waiting.empty]
  | timer =>
    have handler : image.codeAt (gateAddress (m.hal.idt 0x20)) = some (.isrStub 0x20) := by
      rw [bypassed.timer,image.stub_at]
    obtain ⟨s',dispatched,still⟩ := bypassed.tick
    exact ⟨{ m with hal := s' },by simp [Event.run,deliver,handler,dispatched],still,rfl⟩

/-- However many keys come, the shell processes as many zeros. -/
theorem Bypassed.runAll {σ : Type} {image : Image} {m : Machine σ}
    (bypassed : Bypassed image m.hal) (process : UInt8 → σ → σ) (events : List Event) :
    ∃ m', Hal.runAll image process events m = some m' ∧
      m'.shell = (List.replicate (delivered events).length 0).foldl (fun shell b => process b shell)
        m.shell := by
  induction events generalizing m with
  | nil => exact ⟨m,rfl,rfl⟩
  | cons event events ih =>
    obtain ⟨m₁,ran,still,effect⟩ := bypassed.step process event
    obtain ⟨m',rest,shell⟩ := ih still
    refine ⟨m',by simp [Hal.runAll,ran,rest],?_⟩
    rw [shell,effect]
    cases event with
    | key => rfl
    | timer => rfl

/-! Which keys reach the shell. -/

structure Devices where
  ports : UInt16 → UInt8
  apic : UInt32 → UInt32
  cpuidEdx : UInt32
  apicBaseLow : UInt32
  apicBaseHigh : UInt32

/-- The variables of hal.cpp as they are loaded. -/
def loaded (devices : Devices) : State :=
  ⟨fun _ => ⟨0,0,0,0,0⟩,fun _ => none,false,0,0,false,devices.ports,devices.apic,
    devices.cpuidEdx,devices.apicBaseLow,devices.apicBaseHigh,[]⟩

def record (scancode : UInt8) (processed : List UInt8) : List UInt8 := processed ++ [scancode]

theorem foldl_record (bytes processed : List UInt8) :
    bytes.foldl (fun shell b => record b shell) processed = processed ++ bytes := by
  induction bytes generalizing processed with
  | nil => simp
  | cons b bytes ih => rw [List.foldl_cons,ih,record,List.append_assoc,List.singleton_append]

/-- After kernel_main the shell processes exactly the bytes delivered only if they are
all zero: it processes a zero for every key. -/
theorem keys_processed_iff (image : Image) (devices : Devices) (events : List Event) :
    ∃ m, runAll image record events ⟨kernelMain image (loaded devices),[]⟩ = some m ∧
      (m.shell = delivered events ↔ ∀ b ∈ delivered events, b = 0) := by
  have bypassed := bypassed_kernelMain image (s := loaded devices) rfl
  obtain ⟨m,ran,shell⟩ := Bypassed.runAll (m := ⟨kernelMain image (loaded devices),[]⟩) bypassed
    record events
  rw [foldl_record,List.nil_append] at shell
  refine ⟨m,ran,?_⟩
  rw [shell,eq_comm,List.eq_replicate_iff]
  exact and_iff_right rfl

def smallImage : Image where
  isrStubTable vector := vector.toUInt32
  keyboardHandlerAsm := 256
  codeAt address :=
    if address < 256 then some (.isrStub address.toUInt8)
    else if address = 256 then some .keyboardHandlerAsm else none
  stub_at vector := by
    have small : vector.toUInt32 < 256 := by
      rw [UInt32.lt_iff_toNat_lt]
      exact vector.toNat_lt
    rw [if_pos small]
    simp
  asm_at := by decide

def smallDevices : Devices := ⟨fun _ => 0,fun _ => 0,0,0,0⟩

/-- The first key pressed, A, is lost: the shell processes a zero. -/
theorem key_lost : ∃ m, runAll smallImage record [.key 0 0x1E]
    ⟨kernelMain smallImage (loaded smallDevices),[]⟩ = some m ∧ m.shell = [0] ∧
      m.shell ≠ delivered [.key 0 0x1E] := by
  have shell : (runAll smallImage record [.key 0 0x1E]
      ⟨kernelMain smallImage (loaded smallDevices),[]⟩).map Machine.shell = some [0] := by
    decide +kernel
  obtain ⟨m,ran,processed⟩ := Option.map_eq_some_iff.mp shell
  exact ⟨m,ran,processed,by rw [processed]; decide⟩

end Xbtos.Hal
