import Xbtos.InterruptRuns

/-! What init registers, and what an interrupt comes to by it. Behind its stub it runs the handler
of the HAL, if there is one; the keyboard's runs that of the kernel once its gate is replaced. -/
namespace Xbtos.Hal
open Function

/-- What kernel_main does to the HAL behind hal_init. -/
def replaceGate (image : Image) (s : State) : State :=
  send .sti (idtSetGate 0x21 image.keyboardHandlerAsm 0x08 0x8E s)

/-- What the mailbox would give to keyboard_read_scancode. -/
def mailbox (s : State) : UInt8 := (keyboardReadScancode s).1

/-- What init registers, and where the gate of the keyboard leads. -/
structure Registered (image : Image) (keyboard : Code) (s : State) : Prop where
  gates : ∀ vector, image.codeAt (gateAddress (s.idt vector)) =
    some (if vector = 0x21 then keyboard else .isrStub vector)
  handlers : ∀ vector, s.interruptHandlers vector =
    if vector = 33 then some .keyboardHandler else if vector = 32 then some .pitHandler
    else if vector.toNat < 32 then some .defaultExceptionHandler else none

theorem Registered.same {image : Image} {keyboard : Code} {s t : State} (registered : Registered image keyboard s)
    (idt : t.idt = s.idt) (handlers : t.interruptHandlers = s.interruptHandlers) : Registered image keyboard t := by
  refine ⟨?_,?_⟩
  · rw [idt]
    exact registered.gates
  · rw [handlers]
    exact registered.handlers

theorem registered_booted (image : Image) (devices : Devices) :
    Registered image (.isrStub 0x21) (init image (loaded devices)) := by
  have gates := (gated_init image (loaded devices)).1.gates
  have handlers := registered_init image (loaded devices)
  generalize init image (loaded devices) = s at gates handlers ⊢
  refine ⟨fun vector => ?_,handlers⟩
  rw [gates,image.stub_at]
  split
  next keyboard => rw [keyboard]
  next => rfl

theorem Registered.replaced {image : Image} {keyboard : Code} {s : State} (registered : Registered image keyboard s) :
    Registered image .keyboardHandlerAsm (replaceGate image s) := by
  refine ⟨fun vector => ?_,registered.handlers⟩
  simp only [replaceGate,send,idtSetGate]
  split
  next keyboard =>
    subst keyboard
    rw [update_self,gateAddress_halves]
    exact image.asm_at
  next other =>
    rw [update_of_ne other,registered.gates,if_neg other]

/-- The mailbox keeps what it holds. -/
structure Mute (s t : State) : Prop extends Quiet s t where
  lastScancode : t.lastScancode = s.lastScancode

theorem Mute.mailbox {s t : State} (mute : Mute s t) : mailbox t = mailbox s := by
  unfold Hal.mailbox keyboardReadScancode
  rw [mute.keyboardReady,mute.lastScancode]
  split_ifs <;> rfl

theorem mute_tick (s : State) : Mute s (pitHandler s) := ⟨⟨rfl,rfl,rfl⟩,rfl⟩

theorem mute_present (status scancode : UInt8) (s : State) : Mute s (present status scancode s) :=
  ⟨⟨rfl,rfl,rfl⟩,rfl⟩

theorem acknowledged_beside (intNo : UInt8) (s : State) :
    Mute s (acknowledged intNo s) ∧ (acknowledged intNo s).systemTicks = s.systemTicks := by
  unfold acknowledged
  split_ifs
  · exact ⟨⟨⟨rfl,rfl,rfl⟩,rfl⟩,rfl⟩
  · refine ⟨⟨quiet_picSendEoi _ _,?_⟩,?_⟩
    all_goals
      unfold picSendEoi
      split_ifs <;> rfl
  · exact ⟨⟨⟨rfl,rfl,rfl⟩,rfl⟩,rfl⟩

/-- What an interrupt that goes through its stub leaves in the mailbox. -/
def posted (vector : UInt8) (s : State) : UInt8 := mailbox (if vector = 0x21 then keyboardHandler s else s)

/-- What is left when the dispatcher has run the handler of a vector. -/
structure Served (image : Image) (keyboard : Code) (vector : UInt8) (s t : State) : Prop where
  registered : Registered image keyboard t
  mailbox : Hal.mailbox t = posted vector s
  ticks : t.systemTicks = if vector = 0x20 then s.systemTicks + 1 else s.systemTicks

theorem Registered.handled {image : Image} {keyboard : Code} {s : State} (registered : Registered image keyboard s)
    {vector : UInt8} (external : 32 ≤ vector.toNat) :
    ∃ t, Hal.handled vector s = some t ∧ Served image keyboard vector s t := by
  unfold Hal.handled
  rw [registered.handlers vector,if_neg (Nat.not_lt.mpr external)]
  by_cases key : vector = 0x21
  · have called : callHandler .keyboardHandler s = some (keyboardHandler s) := rfl
    have idt : (keyboardHandler s).idt = s.idt := callHandler_idt called
    have handlers : (keyboardHandler s).interruptHandlers = s.interruptHandlers := by
      unfold keyboardHandler
      split <;> rfl
    refine ⟨keyboardHandler s,if_pos key ▸ rfl,registered.same idt handlers,?_,?_⟩
    · rw [posted,if_pos key]
    · rw [key,if_neg (by decide)]
      unfold keyboardHandler
      split <;> rfl
  · by_cases timer : vector = 0x20
    · refine ⟨pitHandler s,?_,registered.same rfl rfl,?_,?_⟩
      · rw [if_neg key,if_pos timer]
        rfl
      · rw [posted,if_neg key]
        exact (mute_tick s).mailbox
      · rw [if_pos timer]
        rfl
    · have above : ¬vector < 32 := by
        rw [UInt8.lt_iff_toNat_lt]
        exact Nat.not_lt.mpr external
      refine ⟨s,?_,registered,?_,(if_neg timer).symm⟩
      · rw [if_neg key,if_neg timer]
        exact if_neg above
      · rw [posted,if_neg key]

theorem Registered.dispatch {image : Image} {keyboard : Code} {s : State} (registered : Registered image keyboard s)
    {vector : UInt8} (external : 32 ≤ vector.toNat) :
    ∃ t, halInterruptDispatcher vector s = some t ∧ Served image keyboard vector s t := by
  obtain ⟨t,done,served⟩ := registered.handled external
  obtain ⟨mute,ticks⟩ := acknowledged_beside vector t
  refine ⟨acknowledged vector t,by rw [dispatcher_halves,done]; rfl,?_,mute.mailbox.trans served.mailbox,
    ticks.trans served.ticks⟩
  exact served.registered.same mute.idt mute.interruptHandlers

theorem Registered.halts {image : Image} {keyboard : Code} {s : State} (registered : Registered image keyboard s)
    {vector : UInt8} (exception : vector.toNat < 32) : halInterruptDispatcher vector s = none := by
  have apart : ∀ other : UInt8, 32 ≤ other.toNat → vector ≠ other := by
    rintro other external rfl
    exact absurd exception (Nat.not_lt.mpr external)
  rw [dispatcher_halves,Hal.handled,registered.handlers vector,if_neg (apart 33 (by decide)),
    if_neg (apart 32 (by decide)),if_pos exception]
  rfl

section
variable {σ : Type} {image : Image} {keyboard : Code} {m : Machine σ}

/-- The keyboard controller is all that an arriving key changes. -/
structure Reached (image : Image) (keyboard : Code) (m n : Machine σ) : Prop where
  registered : Registered image keyboard n.hal
  shell : n.shell = m.shell
  mailbox : Hal.mailbox n.hal = Hal.mailbox m.hal
  ticks : n.hal.systemTicks = m.hal.systemTicks

theorem Registered.reaches (registered : Registered image keyboard m.hal) (a : Arrival) :
    Reached image keyboard m (a.reaches m) := by
  unfold Arrival.reaches
  split
  next => exact ⟨registered.same rfl rfl,rfl,(mute_present _ _ m.hal).mailbox,rfl⟩
  next => exact ⟨registered,rfl,rfl,rfl⟩

theorem Registered.deliver_stub (registered : Registered image keyboard m.hal) {vector : UInt8}
    (stub : keyboard = .isrStub 0x21 ∨ vector ≠ 0x21) (external : 32 ≤ vector.toNat) (process : UInt8 → σ → σ) :
    ∃ t, deliver image process vector m = some { m with hal := t } ∧ Served image keyboard vector m.hal t := by
  have gate : image.codeAt (gateAddress (m.hal.idt vector)) = some (.isrStub vector) := by
    rw [registered.gates]
    split
    next key =>
      obtain rfl | other := stub
      · rw [key]
      · exact absurd key other
    next => rfl
  obtain ⟨t,dispatched,served⟩ := registered.dispatch external
  refine ⟨t,?_,served⟩
  simp only [deliver,gate,Option.bind_eq_bind,Option.bind_some,dispatched]
  rfl

theorem Registered.deliver_key (registered : Registered image .keyboardHandlerAsm m.hal)
    (process : UInt8 → σ → σ) : ∃ t, deliver image process 0x21 m = some ⟨t,process (mailbox m.hal) m.shell⟩ ∧
      Registered image .keyboardHandlerAsm t ∧ mailbox t = 0 ∧ t.systemTicks = m.hal.systemTicks := by
  have gate := registered.gates 0x21
  rw [if_pos rfl] at gate
  refine ⟨send (.endOfInterrupt 1) (keyboardReadScancode m.hal).2,?_,registered.same ?_ ?_,?_,?_⟩
  · simp only [deliver,gate,Option.bind_eq_bind,Option.bind_some,shellKeyboardHandler]
    rfl
  · unfold keyboardReadScancode
    split_ifs <;> rfl
  · unfold keyboardReadScancode
    split_ifs <;> rfl
  · unfold mailbox keyboardReadScancode
    split_ifs <;> simp_all [send]
  · unfold keyboardReadScancode
    split_ifs <;> rfl

theorem Registered.deliver_halts (registered : Registered image keyboard m.hal) {vector : UInt8}
    (exception : vector.toNat < 32) (process : UInt8 → σ → σ) : deliver image process vector m = none := by
  have other : vector ≠ 0x21 := by
    rintro rfl
    exact absurd exception (by decide)
  have gate := registered.gates vector
  rw [if_neg other] at gate
  simp only [deliver,gate,Option.bind_eq_bind,Option.bind_some,registered.halts exception]
  rfl

/-- Behind the gates as kernel_main leaves them an interrupt counts a tick or none. -/
theorem Registered.deliver (registered : Registered image .keyboardHandlerAsm m.hal) {vector : UInt8}
    (external : 32 ≤ vector.toNat) (process : UInt8 → σ → σ) :
    ∃ m', Hal.deliver image process vector m = some m' ∧ Registered image .keyboardHandlerAsm m'.hal ∧
      m'.hal.systemTicks = if vector = 0x20 then m.hal.systemTicks + 1 else m.hal.systemTicks := by
  by_cases key : vector = 0x21
  · subst key
    obtain ⟨t,delivered,still,_,ticks⟩ := registered.deliver_key process
    exact ⟨_,delivered,still,ticks⟩
  · obtain ⟨t,delivered,served⟩ := registered.deliver_stub (.inr key) external process
    exact ⟨_,delivered,served.registered,served.ticks⟩

end

end Xbtos.Hal
