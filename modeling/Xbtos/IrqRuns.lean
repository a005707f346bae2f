import Xbtos.IrqService

/-! Requests of devices, calls of irq_enable and irq_disable, and the interrupts that the processor
takes, in any order. What waits is served when its line is open, the most urgent first, and the
controllers are ready for the next one when it has been. -/
namespace Xbtos.Hal
open Function Semantics.InterruptLines Semantics.InterruptController

/-- A line that a device can be on. -/
abbrev Device := { irq : Fin 16 // irq.val ≠ 2 }

/-- What happens on the board behind init. While an interrupt is taken the ports of the devices
read so, and the requests come in during its handler. -/
inductive Happening
  | enable (irq : Fin 16)
  | disable (irq : Fin 16)
  | request (device : Device)
  | take (devices : UInt16 → UInt8) (during : List Device)

structure Board (κ : Type) where
  hal : State
  pics : κ

def reading (devices : UInt16 → UInt8) (s : State) : State :=
  { s with ports := fun port => if port = pic1Data ∨ port = pic2Data then s.ports port else devices port }

section
variable {κ : Type} (c : Controllers κ)

/-- A step of the HAL, and what the controllers make of it. -/
def Board.after (k : κ) (s t : State) : Board κ := ⟨t,heardAll c (t.output.drop s.output.length) k⟩

def requests (during : List Device) (k : κ) : κ := during.foldl (fun k device => c.request device.1 k) k

def Happening.run : Happening → Board κ → Option (Board κ)
  | .enable irq, b => some (.after c b.pics b.hal (irqEnable (UInt8.ofNat irq) b.hal))
  | .disable irq, b => some (.after c b.pics b.hal (irqDisable (UInt8.ofNat irq) b.hal))
  | .request device, b => some { b with pics := c.request device.1 b.pics }
  | .take devices during, b =>
    match c.acknowledge b.pics with
    | none => some { b with pics := requests c during b.pics }
    | some (vector,pics) => do
      let s := reading devices b.hal
      return .after c (requests c during pics) s (← halInterruptDispatcher vector s)

def runHappenings : List Happening → Board κ → Option (Board κ)
  | [], b => some b
  | happening :: happenings, b => do runHappenings happenings (← happening.run c b)

def bootedBoard (image : Image) (devices : Devices) (k : κ) : Board κ :=
  .after c k (loaded devices) (init image (loaded devices))

end

/-! What it comes to. -/

structure Drivers where
  systemTicks : UInt64
  lastScancode : UInt8
  keyboardReady : Bool
deriving DecidableEq

def drivers (s : State) : Drivers := ⟨s.systemTicks,s.lastScancode,s.keyboardReady⟩

/-- The timer and the keyboard have handlers. -/
def serveLine (irq : Nat) (devices : UInt16 → UInt8) (d : Drivers) : Drivers :=
  if irq = 0 then { d with systemTicks := d.systemTicks + 1 }
  else if irq = 1 ∧ devices 0x64 &&& 0x01 ≠ 0 then
    { d with lastScancode := devices 0x60, keyboardReady := true }
  else d

def askAll (during : List Device) (l : Lines) : Lines := during.foldl (fun l device => l.ask device.1) l

def Happening.lines (apic : Bool) : Happening → Lines → Lines
  | .enable irq, l => switched apic irq true l
  | .disable irq, l => switched apic irq false l
  | .request device, l => l.ask device.1
  | .take _ during, l => askAll during (match l.next with
    | some irq => l.serve irq
    | none => l)

def Happening.serves : Happening → Lines → Drivers → Drivers
  | .take devices _, l, d => match l.next with
    | some irq => serveLine irq devices d
    | none => d
  | _, _, d => d

def linesAfter (apic : Bool) : List Happening → Lines → Lines
  | [], l => l
  | happening :: happenings, l => linesAfter apic happenings (happening.lines apic l)

/-- What the requests that are served, each when it is the next one, leave in the drivers. -/
def driversAfter (apic : Bool) : List Happening → Lines → Drivers → Drivers
  | [], _, d => d
  | happening :: happenings, l, d =>
    driversAfter apic happenings (happening.lines apic l) (happening.serves l d)

/-! One interrupt. -/

def lineVector (irq : Nat) : UInt8 := 0x20 + UInt8.ofNat irq

/-- What a handler leaves as it was. -/
structure Handled (s t : State) : Prop where
  output : t.output = s.output
  ports : t.ports = s.ports
  apicEnabled : t.apicEnabled = s.apicEnabled
  idt : t.idt = s.idt
  interruptHandlers : t.interruptHandlers = s.interruptHandlers

theorem reading_device (devices : UInt16 → UInt8) (s : State) {port : UInt16}
    (device : ¬(port = pic1Data ∨ port = pic2Data)) : (reading devices s).ports port = devices port := if_neg device

theorem reading_data (devices : UInt16 → UInt8) (s : State) (chip : Chip) :
    (reading devices s).ports (dataPort chip) = s.ports (dataPort chip) := by
  cases chip <;> rfl

theorem Registered.line {image : Image} {keyboard : Code} {s : State} (registered : Registered image keyboard s)
    {irq : Nat} (small : irq < 16) (devices : UInt16 → UInt8) : ∃ t,
    Hal.handled (lineVector irq) (reading devices s) = some t ∧ Handled (reading devices s) t ∧
      drivers t = serveLine irq devices (drivers s) := by
  have vectors : ∀ irq < 16, (lineVector irq = 33 ↔ irq = 1) ∧ (lineVector irq = 32 ↔ irq = 0) ∧
      ¬(lineVector irq).toNat < 32 ∧ ¬lineVector irq < 32 := by decide
  obtain ⟨keyboard,timer,external,above⟩ := vectors irq small
  have handler := registered.handlers (lineVector irq)
  have status := reading_device devices s (show ¬((0x64 : UInt16) = pic1Data ∨ _) by decide)
  have code := reading_device devices s (show ¬((0x60 : UInt16) = pic1Data ∨ _) by decide)
  rw [if_congr keyboard rfl rfl,if_congr timer rfl rfl,if_neg external] at handler
  unfold Hal.handled serveLine
  rw [show (reading devices s).interruptHandlers = s.interruptHandlers from rfl,handler]
  by_cases key : irq = 1
  · have other : irq ≠ 0 := by omega
    rw [if_pos key,if_neg other]
    refine ⟨_,rfl,?_⟩
    unfold keyboardHandler
    rw [status,code]
    by_cases full : devices 0x64 &&& 0x01 ≠ 0
    · rw [if_pos full,if_pos ⟨key,full⟩]
      exact ⟨⟨rfl,rfl,rfl,rfl,rfl⟩,rfl⟩
    · rw [if_neg full,if_neg fun both => full both.2]
      exact ⟨⟨rfl,rfl,rfl,rfl,rfl⟩,rfl⟩
  rw [if_neg key]
  by_cases tick : irq = 0
  · rw [if_pos tick,if_pos tick]
    exact ⟨_,rfl,⟨rfl,rfl,rfl,rfl,rfl⟩,rfl⟩
  · rw [if_neg tick,if_neg tick,if_neg above,if_neg fun both => key both.1]
    exact ⟨_,rfl,⟨rfl,rfl,rfl,rfl,rfl⟩,rfl⟩

section
variable {κ : Type} {c : Controllers κ} {documented : Documented c} {s : State} {k : κ} {apic : Bool} {l : Lines}

theorem Sends.after {t : State} {k' : κ} (sends : Sends c s t k k') : (Board.after c k s t).pics = k' := by
  obtain ⟨outputs,sent,heard⟩ := sends
  rw [Board.after,sent,List.drop_left,heard]

theorem Leads.after {t : State} (leads : Leads documented s k apic l t) :
    Serving documented apic l t (Board.after c k s t).pics := by
  obtain ⟨k',sends,serving⟩ := leads
  rw [sends.after]
  exact serving

/-- What the HAL sends behind a handler ends the interrupt in the controllers that passed it on. -/
theorem serves_ended {irq : Nat} (small : irq < 16) {status : Status} (serves : documented.Serves k irq status)
    (pic : s.apicEnabled = false) : ∃ k', Sends c s (acknowledged (lineVector irq) s) k k' ∧
      documented.Ready k' status := by
  have lines : ∀ irq < 16, (32 ≤ lineVector irq ∧ lineVector irq ≤ 47) ∧ (8 ≤ lineVector irq - 32 ↔ 8 ≤ irq) := by
    decide
  obtain ⟨inside,second⟩ := lines irq small
  unfold acknowledged picSendEoi
  rw [pic,if_neg Bool.false_ne_true,if_pos inside,if_congr second rfl rfl]
  split
  next after =>
    exact ⟨_,(sends_outb c pic2Cmd picEoi s k).trans (sends_outb c pic1Cmd picEoi _ _),
      documented.endedSecond after serves⟩
  next before =>
    exact ⟨_,sends_outb c pic1Cmd picEoi s k,documented.endedFirst (Nat.not_le.mp before) serves⟩

theorem acknowledged_same {intNo : UInt8} (pic : s.apicEnabled = false) (chip : Chip) :
    (acknowledged intNo s).ports (dataPort chip) = s.ports (dataPort chip) ∧
      (acknowledged intNo s).apicEnabled = s.apicEnabled := by
  unfold acknowledged picSendEoi
  rw [pic,if_neg Bool.false_ne_true]
  split_ifs <;> cases chip <;> exact ⟨rfl,pic⟩

theorem drivers_acknowledged (intNo : UInt8) (s : State) : drivers (acknowledged intNo s) = drivers s := by
  unfold acknowledged picSendEoi
  split_ifs <;> rfl

theorem askAll_isOpen (during : List Device) (l : Lines) : (askAll during l).isOpen = l.isOpen := by
  induction during generalizing l with
  | nil => rfl
  | cons device during ih => exact (ih (l.ask device.1)).trans rfl

theorem ready_requests {mask : Chip → UInt8} (during : List Device)
    (ready : documented.Ready k ⟨vectorBase,mask,l.waiting⟩) :
    documented.Ready (requests c during k) ⟨vectorBase,mask,(askAll during l).waiting⟩ := by
  induction during generalizing k l with
  | nil => exact ready
  | cons device during ih => exact ih (l := l.ask device.1) (documented.asked device.2 ready)

theorem serves_requests {mask : Chip → UInt8} {irq : Nat} (during : List Device)
    (serves : documented.Serves k irq ⟨vectorBase,mask,l.waiting⟩) :
    documented.Serves (requests c during k) irq ⟨vectorBase,mask,(askAll during l).waiting⟩ := by
  induction during generalizing k l with
  | nil => exact serves
  | cons device during ih => exact ih (l := l.ask device.1) (documented.askedServing device.2 serves)

/-! Runs. -/

/-- The controllers let through the lines that are open, and the handlers are those of init. -/
structure Tracked (documented : Documented c) (image : Image) (apic : Bool) (l : Lines) (b : Board κ) : Prop where
  serving : Serving documented apic l b.hal b.pics
  registered : Registered image (.isrStub 0x21) b.hal
  /-- With an APIC no line is ever open. -/
  closed : apic = true → ∀ irq, l.isOpen irq = false

theorem next_closed {l : Lines} (closed : ∀ irq, l.isOpen irq = false) : l.next = none := by
  rw [Lines.next,List.find?_eq_none]
  intro irq _
  simp [Lines.due,closed]

variable {image : Image} {b : Board κ}

theorem Tracked.take (tracked : Tracked documented image apic l b) (devices : UInt16 → UInt8)
    (during : List Device) : ∃ b', (Happening.take devices during).run c b = some b' ∧
      Tracked documented image apic ((Happening.take devices during).lines apic l) b' ∧
      drivers b'.hal = (Happening.take devices during).serves l (drivers b.hal) := by
  obtain ⟨mask,ready,reads,isOpen⟩ := tracked.serving.ready
  have same : Status.lines ⟨vectorBase,mask,l.waiting⟩ = l := by rw [Status.lines,isOpen]
  unfold Happening.run Happening.lines Happening.serves
  dsimp only
  cases next : l.next with
  | none =>
    rw [documented.unasked ready (by rw [same]; exact next)]
    refine ⟨_,rfl,⟨⟨⟨mask,ready_requests during ready,reads,?_⟩,tracked.serving.apicEnabled⟩,
      tracked.registered,?_⟩,rfl⟩
    · rw [askAll_isOpen,isOpen]
    · rw [askAll_isOpen]
      exact tracked.closed
  | some irq =>
    have small := priority_small (Lines.next_mem next)
    have pic : apic = false := by
      cases enabled : apic with
      | false => rfl
      | true =>
        rw [next_closed (tracked.closed enabled)] at next
        cases next
    subst pic
    obtain ⟨k',taken,serves⟩ := documented.acknowledged ready (by rw [same]; exact next)
    have vectors : ∀ irq < 16, (vectorBase (chipOf irq) &&& 0xF8) ||| UInt8.ofNat (lineOf irq) = lineVector irq := by
      decide
    have vector : Status.vector ⟨vectorBase,mask,l.waiting⟩ irq = lineVector irq := vectors irq small
    obtain ⟨t,done,beside,effect⟩ := tracked.registered.line small devices
    have still : t.apicEnabled = false := beside.apicEnabled.trans tracked.serving.apicEnabled
    obtain ⟨k'',sent,again⟩ := serves_ended small (serves_requests (l := l.serve irq) during serves) still
    have sends : Sends c (reading devices b.hal) (acknowledged (lineVector irq) t) (requests c during k') k'' := by
      obtain ⟨outputs,more,heard⟩ := sent
      exact ⟨outputs,by rw [more,beside.output],heard⟩
    rw [taken,vector]
    dsimp only
    rw [dispatcher_halves,done]
    have mute := (acknowledged_beside (lineVector irq) t).1
    refine ⟨_,rfl,⟨⟨⟨mask,?_,fun chip => ?_,?_⟩,?_⟩,?_,?_⟩,(drivers_acknowledged _ t).trans effect⟩
    · rw [sends.after]
      exact again
    · show (acknowledged _ t).ports _ = _
      rw [(acknowledged_same still chip).1,beside.ports,reading_data,reads]
    · rw [askAll_isOpen,isOpen]
      rfl
    · exact (acknowledged_same still .master).2.trans still
    · exact tracked.registered.same (mute.idt.trans beside.idt)
        (mute.interruptHandlers.trans beside.interruptHandlers)
    · rw [askAll_isOpen]
      exact tracked.closed

theorem Tracked.switched (tracked : Tracked documented image apic l b) (irq : Nat) (now : Bool) {t : State}
    (leads : Leads documented b.hal b.pics apic (Hal.switched apic irq now l) t)
    (idt : t.idt = b.hal.idt) (handlers : t.interruptHandlers = b.hal.interruptHandlers) :
    Tracked documented image apic (Hal.switched apic irq now l) (.after c b.pics b.hal t) := by
  refine ⟨leads.after,tracked.registered.same idt handlers,fun enabled => ?_⟩
  rw [Hal.switched,if_pos enabled]
  exact tracked.closed enabled

theorem Tracked.run (tracked : Tracked documented image apic l b) (happening : Happening) :
    ∃ b', happening.run c b = some b' ∧ Tracked documented image apic (happening.lines apic l) b' ∧
      drivers b'.hal = happening.serves l (drivers b.hal) := by
  cases happening with
  | enable irq =>
    have quiet := quiet_irqEnable (UInt8.ofNat irq) b.hal
    refine ⟨_,rfl,tracked.switched irq true (tracked.serving.irqEnable irq.isLt) quiet.idt quiet.interruptHandlers,?_⟩
    show drivers (irqEnable _ b.hal) = drivers b.hal
    unfold irqEnable
    split <;> rfl
  | disable irq =>
    have same : (irqDisable (UInt8.ofNat irq) b.hal).idt = b.hal.idt ∧
        (irqDisable (UInt8.ofNat irq) b.hal).interruptHandlers = b.hal.interruptHandlers ∧
        drivers (irqDisable (UInt8.ofNat irq) b.hal) = drivers b.hal := by
      unfold irqDisable
      split <;> exact ⟨rfl,rfl,rfl⟩
    exact ⟨_,rfl,tracked.switched irq false (tracked.serving.irqDisable irq.isLt) same.1 same.2.1,same.2.2⟩
  | request device =>
    obtain ⟨mask,ready,reads,isOpen⟩ := tracked.serving.ready
    exact ⟨_,rfl,⟨⟨⟨mask,documented.asked device.2 ready,reads,isOpen⟩,tracked.serving.apicEnabled⟩,
      tracked.registered,tracked.closed⟩,rfl⟩
  | take devices during => exact tracked.take devices during

theorem Tracked.runAll (tracked : Tracked documented image apic l b) (happenings : List Happening) :
    ∃ b', runHappenings c happenings b = some b' ∧
      Tracked documented image apic (linesAfter apic happenings l) b' ∧
      drivers b'.hal = driversAfter apic happenings l (drivers b.hal) := by
  induction happenings generalizing l b with
  | nil => exact ⟨b,rfl,tracked,rfl⟩
  | cons happening happenings ih =>
    obtain ⟨one,ran,still,effect⟩ := tracked.run happening
    obtain ⟨b',rest,last,after⟩ := ih still
    rw [effect] at after
    refine ⟨b',?_,last,after⟩
    rw [runHappenings,ran]
    exact rest

end

theorem linesAfter_append (apic : Bool) (first rest : List Happening) (l : Lines) :
    linesAfter apic (first ++ rest) l = linesAfter apic rest (linesAfter apic first l) := by
  induction first generalizing l with
  | nil => rfl
  | cons happening first ih => exact ih _

/-- Every interrupt that is taken leaves one request less. -/
theorem linesAfter_takes (apic : Bool) (takes : List (UInt16 → UInt8)) {l : Lines}
    (enough : l.backlog ≤ takes.length) : (linesAfter apic (takes.map (.take · [])) l).next = none := by
  induction takes generalizing l with
  | nil => exact Lines.backlog_next.mp (Nat.le_zero.mp enough)
  | cons devices takes ih =>
    rw [List.length_cons] at enough
    rw [List.map_cons,linesAfter]
    apply ih
    unfold Happening.lines
    dsimp only
    cases next : l.next with
    | none => exact Nat.le_trans (Nat.le_of_eq (Lines.backlog_next.mpr next)) (Nat.zero_le _)
    | some irq => exact Nat.le_of_lt_succ (Nat.lt_of_lt_of_le (Lines.backlog_serve next) enough)

theorem tracked_booted {κ : Type} {c : Controllers κ} (documented : Documented c) (image : Image)
    (devices : Devices) {k : κ} (unserved : documented.Unserved k) :
    Tracked documented image (init image (loaded devices)).apicEnabled
      (initLines (init image (loaded devices)).apicEnabled) (bootedBoard c image devices k) := by
  refine ⟨(leads_init image (loaded devices) unserved).after,registered_booted image devices,fun enabled irq => ?_⟩
  rw [initLines,enabled]
  rfl

/-- After init every request waits until its line is open and it is the most urgent, and is then
served once; nothing is left in service, and nothing that is due waits behind enough interrupts. -/
theorem requests_served {κ : Type} {c : Controllers κ} (documented : Documented c) (image : Image)
    (devices : Devices) {k : κ} (unserved : documented.Unserved k) (happenings : List Happening) :
    let booted := bootedBoard c image devices k
    let apic := booted.hal.apicEnabled
    let l := linesAfter apic happenings (initLines apic)
    ∃ b, runHappenings c happenings booted = some b ∧
      drivers b.hal = driversAfter apic happenings (initLines apic) (drivers booted.hal) ∧
      (∃ mask, documented.Ready b.pics ⟨vectorBase,mask,l.waiting⟩ ∧ openBy mask = l.isOpen) ∧
      ∀ takes : List (UInt16 → UInt8), 15 ≤ takes.length →
        (linesAfter apic (happenings ++ takes.map (.take · [])) (initLines apic)).next = none := by
  intro booted apic l
  obtain ⟨b,ran,still,effect⟩ := (tracked_booted documented image devices unserved).runAll happenings
  obtain ⟨mask,ready,_,isOpen⟩ := still.serving.ready
  refine ⟨b,ran,effect,⟨mask,ready,isOpen⟩,fun takes enough => ?_⟩
  rw [linesAfter_append]
  exact linesAfter_takes apic takes (Nat.le_trans List.countP_le_length enough)

def resetPair : Pair := ⟨fun _ => .mask,fun _ => 0,fun _ => 0,fun _ => false,Pair.idle⟩

def timerLine : Device := ⟨⟨0,Nat.zero_lt_succ 15⟩,by decide⟩
def keyboardLine : Device := ⟨⟨1,Nat.succ_lt_succ (Nat.zero_lt_succ 14)⟩,by decide⟩
/-- A line of the second controller. -/
def diskLine : Device := ⟨⟨14,Nat.lt_add_of_pos_right (Nat.zero_lt_succ 1)⟩,by decide⟩

/-- The key A is there to be read. -/
def keyA (port : UInt16) : UInt8 := if port = 0x60 then 0x1E else 1

/-- A key and a tick ask together, a disk while the tick is served, and there is a second tick while
the timer is masked. -/
def maskedTick : List Happening :=
  [.request keyboardLine,.request timerLine,.take keyA [diskLine],.disable timerLine.1,
    .request timerLine,.enable diskLine.1,.take keyA [],.take keyA [],.enable timerLine.1]

theorem requests_served_timer : ∃ b₁ b₂,
    runHappenings Pair.controllers maskedTick (bootedBoard Pair.controllers smallImage smallDevices resetPair) =
      some b₁ ∧ drivers b₁.hal = ⟨1,0x1E,true⟩ ∧
    runHappenings Pair.controllers (maskedTick ++ [.take keyA []])
      (bootedBoard Pair.controllers smallImage smallDevices resetPair) = some b₂ ∧
    drivers b₂.hal = ⟨2,0x1E,true⟩ := by
  obtain ⟨b₁,ran₁,effect₁,_⟩ := requests_served Pair.documented smallImage smallDevices
    (show Pair.documented.Unserved resetPair from rfl) maskedTick
  obtain ⟨b₂,ran₂,effect₂,_⟩ := requests_served Pair.documented smallImage smallDevices
    (show Pair.documented.Unserved resetPair from rfl) (maskedTick ++ [.take keyA []])
  exact ⟨b₁,b₂,ran₁,effect₁.trans (by decide +kernel),ran₂,effect₂.trans (by decide +kernel)⟩

end Xbtos.Hal
