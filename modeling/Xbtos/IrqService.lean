import Xbtos.HalHandlers
import Xbtos.Semantics.InterruptController

/-! The HAL and the interrupt controllers it programs. What is sent to their ports sets them up,
opens and closes their lines, and ends every interrupt that they have passed on. -/
namespace Xbtos.Hal
open Function Semantics.InterruptLines Semantics.InterruptController

def dataPort : Chip → UInt16
  | .master => pic1Data
  | .slave => pic2Data

def vectorBase : Chip → UInt8
  | .master => 0x20
  | .slave => 0x28

section
variable {κ : Type} (c : Controllers κ)

/-- What the controllers make of an output. -/
def heard : Output → κ → κ
  | .outb port value, k =>
    if port = pic1Cmd then c.command .master value k
    else if port = pic1Data then c.data .master value k
    else if port = pic2Cmd then c.command .slave value k
    else if port = pic2Data then c.data .slave value k
    else k
  | _, k => k

def heardAll (outputs : List Output) (k : κ) : κ := outputs.foldl (fun k out => heard c out k) k

/-- The outputs between two states take the controllers from k to l. -/
def Sends (s t : State) (k l : κ) : Prop :=
  ∃ outputs, t.output = s.output ++ outputs ∧ heardAll c outputs k = l

theorem Sends.refl (s : State) (k : κ) : Sends c s s k k := ⟨[],(List.append_nil _).symm,rfl⟩

theorem sends_outb (port : UInt16) (value : UInt8) (s : State) (k : κ) :
    Sends c s (outb port value s) k (heard c (.outb port value) k) := ⟨[.outb port value],rfl,rfl⟩

theorem heard_data (chip : Chip) (value : UInt8) (k : κ) :
    heard c (.outb (dataPort chip) value) k = c.data chip value k := by cases chip <;> rfl

end

section
variable {κ : Type} {c : Controllers κ}

theorem Sends.trans {s t u : State} {k l m : κ} (first : Sends c s t k l) (second : Sends c t u l m) :
    Sends c s u k m := by
  obtain ⟨outputs,sent,rfl⟩ := first
  obtain ⟨more,later,rfl⟩ := second
  refine ⟨outputs ++ more,?_,List.foldl_append⟩
  rw [later,sent,List.append_assoc]

theorem sends_unheard {s t : State} {outputs : List Output} (sent : t.output = s.output ++ outputs)
    (unheard : ∀ out ∈ outputs, ∀ k, heard c out k = k) (k : κ) : Sends c s t k k := by
  refine ⟨outputs,sent,?_⟩
  clear sent
  induction outputs with
  | nil => rfl
  | cons out outputs ih =>
    rw [heardAll,List.foldl_cons,unheard out List.mem_cons_self]
    exact ih fun other member => unheard other (List.mem_cons_of_mem _ member)

theorem sends_picInit (s : State) (k : κ) : Sends c s (picInit s) k (c.program vectorBase k) :=
  ⟨[.outb pic1Cmd 0x11,.outb pic2Cmd 0x11,.outb pic1Data 0x20,.outb pic2Data 0x28,
    .outb pic1Data 0x04,.outb pic2Data 0x02,.outb pic1Data 0x01,.outb pic2Data 0x01,
    .outb pic1Data 0xFF,.outb pic2Data 0xFF],by simp [picInit,outb,send],rfl⟩

/-- The controllers are ready, and their masks, which the HAL reads back, leave the lines open that
are. -/
structure Serving (documented : Documented c) (apic : Bool) (l : Lines) (s : State) (k : κ) : Prop where
  ready : ∃ mask, documented.Ready k ⟨vectorBase,mask,l.waiting⟩ ∧
    (∀ chip, s.ports (dataPort chip) = mask chip) ∧ openBy mask = l.isOpen
  apicEnabled : s.apicEnabled = apic

/-- What a step of the HAL leads to, in itself and in the controllers. -/
def Leads (documented : Documented c) (s : State) (k : κ) (apic : Bool) (l : Lines) (t : State) : Prop :=
  ∃ k', Sends c s t k k' ∧ Serving documented apic l t k'

variable {documented : Documented c}

theorem Leads.trans {s t u : State} {k : κ} {apic apic' : Bool} {l l' : Lines}
    (first : Leads documented s k apic l t)
    (second : ∀ k', Serving documented apic l t k' → Leads documented t k' apic' l' u) :
    Leads documented s k apic' l' u := by
  obtain ⟨k',sent,serving⟩ := first
  obtain ⟨k'',later,still⟩ := second k' serving
  exact ⟨k'',sent.trans later,still⟩

def closed : Lines := ⟨fun _ => false,fun _ => false⟩

theorem apicEnabled_writes (writes : List (UInt16 × UInt8)) (s : State) :
    (writes.foldl (fun s write => outb write.1 write.2 s) s).apicEnabled = s.apicEnabled := by
  induction writes generalizing s with
  | nil => rfl
  | cons write writes ih => exact ih (outb write.1 write.2 s)

theorem leads_picInit (s : State) {k : κ} (unserved : documented.Unserved k) :
    Leads documented s k s.apicEnabled closed (picInit s) := by
  refine ⟨_,sends_picInit s k,⟨fun _ => 0xFF,documented.programmed vectorBase unserved,?_,?_⟩,
    apicEnabled_writes _ s⟩
  · intro chip
    cases chip <;> rfl
  · funext irq
    by_cases small : irq < 16
    · have all : ∀ irq < 16, openBy (fun _ => 0xFF) irq = false := by decide
      exact all irq small
    · exact Bool.and_eq_false_iff.mpr (.inl (decide_eq_false small))

section
variable {s : State} {k : κ} {apic : Bool} {l : Lines}

/-- A step that does not reach the controllers. -/
theorem Serving.unheard (serving : Serving documented apic l s k) {t : State} (outputs : List Output)
    (sent : t.output = s.output ++ outputs) (unheard : ∀ out ∈ outputs, ∀ k, heard c out k = k)
    (ports : t.ports = s.ports) (apicEnabled : t.apicEnabled = s.apicEnabled) :
    Leads documented s k apic l t := by
  obtain ⟨mask,ready,reads,isOpen⟩ := serving.ready
  exact ⟨k,sends_unheard sent unheard k,⟨mask,ready,by rw [ports]; exact reads,isOpen⟩,
    apicEnabled.trans serving.apicEnabled⟩

theorem Serving.silent (serving : Serving documented apic l s k) {t : State} (sent : t.output = s.output)
    (ports : t.ports = s.ports) (apicEnabled : t.apicEnabled = s.apicEnabled) :
    Leads documented s k apic l t :=
  serving.unheard [] (sent.trans (List.append_nil _).symm) (fun _ member => (by cases member)) ports apicEnabled

theorem Serving.told (serving : Serving documented apic l s k) {out : Output}
    (unheard : ∀ k, heard c out k = k) : Leads documented s k apic l (Hal.send out s) := by
  refine serving.unheard [out] rfl (fun other member k => ?_) rfl rfl
  rw [List.mem_singleton] at member
  rw [member,unheard]

theorem Serving.register (serving : Serving documented apic l s k) (interruptNumber : UInt8)
    (handler : InterruptHandler) :
    Leads documented s k apic l (registerInterruptHandler interruptNumber handler s) :=
  serving.silent rfl rfl rfl

theorem Serving.outb (serving : Serving documented apic l s k) {port : UInt16}
    (other : port ∉ [pic1Cmd,pic1Data,pic2Cmd,pic2Data]) (value : UInt8) :
    Leads documented s k apic l (Hal.outb port value s) := by
  simp only [List.mem_cons,List.not_mem_nil,or_false,not_or] at other
  obtain ⟨notCmd1,notData1,notCmd2,notData2⟩ := other
  refine serving.unheard [.outb port value] rfl (fun out member k => ?_) (if_neg (by simp [notData1,notData2])) rfl
  rw [List.mem_singleton] at member
  rw [member,heard,if_neg notCmd1,if_neg notData1,if_neg notCmd2,if_neg notData2]

theorem Serving.apicInitInternal (serving : Serving documented apic l s k) :
    Leads documented s k (Hal.apicInitInternal s).apicEnabled l (Hal.apicInitInternal s) := by
  unfold Hal.apicInitInternal
  split
  next => exact ⟨k,Sends.refl c s k,serving.ready,rfl⟩
  next =>
    have sent : Sends c s { s with output := s.output ++ [.wrmsr 0x1B (s.apicBaseLow ||| (1 : UInt32) <<< 11)
        s.apicBaseHigh,.apicWrite apicSpurious (s.apic apicSpurious ||| 0x100 ||| 0xFF),
        .apicWrite apicLvtTimer (0x20 ||| 0x20000)] } k k :=
      sends_unheard rfl (fun out member k => by
        simp only [List.mem_cons,List.not_mem_nil,or_false] at member
        rcases member with rfl | rfl | rfl <;> rfl) k
    obtain ⟨outputs,same,heard⟩ := sent
    refine ⟨k,⟨outputs,?_,heard⟩,serving.ready,rfl⟩
    simp [← same,apicWrite,send]

theorem registerExceptions_beside (n : Nat) (s : State) :
    (registerExceptions n s).output = s.output ∧ (registerExceptions n s).ports = s.ports ∧
      (registerExceptions n s).apicEnabled = s.apicEnabled := by
  induction n with
  | zero => exact ⟨rfl,rfl,rfl⟩
  | succ n ih => exact ih

theorem Serving.tables (serving : Serving documented apic l s k) (image : Image) :
    Leads documented s k apic l (registerExceptions 32 (send (.lidt (256 * 8 - 1)) (setGates image 256 s))) := by
  have gates := setGates_beside image 256 s
  generalize setGates image 256 s = t at gates ⊢
  have loaded : Leads documented s k apic l t := serving.silent gates.1 gates.2.1 gates.2.2.1
  have told := loaded.trans fun _ serving => serving.told (fun _ => rfl : ∀ k, heard c (.lidt (256 * 8 - 1)) k = k)
  generalize send (.lidt (256 * 8 - 1)) t = u at told ⊢
  have exceptions := registerExceptions_beside 32 u
  exact told.trans fun _ serving => serving.silent exceptions.1 exceptions.2.1 exceptions.2.2

/-! Lines that are opened and closed. -/

/-- With an APIC the HAL leaves the lines as they are. -/
def switched (apic : Bool) (irq : Nat) (now : Bool) (l : Lines) : Lines := if apic then l else l.set irq now

theorem ports_outb (chip : Chip) (value : UInt8) (s : State) :
    (Hal.outb (dataPort chip) value s).ports = update s.ports (dataPort chip) value := by
  cases chip <;> rfl

theorem dataPort_injective : Injective dataPort := by
  intro a b same
  cases a <;> cases b <;> first | rfl | cases same

theorem Serving.masked (serving : Serving documented apic l s k) {irq : Nat} (small : irq < 16) (now : Bool)
    {value : UInt8} (bits : ∀ line < 8, value.toNat.testBit line =
      if line = lineOf irq then !now else (s.ports (dataPort (chipOf irq))).toNat.testBit line) :
    Leads documented s k apic (l.set irq now) (Hal.outb (dataPort (chipOf irq)) value s) := by
  obtain ⟨mask,ready,reads,isOpen⟩ := serving.ready
  have sent := sends_outb c (dataPort (chipOf irq)) value s k
  rw [heard_data] at sent
  refine ⟨_,sent,⟨_,documented.masked (chipOf irq) value ready,fun chip => ?_,?_⟩,serving.apicEnabled⟩
  · rw [ports_outb]
    by_cases same : chip = chipOf irq
    · rw [same,update_self,update_self]
    · rw [update_of_ne (dataPort_injective.ne same),update_of_ne same,reads]
  · rw [reads] at bits
    rw [openBy_update small bits,isOpen]
    rfl

/-- A step of irq_enable or irq_disable, which differ in what they do to the mask. -/
theorem Serving.switched (serving : Serving documented apic l s k) {irq : Nat} (small : irq < 16) (now : Bool)
    (step : UInt8 → UInt8 → UInt8)
    (bits : ∀ (mask : UInt8) {line i : Nat}, line < 8 → i < 8 →
      (step mask (1 <<< UInt8.ofNat line)).toNat.testBit i = if i = line then !now else mask.toNat.testBit i) :
    Leads documented s k apic (Hal.switched apic irq now l) (
      if s.apicEnabled then s
      else
        let port := if UInt8.ofNat irq < 8 then pic1Data else pic2Data
        let bit := if UInt8.ofNat irq < 8 then UInt8.ofNat irq else UInt8.ofNat irq - 8
        Hal.outb port (step (s.ports port) (1 <<< bit)) s) := by
  have below : ∀ irq < 16, (UInt8.ofNat irq < 8 ↔ irq < 8) ∧ lineOf irq < 8 ∧
      (if UInt8.ofNat irq < 8 then UInt8.ofNat irq else UInt8.ofNat irq - 8) = UInt8.ofNat (lineOf irq) := by
    decide
  obtain ⟨first,line,bit⟩ := below irq small
  have port : (if UInt8.ofNat irq < 8 then pic1Data else pic2Data) = dataPort (chipOf irq) := by
    rw [if_congr first rfl rfl,chipOf]
    split <;> rfl
  rw [serving.apicEnabled,Hal.switched]
  split
  next => exact serving.silent rfl rfl rfl
  next =>
    rw [bit,port]
    exact serving.masked small now fun i inside => bits _ line inside

theorem testBit_opened (mask : UInt8) {line i : Nat} (first : line < 8) (second : i < 8) :
    (mask &&& ~~~(1 <<< UInt8.ofNat line)).toNat.testBit i = if i = line then !true else mask.toNat.testBit i := by
  have others : ∀ line < 8, ∀ i < 8, (~~~((1 : UInt8) <<< UInt8.ofNat line)).toNat.testBit i = !decide (i = line) := by
    decide
  rw [UInt8.toNat_and,Nat.testBit_and,others line first i second]
  split_ifs with same <;> simp [same]

theorem testBit_closed (mask : UInt8) {line i : Nat} (first : line < 8) (second : i < 8) :
    (mask ||| (1 <<< UInt8.ofNat line)).toNat.testBit i = if i = line then !false else mask.toNat.testBit i := by
  have single : ∀ line < 8, ∀ i < 8, ((1 : UInt8) <<< UInt8.ofNat line).toNat.testBit i = decide (i = line) := by
    decide
  rw [UInt8.toNat_or,Nat.testBit_or,single line first i second]
  split_ifs with same <;> simp [same]

theorem Serving.irqEnable (serving : Serving documented apic l s k) {irq : Nat} (small : irq < 16) :
    Leads documented s k apic (Hal.switched apic irq true l) (Hal.irqEnable (UInt8.ofNat irq) s) :=
  serving.switched small true (fun mask bit => mask &&& ~~~bit) testBit_opened

theorem Serving.irqDisable (serving : Serving documented apic l s k) {irq : Nat} (small : irq < 16) :
    Leads documented s k apic (Hal.switched apic irq false l) (Hal.irqDisable (UInt8.ofNat irq) s) :=
  serving.switched small false (fun mask bit => mask ||| bit) testBit_closed

theorem Serving.initTimer (serving : Serving documented apic l s k) {frequency : UInt32} (real : frequency ≠ 0) :
    Leads documented s k apic (Hal.switched apic 0 true l) (Hal.initTimer frequency s) := by
  unfold Hal.initTimer
  rw [if_neg real]
  dsimp only
  have control := serving.outb (show (0x43 : UInt16) ∉ _ by decide) 0x36
  have low := control.trans fun _ serving =>
    serving.outb (show (0x40 : UInt16) ∉ _ by decide) (((1193180 : UInt32) / frequency) &&& 0xFF).toUInt8
  have high := low.trans fun _ serving =>
    serving.outb (show (0x40 : UInt16) ∉ _ by decide) (((1193180 : UInt32) / frequency) >>> 8 &&& 0xFF).toUInt8
  have registered := high.trans fun _ serving => serving.register 32 .pitHandler
  exact registered.trans fun _ serving => serving.irqEnable (by decide)

theorem Serving.keyboardInit (serving : Serving documented apic l s k) :
    Leads documented s k apic (Hal.switched apic 1 true l) (Hal.keyboardInit s) :=
  (serving.register 33 .keyboardHandler).trans fun _ serving => serving.irqEnable (by decide)

theorem Serving.cascade (serving : Serving documented apic l s k) :
    Leads documented s k apic (Hal.switched apic 2 true l) (if s.apicEnabled then s else Hal.irqEnable 2 s) := by
  have enabled := serving.irqEnable (show 2 < 16 by decide)
  split
  next apicEnabled =>
    unfold Hal.irqEnable at enabled
    rwa [if_pos apicEnabled] at enabled
  next => exact enabled

end

/-- The lines after the set-up: nothing waits, and without an APIC the timer, the keyboard and the
cascade are open. -/
def initLines (apic : Bool) : Lines := ⟨fun _ => false,fun irq => !apic && irq ≤ 2⟩

theorem initLines_switched (apic : Bool) :
    switched apic 1 true (switched apic 0 true (switched apic 2 true closed)) = initLines apic := by
  cases apic with
  | true => rfl
  | false =>
    have isOpen : update (update (update (fun _ => false) 2 true) 0 true) 1 true = (initLines false).isOpen := by
      funext irq
      simp only [update_apply,initLines,Bool.not_false,Bool.true_and]
      split_ifs <;> simp <;> omega
    exact congrArg (fun isOpen => (⟨fun _ => false,isOpen⟩ : Lines)) isOpen

theorem leads_init (image : Image) (s : State) {k : κ} (unserved : documented.Unserved k) :
    Leads documented s k (init image s).apicEnabled (initLines (init image s).apicEnabled) (init image s) := by
  have apic := (leads_picInit s unserved).trans fun _ serving => serving.apicInitInternal
  have tables := apic.trans fun _ serving => serving.tables image
  have cascade := tables.trans fun _ serving => serving.cascade
  have timer := cascade.trans fun _ serving => serving.initTimer (show (1000 : UInt32) ≠ 0 by decide)
  have keyboard := timer.trans fun _ serving => serving.keyboardInit
  have enabled : Leads documented s k (apicInitInternal (picInit s)).apicEnabled _ (init image s) :=
    keyboard.trans fun _ serving => serving.told (fun _ => rfl : ∀ k, heard c .sti k = k)
  rw [initLines_switched] at enabled
  obtain ⟨k',sent,serving⟩ := enabled
  rw [← serving.apicEnabled] at serving
  exact ⟨k',sent,serving⟩

end

end Xbtos.Hal
