import Xbtos.Foundation.ByteMemory

/-! The part of the IA-32 instruction set that interrupt routines are written in: 32-bit
protected mode, flat segments, one privilege level. Code is a list of instructions and its own
addresses are left out; a called function acts on the processor and on a state of its own. -/
namespace Foundation.Processor
open Foundation.ByteMemory

structure Cpu where
  eax : UInt32
  ecx : UInt32
  edx : UInt32
  ebx : UInt32
  esp : UInt32
  ebp : UInt32
  esi : UInt32
  edi : UInt32
  ds : UInt16
  es : UInt16
  fs : UInt16
  gs : UInt16
  cs : UInt16
  eip : UInt32
  eflags : UInt32
  memory : Memory
  /-- Whether pushing a selector clears the upper half of its slot; a processor may leave it. -/
  clearsUpper : Bool

inductive Register
  | eax | ecx | edx | ebx | esp | ebp | esi | edi

inductive Segment
  | ds | es | fs | gs

namespace Cpu

def get (c : Cpu) : Register → UInt32
  | .eax => c.eax
  | .ecx => c.ecx
  | .edx => c.edx
  | .ebx => c.ebx
  | .esp => c.esp
  | .ebp => c.ebp
  | .esi => c.esi
  | .edi => c.edi

def set (c : Cpu) (value : UInt32) : Register → Cpu
  | .eax => { c with eax := value }
  | .ecx => { c with ecx := value }
  | .edx => { c with edx := value }
  | .ebx => { c with ebx := value }
  | .esp => { c with esp := value }
  | .ebp => { c with ebp := value }
  | .esi => { c with esi := value }
  | .edi => { c with edi := value }

def selector (c : Cpu) : Segment → UInt16
  | .ds => c.ds
  | .es => c.es
  | .fs => c.fs
  | .gs => c.gs

def load (c : Cpu) (selector : UInt16) : Segment → Cpu
  | .ds => { c with ds := selector }
  | .es => { c with es := selector }
  | .fs => { c with fs := selector }
  | .gs => { c with gs := selector }

end Cpu

def word (m : Memory) (a : Nat) : UInt32 := UInt32.ofNat (read32 m a)

def push (value : UInt32) (c : Cpu) : Cpu :=
  { c with esp := c.esp - 4, memory := write32 c.memory (c.esp - 4).toNat value.toNat }

def top (c : Cpu) : UInt32 := word c.memory c.esp.toNat

def drop (c : Cpu) : Cpu := { c with esp := c.esp + 4 }

/-- The word a pushed selector makes. -/
def padded (selector : UInt16) (c : Cpu) : UInt32 :=
  if c.clearsUpper then selector.toUInt32
  else (word c.memory (c.esp - 4).toNat &&& 0xFFFF0000) ||| selector.toUInt32

def pushSelector (selector : UInt16) (c : Cpu) : Cpu := push (padded selector c) c

/-- The arithmetic flags of a sum, in their places in eflags. -/
def sumFlags (a b : UInt32) : UInt32 :=
  let sum := a + b
  let carry := if sum < a then 0x001 else 0
  let parity := if ((List.range 8).filter fun i => sum.toNat.testBit i).length % 2 = 0 then 0x004 else 0
  let adjust := if (a ^^^ b ^^^ sum) &&& 0x10 = 0 then 0 else 0x010
  let zero := if sum = 0 then 0x040 else 0
  let sign := if sum &&& 0x80000000 = 0 then 0 else 0x080
  let overflow := if (a ^^^ sum) &&& (b ^^^ sum) &&& 0x80000000 = 0 then 0 else 0x800
  carry ||| parity ||| adjust ||| zero ||| sign ||| overflow

def arithmeticFlags : UInt32 := 0x8D5

def pushal (c : Cpu) : Cpu :=
  [c.eax,c.ecx,c.edx,c.ebx,c.esp,c.ebp,c.esi,c.edi].foldl (fun c value => push value c) c

/-- The slot of esp is skipped. -/
def popal (c : Cpu) : Cpu :=
  let c := drop { c with edi := top c }
  let c := drop { c with esi := top c }
  let c := drop { c with ebp := top c }
  let c := drop c
  let c := drop { c with ebx := top c }
  let c := drop { c with edx := top c }
  let c := drop { c with ecx := top c }
  drop { c with eax := top c }

def iret (c : Cpu) : Cpu :=
  let c := drop { c with eip := top c }
  let c := drop { c with cs := (top c).toUInt16 }
  drop { c with eflags := top c }

/-- An interrupt or an exception as the processor raises it. -/
structure Interrupt where
  vector : UInt8
  errorCode : Option UInt32
  /-- Whether the saved eflags have the resume flag set, as they have after a fault. -/
  resume : Bool

def savedFlags (i : Interrupt) (c : Cpu) : UInt32 :=
  if i.resume then c.eflags ||| 0x10000 else c.eflags

/-- The flags that an interrupt gate clears: TF, IF, NT, RF and VM. -/
def gateFlags : UInt32 := 0x34300

/-- What the processor does before the first instruction of a routine behind an interrupt gate. -/
def raise (i : Interrupt) (selector : UInt16) (offset : UInt32) (c : Cpu) : Cpu :=
  let c' := push (savedFlags i c) c
  let c' := push c.eip (pushSelector c.cs c')
  let c' := match i.errorCode with
    | some errorCode => push errorCode c'
    | none => c'
  { c' with cs := selector, eip := offset, eflags := c.eflags &&& ~~~gateFlags }

/-- A called function: what it makes of the processor and of a state of its own, if it returns. -/
abbrev Routine (σ : Type) := Cpu × σ → Option (Cpu × σ)

inductive Instruction (σ : Type)
  | pushImmediate (value : UInt32)
  | push (source : Register)
  | pushSegment (source : Segment)
  | popSegment (target : Segment)
  | pushal
  | popal
  /-- Sets the lower half of a register. -/
  | moveWord (value : UInt16) (target : Register)
  | loadSegment (source : Register) (target : Segment)
  | move (source target : Register)
  | add (value : UInt32) (target : Register)
  /-- A function that is entered with its return address on the stack. -/
  | call (returnTo : UInt32) (function : Routine σ)
  | iret

def execute {σ : Type} : Instruction σ → Cpu × σ → Option (Cpu × σ)
  | .pushImmediate value, (c,s) => some (push value c,s)
  | .push source, (c,s) => some (push (c.get source) c,s)
  | .pushSegment source, (c,s) => some (pushSelector (c.selector source) c,s)
  | .popSegment target, (c,s) => some (drop (c.load (top c).toUInt16 target),s)
  | .pushal, (c,s) => some (pushal c,s)
  | .popal, (c,s) => some (popal c,s)
  | .moveWord value target, (c,s) =>
    some (c.set ((c.get target &&& 0xFFFF0000) ||| value.toUInt32) target,s)
  | .loadSegment source target, (c,s) => some (c.load (c.get source).toUInt16 target,s)
  | .move source target, (c,s) => some (c.set (c.get source) target,s)
  | .add value target, (c,s) =>
    some ({ c.set (c.get target + value) target with
      eflags := (c.eflags &&& ~~~arithmeticFlags) ||| sumFlags (c.get target) value },s)
  | .call returnTo function, (c,s) => function (push returnTo c,s)
  | .iret, (c,s) => some (iret c,s)

def run {σ : Type} : List (Instruction σ) → Cpu × σ → Option (Cpu × σ)
  | [], m => some m
  | i :: code, m => (execute i m).bind (run code)

theorem run_append {σ : Type} (first second : List (Instruction σ)) (m : Cpu × σ) :
    run (first ++ second) m = (run first m).bind (run second) := by
  induction first generalizing m with
  | nil => rfl
  | cons i first ih =>
    rw [List.cons_append,run,run,Option.bind_assoc]
    exact congrArg _ (funext ih)

/-! Words on the stack. -/

theorem word_congr {m m' : Memory} {a : Nat} (same : ∀ x, a ≤ x → x < a + 4 → m' x = m x) :
    word m' a = word m a :=
  congrArg UInt32.ofNat (read32_congr same)

theorem word_write32 (m : Memory) (a : Nat) (value : UInt32) :
    word (write32 m a value.toNat) a = value := by
  rw [word,read32_write32_same,wrap_of_lt value.toNat_lt,UInt32.ofNat_toNat]

/-- Words one above the other from an address on. -/
def Holds (m : Memory) (a : Nat) : List UInt32 → Prop
  | [] => True
  | w :: words => word m a = w ∧ Holds m (a + 4) words

theorem Holds.congr {m m' : Memory} {a : Nat} {words : List UInt32} (holds : Holds m a words)
    (same : ∀ x, a ≤ x → x < a + 4 * words.length → m' x = m x) : Holds m' a words := by
  induction words generalizing a with
  | nil => trivial
  | cons w words ih =>
    rw [List.length_cons] at same
    obtain ⟨first,rest⟩ := holds
    refine ⟨(word_congr fun x lower upper => ?_).trans first,ih rest fun x lower upper => ?_⟩
    · exact same x lower (by omega)
    · exact same x (by omega) (by omega)

theorem esp_push {c : Cpu} (value : UInt32) (room : 4 ≤ c.esp.toNat) :
    (push value c).esp.toNat = c.esp.toNat - 4 :=
  UInt32.toNat_sub_of_le _ _ room

theorem memory_push {c : Cpu} (value : UInt32) (room : 4 ≤ c.esp.toNat) {x : Nat}
    (outside : x < c.esp.toNat - 4 ∨ c.esp.toNat ≤ x) : (push value c).memory x = c.memory x := by
  apply write32_other
  have esp : (c.esp - 4).toNat = c.esp.toNat - 4 := esp_push value room
  omega

/-- The state c' has the words, the topmost first, on the stack of c. -/
structure Pushed (c c' : Cpu) (words : List UInt32) : Prop where
  depth : c'.esp.toNat + 4 * words.length = c.esp.toNat
  holds : Holds c'.memory c'.esp.toNat words
  kept : ∀ x, x < c'.esp.toNat ∨ c.esp.toNat ≤ x → c'.memory x = c.memory x

theorem Pushed.refl (c : Cpu) : Pushed c c [] := ⟨rfl,trivial,fun _ _ => rfl⟩

theorem Pushed.push {c c' : Cpu} {words : List UInt32} (pushed : Pushed c c' words) (value : UInt32)
    (room : 4 * (words.length + 1) ≤ c.esp.toNat) : Pushed c (push value c') (value :: words) := by
  have depth := pushed.depth
  have room : 4 ≤ c'.esp.toNat := by omega
  have esp := esp_push value room
  refine ⟨?_,⟨word_write32 _ _ _,?_⟩,fun x outside => ?_⟩
  · rw [esp,List.length_cons]
    omega
  · rw [esp,Nat.sub_add_cancel room]
    exact pushed.holds.congr fun x lower _ => memory_push value room (.inr lower)
  · rw [esp] at outside
    rw [memory_push value room (by omega)]
    exact pushed.kept x (by omega)

/-- The other registers have no part in it. -/
theorem Pushed.beside {c c' d : Cpu} {words : List UInt32} (pushed : Pushed c c' words)
    (esp : d.esp = c'.esp) (memory : d.memory = c'.memory) : Pushed c d words := by
  refine ⟨?_,?_,?_⟩
  · rw [esp]
    exact pushed.depth
  · rw [esp,memory]
    exact pushed.holds
  · rw [esp,memory]
    exact pushed.kept

/-- The state d differs from c in the stack alone. -/
def OnlyStack (c d : Cpu) : Prop := { d with esp := c.esp, memory := c.memory } = c

theorem OnlyStack.trans {c d e : Cpu} (first : OnlyStack c d) (second : OnlyStack d e) : OnlyStack c e := by
  unfold OnlyStack at first second ⊢
  rw [← first,← second]

theorem OnlyStack.selector {c d : Cpu} (only : OnlyStack c d) (target : Segment) :
    d.selector target = c.selector target := by
  rw [← only]
  cases target <;> rfl

theorem push_only (value : UInt32) (c : Cpu) : OnlyStack c (push value c) := rfl

theorem pushal_only (c : Cpu) : OnlyStack c (pushal c) := by
  have all : ∀ (values : List UInt32) (d : Cpu), OnlyStack c d →
      OnlyStack c (values.foldl (fun d value => push value d) d) := by
    intro values
    induction values with
    | nil => exact fun d only => only
    | cons value values ih => exact fun d only => ih _ (only.trans (push_only value d))
  exact all _ c rfl

theorem low_half (value : UInt32) (low : UInt16) :
    ((value &&& 0xFFFF0000) ||| low.toUInt32).toUInt16 = low := by
  have upper : (0xFFFF0000 : UInt32).toUInt16 = 0 := rfl
  rw [UInt32.toUInt16_or,UInt32.toUInt16_and,upper,UInt16.and_zero,UInt16.zero_or,
    UInt16.toUInt16_toUInt32]

theorem padded_low (selector : UInt16) (c : Cpu) : (padded selector c).toUInt16 = selector := by
  unfold padded
  split
  next => exact UInt16.toUInt16_toUInt32 selector
  next => exact low_half _ selector

theorem Pushed.selector {c c' : Cpu} {words : List UInt32} (pushed : Pushed c c' words)
    (selector : UInt16) (room : 4 * (words.length + 1) ≤ c.esp.toNat) :
    ∃ slot : UInt32, slot.toUInt16 = selector ∧ Pushed c (pushSelector selector c') (slot :: words) :=
  ⟨padded selector c',padded_low _ _,pushed.push _ room⟩

theorem Pushed.segment {σ : Type} {c c' : Cpu} {words : List UInt32} (pushed : Pushed c c' words)
    (source : Segment) (s : σ) (room : 4 * (words.length + 1) ≤ c.esp.toNat) :
    ∃ d slot, execute (.pushSegment source) (c',s) = some (d,s) ∧ slot.toUInt16 = c'.selector source ∧
      OnlyStack c' d ∧ Pushed c d (slot :: words) := by
  obtain ⟨slot,low,more⟩ := pushed.selector (c'.selector source) room
  exact ⟨_,slot,rfl,low,rfl,more⟩

theorem Pushed.pushal {c c' : Cpu} {words : List UInt32} (pushed : Pushed c c' words)
    (room : 4 * (words.length + 8) ≤ c.esp.toNat) : Pushed c (pushal c')
      (c'.edi :: c'.esi :: c'.ebp :: c'.esp :: c'.ebx :: c'.edx :: c'.ecx :: c'.eax :: words) := by
  have one := pushed.push c'.eax (by omega)
  have two := one.push c'.ecx (by simp only [List.length_cons]; omega)
  have three := two.push c'.edx (by simp only [List.length_cons]; omega)
  have four := three.push c'.ebx (by simp only [List.length_cons]; omega)
  have five := four.push c'.esp (by simp only [List.length_cons]; omega)
  have six := five.push c'.ebp (by simp only [List.length_cons]; omega)
  have seven := six.push c'.esi (by simp only [List.length_cons]; omega)
  exact seven.push c'.edi (by simp only [List.length_cons]; omega)

/-- What a routine finds on the stack: the error code, if there is one, and the way back. -/
theorem raise_pushed (i : Interrupt) (selector : UInt16) (offset : UInt32) {c : Cpu}
    (room : 16 ≤ c.esp.toNat) : ∃ cs : UInt32, cs.toUInt16 = c.cs ∧
      Pushed c (raise i selector offset c) (i.errorCode.toList ++ [c.eip,cs,savedFlags i c]) := by
  have flags := (Pushed.refl c).push (savedFlags i c) (by grind)
  obtain ⟨cs,low,far⟩ := flags.selector c.cs (by grind)
  have back := far.push c.eip (by grind)
  refine ⟨cs,low,?_⟩
  unfold raise
  cases i.errorCode with
  | none => exact back.beside rfl rfl
  | some errorCode => exact (back.push errorCode (by grind)).beside rfl rfl

theorem raise_same (i : Interrupt) (selector : UInt16) (offset : UInt32) (c : Cpu) :
    { raise i selector offset c with
      esp := c.esp, memory := c.memory, cs := c.cs, eip := c.eip, eflags := c.eflags } = c := by
  unfold raise
  cases i.errorCode <;> rfl

/-- Only the stack and the way into the routine tell a raised interrupt from what it interrupted. -/
theorem OnlyStack.interrupted {i : Interrupt} {selector : UInt16} {offset : UInt32} {c c' : Cpu}
    (only : OnlyStack (raise i selector offset c) c') :
    { c' with esp := c.esp, memory := c.memory, cs := c.cs, eip := c.eip, eflags := c.eflags } = c := by
  have same := raise_same i selector offset c
  generalize raise i selector offset c = d at only same
  rw [← only] at same
  exact same

/-- A compiled function. It is entered with its return address on top of the stack, takes that
off when it returns, and keeps the segments. -/
structure Compiled (σ : Type) where
  call : Routine σ
  returns : ∀ {c s c' s'}, call (c,s) = some (c',s') → c'.esp = c.esp + 4
  keeps : ∀ {c s c' s'}, call (c,s) = some (c',s') →
    (∀ source, c'.selector source = c.selector source) ∧ c'.clearsUpper = c.clearsUpper

end Foundation.Processor
