import Mathlib.Tactic.SplitIfs
import Xbtos.Semantics.InterruptLines

/-! Two cascaded 8259A interrupt controllers, the second one on line 2 of the first: what software
does to them, and what they are documented to do once they have been given their four
initialisation words for a fixed priority and an end of interrupt by command. -/
namespace Xbtos.Semantics.InterruptController
open Function InterruptLines

inductive Chip
  | master
  | slave
deriving DecidableEq

def chipOf (irq : Nat) : Chip := if irq < 8 then .master else .slave
def lineOf (irq : Nat) : Nat := if irq < 8 then irq else irq - 8

/-- The command and the data port of each, the lines, and the answer to the processor. -/
structure Controllers (κ : Type) where
  command : Chip → UInt8 → κ → κ
  data : Chip → UInt8 → κ → κ
  request : Nat → κ → κ
  acknowledge : κ → Option (UInt8 × κ)

structure Status where
  base : Chip → UInt8
  mask : Chip → UInt8
  waiting : Nat → Bool

def openBy (mask : Chip → UInt8) (irq : Nat) : Bool :=
  decide (irq < 16) && !(mask (chipOf irq)).toNat.testBit (lineOf irq)

/-- A mask that differs in one bit closes or opens one line. -/
theorem openBy_update {mask : Chip → UInt8} {irq : Nat} {now : Bool} {value : UInt8} (small : irq < 16)
    (bits : ∀ line < 8, value.toNat.testBit line =
      if line = lineOf irq then !now else (mask (chipOf irq)).toNat.testBit line) :
    openBy (update mask (chipOf irq) value) = update (openBy mask) irq now := by
  funext other
  by_cases inside : other < 16
  · have line : lineOf other < 8 := by unfold lineOf; split <;> omega
    by_cases same : chipOf other = chipOf irq
    · have apart : lineOf other = lineOf irq ↔ other = irq := by
        unfold chipOf at same
        unfold lineOf
        split_ifs at same ⊢ <;> omega
      simp only [openBy,inside,same,update_self,bits _ line,apart,update_apply]
      split_ifs <;> simp
    · have different : other ≠ irq := fun equal => same (congrArg chipOf equal)
      rw [openBy,update_of_ne same,update_of_ne different,openBy]
  · have different : other ≠ irq := fun equal => inside (equal ▸ small)
    rw [update_of_ne different,openBy,openBy,decide_eq_false inside,Bool.false_and,Bool.false_and]

namespace Status

def lines (s : Status) : Lines := ⟨s.waiting,openBy s.mask⟩

/-- The vector is the base with the line in its low bits. -/
def vector (s : Status) (irq : Nat) : UInt8 :=
  (s.base (chipOf irq) &&& 0xF8) ||| UInt8.ofNat (lineOf irq)

def ask (irq : Nat) (s : Status) : Status := { s with waiting := update s.waiting irq true }

def serve (irq : Nat) (s : Status) : Status := { s with waiting := update s.waiting irq false }

end Status

/-- The initialisation words, and masks of all lines. -/
def Controllers.program {κ : Type} (c : Controllers κ) (base : Chip → UInt8) (k : κ) : κ :=
  let k := c.command .slave 0x11 (c.command .master 0x11 k)
  let k := c.data .slave (base .slave) (c.data .master (base .master) k)
  let k := c.data .slave 0x02 (c.data .master 0x04 k)
  let k := c.data .slave 0x01 (c.data .master 0x01 k)
  c.data .slave 0xFF (c.data .master 0xFF k)

/-- What is documented. The controllers are ready when they have been programmed and nothing is in
service; requests are latched whether their lines are masked or not, and wait. -/
structure Documented {κ : Type} (c : Controllers κ) where
  Unserved : κ → Prop
  Ready : κ → Status → Prop
  Serves : κ → Nat → Status → Prop
  programmed : ∀ {k} base, Unserved k → Ready (c.program base k) ⟨base,fun _ => 0xFF,fun _ => false⟩
  masked : ∀ {k s} chip value, Ready k s →
    Ready (c.data chip value k) { s with mask := update s.mask chip value }
  asked : ∀ {k s irq}, irq ≠ 2 → Ready k s → Ready (c.request irq k) (s.ask irq)
  askedServing : ∀ {k s irq other}, other ≠ 2 → Serves k irq s → Serves (c.request other k) irq (s.ask other)
  unasked : ∀ {k s}, Ready k s → s.lines.next = none → c.acknowledge k = none
  acknowledged : ∀ {k s irq}, Ready k s → s.lines.next = some irq →
    ∃ k', c.acknowledge k = some (s.vector irq,k') ∧ Serves k' irq (s.serve irq)
  endedFirst : ∀ {k s irq}, irq < 8 → Serves k irq s → Ready (c.command .master 0x20 k) s
  endedSecond : ∀ {k s irq}, 8 ≤ irq → Serves k irq s →
    Ready (c.command .master 0x20 (c.command .slave 0x20 k)) s

/-! Two such controllers. Rotation, polling and automatic ends are left out. -/

/-- The initialisation word that the data port expects. -/
inductive Expected
  | mask | base | cascade | mode
deriving DecidableEq

@[ext]
structure Pair where
  expected : Chip → Expected
  base : Chip → UInt8
  mask : Chip → UInt8
  waiting : Nat → Bool
  inService : Chip → Nat → Bool

namespace Pair

/-- The end of an interrupt is that of the most urgent one. -/
def ended (bits : Nat → Bool) : Nat → Bool :=
  match (List.range 8).find? bits with
  | some line => update bits line false
  | none => bits

def command (chip : Chip) (value : UInt8) (p : Pair) : Pair :=
  if value &&& 0x10 ≠ 0 then
    { p with
      expected := update p.expected chip .base
      mask := update p.mask chip 0
      waiting := fun irq => p.waiting irq && chipOf irq ≠ chip }
  else if value &&& 0xF8 = 0x20 then
    { p with inService := update p.inService chip (ended (p.inService chip)) }
  else p

def data (chip : Chip) (value : UInt8) (p : Pair) : Pair :=
  match p.expected chip with
  | .mask => { p with mask := update p.mask chip value }
  | .base => { p with base := update p.base chip value, expected := update p.expected chip .cascade }
  | .cascade => { p with expected := update p.expected chip .mode }
  | .mode => { p with expected := update p.expected chip .mask }

def request (irq : Nat) (p : Pair) : Pair := { p with waiting := update p.waiting irq true }

/-- The most urgent line that asks, is open, and lies before all that are in service. -/
def candidate (chip : Chip) (asks : Nat → Bool) (p : Pair) : Option Nat :=
  ((List.range 8).takeWhile fun line => !p.inService chip line).find? fun line =>
    asks line && !(p.mask chip).toNat.testBit line

def second (p : Pair) : Option Nat := p.candidate .slave fun line => p.waiting (8 + line)

def first (p : Pair) : Option Nat :=
  p.candidate .master fun line => if line = 2 then p.second.isSome else p.waiting line

def vector (chip : Chip) (line : Nat) (p : Pair) : UInt8 := (p.base chip &&& 0xF8) ||| UInt8.ofNat line

def enter (chip : Chip) (line : Nat) (p : Pair) : Pair :=
  { p with inService := update p.inService chip (update (p.inService chip) line true) }

def acknowledge (p : Pair) : Option (UInt8 × Pair) := do
  let line ← p.first
  if line = 2 then
    let line ← p.second
    let p := { p with waiting := update p.waiting (8 + line) false }
    return (p.vector .slave line,(p.enter .master 2).enter .slave line)
  else
    let p := { p with waiting := update p.waiting line false }
    return (p.vector .master line,p.enter .master line)

def controllers : Controllers Pair := ⟨command,data,request,acknowledge⟩

def idle (_ : Chip) (_ : Nat) : Bool := false

/-- What is in service of the two when a line is. -/
def serviceOf (irq : Nat) : Chip → Nat → Bool
  | .master, line => line = if irq < 8 then irq else 2
  | .slave, line => 8 ≤ irq && line = irq - 8

def holding (service : Chip → Nat → Bool) (s : Status) : Pair :=
  ⟨fun _ => .mask,s.base,s.mask,s.waiting,service⟩

theorem programmed {p : Pair} (base : Chip → UInt8) (unserved : p.inService = idle) :
    controllers.program base p = holding idle ⟨base,fun _ => 0xFF,fun _ => false⟩ := by
  ext x
  · cases x <;> rfl
  · cases x <;> rfl
  · cases x <;> rfl
  · show ((p.waiting x && decide (chipOf x ≠ .master)) && decide (chipOf x ≠ .slave)) = false
    cases chipOf x <;> simp
  · exact congrFun (congrFun unserved x) _

theorem find_congr {α : Type} {p q : α → Bool} {l : List α} (same : ∀ a ∈ l, p a = q a) :
    l.find? p = l.find? q := by
  induction l with
  | nil => rfl
  | cons a l ih =>
    rw [List.forall_mem_cons] at same
    rw [List.find?_cons,List.find?_cons,same.1,ih same.2]

/-- A line of the first controller is passed on. -/
def passed (s : Status) (line : Nat) : Bool := s.waiting line && !(s.mask .master).toNat.testBit line

theorem due_first (s : Status) {line : Nat} (small : line < 8) : s.lines.due line = passed s line := by
  simp [Lines.due,Status.lines,openBy,chipOf,lineOf,passed,small,Nat.lt_trans small]

theorem due_second (s : Status) {line : Nat} (small : line < 8) : s.lines.due (8 + line) =
    ((s.waiting (8 + line) && !(s.mask .slave).toNat.testBit line) && !(s.mask .master).toNat.testBit 2) := by
  have inside : 8 + line < 16 := by omega
  have after : ¬8 + line < 8 := by omega
  simp [Lines.due,Status.lines,openBy,chipOf,lineOf,inside,after,Bool.and_assoc]

theorem second_find (s : Status) : (holding idle s).second = (List.range 8).find? fun line =>
    s.waiting (8 + line) && !(s.mask .slave).toNat.testBit line := rfl

/-- A line of the first controller asks, the one of the second for its lines. -/
def asks (s : Status) (line : Nat) : Bool :=
  (if line = 2 then (holding idle s).second.isSome else s.waiting line) && !(s.mask .master).toNat.testBit line

theorem asks_device (s : Status) {lines : List Nat} (apart : 2 ∉ lines) :
    lines.find? (asks s) = lines.find? (passed s) := by
  refine find_congr fun line member => ?_
  have other : line ≠ 2 := fun same => apart (same ▸ member)
  rw [asks,if_neg other,passed]

theorem first_find (s : Status) : (holding idle s).first =
    ([0,1].find? (passed s)).or (if asks s 2 then some 2 else [3,4,5,6,7].find? (passed s)) := by
  have whole : (holding idle s).first = ([0,1] ++ 2 :: [3,4,5,6,7]).find? (asks s) := rfl
  have rest : (2 :: [3,4,5,6,7]).find? (asks s) =
      if asks s 2 then some 2 else [3,4,5,6,7].find? (passed s) := by
    rw [List.find?_cons,asks_device s (by decide)]
    cases asks s 2 <;> rfl
  rw [whole,List.find?_append,asks_device s (by decide),rest]

/-- What is passed on first is the first request that is due. -/
theorem next_first (s : Status) : s.lines.next = (holding idle s).first.bind fun line =>
    if line = 2 then (holding idle s).second.map (8 + ·) else some line := by
  have near (lines : List Nat) (small : ∀ line ∈ lines, line < 8) :
      lines.find? s.lines.due = lines.find? (passed s) :=
    find_congr fun line member => due_first s (small line member)
  have far : ((List.range 8).map (8 + ·)).find? s.lines.due =
      if !(s.mask .master).toNat.testBit 2 then (holding idle s).second.map (8 + ·) else none := by
    have due : (List.range 8).find? (s.lines.due ∘ (8 + ·)) = (List.range 8).find? fun line =>
        (s.waiting (8 + line) && !(s.mask .slave).toNat.testBit line) && !(s.mask .master).toNat.testBit 2 :=
      find_congr fun line member => due_second s (List.mem_range.mp member)
    rw [List.find?_map,second_find,due]
    split
    next isOpen => simp [isOpen]
    next masked => simp [masked]
  rw [Lines.next,priority,List.find?_append,List.find?_append,near [0,1] (by decide),
    near [3,4,5,6,7] (by decide),far,first_find]
  cases early : [0,1].find? (passed s) with
  | some line =>
    have member := List.mem_of_find?_eq_some early
    have other : line ≠ 2 := by rintro rfl; exact absurd member (by decide)
    simp [other]
  | none =>
    cases late : [3,4,5,6,7].find? (passed s) with
    | some line =>
      have member := List.mem_of_find?_eq_some late
      have other : line ≠ 2 := by rintro rfl; exact absurd member (by decide)
      rw [asks,if_pos rfl]
      cases (holding idle s).second <;> cases (s.mask .master).toNat.testBit 2 <;> simp [other]
    | none =>
      rw [asks,if_pos rfl]
      cases (holding idle s).second <;> cases (s.mask .master).toNat.testBit 2 <;> simp

theorem first_small {s : Status} {line : Nat} (first : (holding idle s).first = some line) : line < 8 :=
  List.mem_range.mp (List.mem_of_find?_eq_some (show (List.range 8).find? (asks s) = some line from first))

theorem enter_first (s : Status) {irq : Nat} (small : irq < 8) :
    (holding idle s).enter .master irq = holding (serviceOf irq) s := by
  have service : update idle .master (update (idle .master) irq true) = serviceOf irq := by
    funext chip line
    have before : ¬8 ≤ irq := Nat.not_le.mpr small
    cases chip <;> simp [serviceOf,update_apply,idle,small,before]
  exact congrArg (fun service => holding service s) service

theorem enter_second (s : Status) (line : Nat) :
    ((holding idle s).enter .master 2).enter .slave line = holding (serviceOf (8 + line)) s := by
  have service : update (update idle .master (update (idle .master) 2 true)) .slave
      (update (idle .slave) line true) = serviceOf (8 + line) := by
    funext chip other
    have after : ¬8 + line < 8 := by omega
    cases chip <;> simp [serviceOf,update_apply,idle,after]
  exact congrArg (fun service => holding service s) service

theorem acknowledged {s : Status} {irq : Nat} (next : s.lines.next = some irq) :
    (holding idle s).acknowledge = some (s.vector irq,holding (serviceOf irq) (s.serve irq)) := by
  rw [next_first] at next
  obtain ⟨line,first,here⟩ := Option.bind_eq_some_iff.mp next
  rw [acknowledge,first,Option.bind_eq_bind,Option.bind_some]
  split at here
  next cascaded =>
    obtain ⟨line,second,rfl⟩ := Option.map_eq_some_iff.mp here
    have after : ¬8 + line < 8 := by omega
    rw [if_pos cascaded,second,Option.bind_some,← enter_second,Status.vector,chipOf,lineOf,if_neg after,
      if_neg after,Nat.add_sub_cancel_left]
    rfl
  next device =>
    cases here
    have small := first_small first
    rw [if_neg device,← enter_first _ small,Status.vector,chipOf,lineOf,if_pos small,if_pos small]
    rfl

theorem unasked {s : Status} (nothing : s.lines.next = none) : (holding idle s).acknowledge = none := by
  rw [next_first] at nothing
  rw [acknowledge]
  cases first : (holding idle s).first with
  | none => rfl
  | some line =>
    rw [first,Option.bind_some] at nothing
    split at nothing
    next cascaded =>
      rw [Option.bind_eq_bind,Option.bind_some,if_pos cascaded,Option.map_eq_none_iff.mp nothing]
      rfl
    next => cases nothing

theorem ended_only {bits : Nat → Bool} {line : Nat} (small : line < 8)
    (only : ∀ i, bits i = decide (i = line)) : ended bits = fun _ => false := by
  have found : (List.range 8).find? bits = some line := by
    cases found : (List.range 8).find? bits with
    | none =>
      have nothing := List.find?_eq_none.mp found line (List.mem_range.mpr small)
      rw [only] at nothing
      simp at nothing
    | some other =>
      have here := List.find?_some found
      rw [only] at here
      rw [of_decide_eq_true here]
  rw [ended,found]
  funext i
  by_cases same : i = line <;> simp [same,only]

theorem ended_first {s : Status} {irq : Nat} (small : irq < 8) :
    command .master 0x20 (holding (serviceOf irq) s) = holding idle s := by
  have only : ∀ i, serviceOf irq .master i = decide (i = irq) := fun i => by rw [serviceOf,if_pos small]
  have service : update (serviceOf irq) .master (ended (serviceOf irq .master)) = idle := by
    rw [ended_only small only]
    funext chip line
    have before : ¬8 ≤ irq := Nat.not_le.mpr small
    cases chip <;> simp [serviceOf,idle,before]
  exact congrArg (fun service => holding service s) service

theorem ended_second {s : Status} {irq : Nat} (after : 8 ≤ irq) (small : irq < 16) :
    command .master 0x20 (command .slave 0x20 (holding (serviceOf irq) s)) = holding idle s := by
  have above : ¬irq < 8 := Nat.not_lt.mpr after
  have cascaded : ∀ i, serviceOf irq .master i = decide (i = 2) := fun i => by rw [serviceOf,if_neg above]
  have only : ∀ i, serviceOf irq .slave i = decide (i = irq - 8) := fun i => by simp [serviceOf,after]
  have service : update (update (serviceOf irq) .slave (ended (serviceOf irq .slave))) .master
      (ended (serviceOf irq .master)) = idle := by
    rw [ended_only (by decide) cascaded,ended_only (by omega) only]
    funext chip line
    cases chip <;> rfl
  exact congrArg (fun service => holding service s) service

/-- The pair does what is documented. -/
def documented : Documented controllers where
  Unserved p := p.inService = idle
  Ready p s := p = holding idle s
  Serves p irq s := irq < 16 ∧ p = holding (serviceOf irq) s
  programmed base unserved := programmed base unserved
  masked chip value ready := by rw [ready]; rfl
  asked _ ready := by rw [ready]; rfl
  askedServing _ serves := ⟨serves.1,by rw [serves.2]; rfl⟩
  unasked ready nothing := by rw [ready]; exact unasked nothing
  acknowledged ready next := by
    rw [ready]
    exact ⟨_,acknowledged next,priority_small (Lines.next_mem next),rfl⟩
  endedFirst small serves := by rw [serves.2]; exact ended_first small
  endedSecond after serves := by rw [serves.2]; exact ended_second after serves.1

end Pair

end Xbtos.Semantics.InterruptController
