import Mathlib.Logic.Function.Basic

/-! Interrupt lines in a fixed priority: a request waits until its line is open and no other one
that waits is more urgent. -/
namespace Xbtos.Semantics.InterruptLines
open Function

/-- The lines of devices, the most urgent first. Those of a second controller come through line 2
of the first. -/
def priority : List Nat := [0,1] ++ (List.range 8).map (8 + ·) ++ [3,4,5,6,7]

theorem priority_small {irq : Nat} (member : irq ∈ priority) : irq < 16 := by
  have all : ∀ irq ∈ priority, irq < 16 := by decide
  exact all irq member

structure Lines where
  waiting : Nat → Bool
  isOpen : Nat → Bool

namespace Lines

/-- A request waits and is let through. -/
def due (l : Lines) (irq : Nat) : Bool :=
  l.waiting irq && (l.isOpen irq && (irq < 8 || l.isOpen 2))

def next (l : Lines) : Option Nat := priority.find? l.due

def ask (irq : Nat) (l : Lines) : Lines := { l with waiting := update l.waiting irq true }

def set (irq : Nat) (now : Bool) (l : Lines) : Lines := { l with isOpen := update l.isOpen irq now }

def serve (irq : Nat) (l : Lines) : Lines := { l with waiting := update l.waiting irq false }

/-- How many requests are due. -/
def backlog (l : Lines) : Nat := priority.countP l.due

theorem next_mem {l : Lines} {irq : Nat} (next : l.next = some irq) : irq ∈ priority :=
  List.mem_of_find?_eq_some next

theorem backlog_next {l : Lines} : l.backlog = 0 ↔ l.next = none := by
  rw [next,backlog,List.find?_eq_none,List.countP_eq_zero]

theorem due_serve {l : Lines} {irq other : Nat} :
    (l.serve irq).due other = true ↔ other ≠ irq ∧ l.due other = true := by
  by_cases same : other = irq <;> simp [due,serve,same]

/-- Whoever is served is due no longer. -/
theorem backlog_serve {l : Lines} {irq : Nat} (next : l.next = some irq) :
    (l.serve irq).backlog < l.backlog := by
  obtain ⟨now,first,rest,split,_⟩ := List.find?_eq_some_iff_append.mp next
  have fewer (lines : List Nat) : lines.countP (l.serve irq).due ≤ lines.countP l.due :=
    List.countP_mono_left fun _ _ still => (due_serve.mp still).2
  have gone : ¬(l.serve irq).due irq = true := fun still => (due_serve.mp still).1 rfl
  have early := fewer first
  have late := fewer rest
  unfold backlog
  rw [split,List.countP_append,List.countP_append,List.countP_cons_of_pos now,List.countP_cons_of_neg gone]
  omega

end Lines
end Xbtos.Semantics.InterruptLines
