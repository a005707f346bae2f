import Mathlib.Logic.Function.Basic

/-! A terminal without a bottom: a page of rows of a fixed width, written from its top.
A screen of some height shows its last rows. -/
namespace Xbtos.Semantics.Terminal
open Function

structure Page (α : Type) where
  cells : Nat → Nat → α
  row : Nat
  column : Nat

def Page.start {α : Type} (blank : α) : Page α := ⟨fun _ _ => blank,0,0⟩

def Page.newline {α : Type} (p : Page α) : Page α := { p with row := p.row + 1, column := 0 }

def Page.write {α : Type} (x : α) (p : Page α) : Nat → Nat → α :=
  update p.cells p.row (update (p.cells p.row) p.column x)

/-- A page whose column is the width goes on in the next row. -/
def Page.put {α : Type} (width : Nat) (x : α) (p : Page α) : Page α :=
  let p := { p with cells := p.write x, column := p.column + 1 }
  if width ≤ p.column then p.newline else p

def Page.erase {α : Type} (blank : α) (p : Page α) : Page α :=
  if p.column = 0 then p
  else
    let p := { p with column := p.column - 1 }
    { p with cells := p.write blank }

/-- The row that the window of the given height starts with. -/
def Page.top {α : Type} (height : Nat) (p : Page α) : Nat := p.row + 1 - height

theorem write_same {α : Type} (x : α) (p : Page α) : p.write x p.row p.column = x := by
  simp only [Page.write,update_self]

theorem write_other {α : Type} (x : α) (p : Page α) {row column : Nat}
    (other : ¬(row = p.row ∧ column = p.column)) : p.write x row column = p.cells row column := by
  unfold Page.write
  by_cases same : row = p.row
  · subst same
    rw [update_self,update_of_ne fun equal => other ⟨rfl,equal⟩]
  · rw [update_of_ne same]

end Xbtos.Semantics.Terminal
