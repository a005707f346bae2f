import Xbtos.Foundation.Processor
import Mathlib.Logic.Function.Iterate

/-! Interrupts between the instructions of a program. A program that does not look below its
stack pointer, nor at the variables of the handlers, runs as if it were never interrupted. -/
namespace Foundation.Interruption
open Foundation.ByteMemory Foundation.Processor

/-- The memory that handlers may change: variables of their own, and the free part of the stack
that lies between two addresses. -/
structure Zone where
  own : Nat → Prop
  low : Nat
  high : Nat
  /-- What an interrupt may need of the stack. -/
  depth : Nat
  apart : ∀ x, own x → x < low ∨ high ≤ x

structure Inside (z : Zone) (c : Cpu) : Prop where
  room : z.low + z.depth ≤ c.esp.toNat
  bound : c.esp.toNat ≤ z.high

/-- Nothing that a program sees tells the states apart. -/
structure Alike (z : Zone) (c d : Cpu) : Prop where
  same : { c with memory := d.memory } = d
  seen : ∀ x, ¬z.own x → x < z.low ∨ c.esp.toNat ≤ x → c.memory x = d.memory x

theorem Alike.esp {z : Zone} {c d : Cpu} (alike : Alike z c d) : c.esp = d.esp :=
  (congrArg Cpu.esp alike.same :)

theorem Alike.refl (z : Zone) (c : Cpu) : Alike z c c := ⟨rfl,fun _ _ _ => rfl⟩

theorem Alike.trans {z : Zone} {c d e : Cpu} (first : Alike z c d) (second : Alike z d e) : Alike z c e := by
  refine ⟨?_,fun x others place => ?_⟩
  · rw [← second.same,← first.same]
  · rw [first.esp] at place
    rw [first.seen x others (by rwa [first.esp]),second.seen x others place]

theorem Alike.inside {z : Zone} {c d : Cpu} (alike : Alike z c d) (inside : Inside z d) : Inside z c :=
  ⟨by rw [alike.esp]; exact inside.room,by rw [alike.esp]; exact inside.bound⟩

section
variable {z : Zone} {σ β : Type}

end

end Foundation.Interruption
