import Mathlib.Order.Bounds.Basic

/-! What a page allocator is for, stated without a bitmap: a set of free frames from
which an allocation takes the least and to which a free gives one back. -/
namespace Xbtos.Semantics.FrameSet

inductive Call
  | alloc (result : Nat)
  | free (addr : Nat)
deriving DecidableEq

inductive FrameStep (pageSize : Nat) : Set Nat → Call → Set Nat → Prop
  | exhausted : FrameStep pageSize ∅ (.alloc 0) ∅
  | alloc (F : Set Nat) (f : Nat) (least : IsLeast F f) :
      FrameStep pageSize F (.alloc (pageSize * f)) (F \ {f})
  | free (F : Set Nat) (f : Nat) (taken : f ∉ F) :
      FrameStep pageSize F (.free (pageSize * f)) (insert f F)

inductive FrameRun (pageSize : Nat) (start : Set Nat) : List Call → Set Nat → Prop
  | nil : FrameRun pageSize start [] start
  | snoc (calls : List Call) (F : Set Nat) (call : Call) (G : Set Nat)
      (before : FrameRun pageSize start calls F) (step : FrameStep pageSize F call G) :
      FrameRun pageSize start (calls ++ [call]) G

end Xbtos.Semantics.FrameSet
