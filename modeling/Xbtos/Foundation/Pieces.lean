import Mathlib.Data.List.Basic

/-! Sequences of pieces, where the first item of a piece says how many more belong to it. A
scanner that steps from piece to piece comes to the end of a sequence of whole pieces, and
over the end where the last piece is cut off. -/
namespace Foundation.Pieces

inductive Whole {α : Type} (more : α → Nat) : List α → Prop
  | nil : Whole more []
  | piece (first : α) (tail rest : List α) (counted : tail.length = more first)
      (after : Whole more rest) : Whole more (first :: tail ++ rest)

/-- Whole pieces, then one that is cut off. -/
structure Cut {α : Type} (more : α → Nat) (items front : List α) (first : α) (tail : List α) :
    Prop where
  layout : items = front ++ first :: tail
  whole : Whole more front
  short : tail.length < more first

theorem Cut.length {α : Type} {more : α → Nat} {items front tail : List α} {first : α}
    (cut : Cut more items front first tail) : items.length = front.length + 1 + tail.length := by
  rw [cut.layout,List.length_append,List.length_cons]
  omega

theorem whole_or_cut {α : Type} (more : α → Nat) (items : List α) :
    Whole more items ∨ ∃ front first tail, Cut more items front first tail := by
  induction size : items.length using Nat.strongRecOn generalizing items with
  | ind n ih =>
    cases items with
    | nil => exact .inl .nil
    | cons first rest =>
      by_cases inside : more first ≤ rest.length
      · have counted : (rest.take (more first)).length = more first := by
          rw [List.length_take,Nat.min_eq_left inside]
        have split : first :: rest = first :: rest.take (more first) ++ rest.drop (more first) := by
          rw [List.cons_append,List.take_append_drop]
        have shorter : (rest.drop (more first)).length < n := by
          rw [← size,List.length_drop,List.length_cons]
          omega
        rcases ih _ shorter (rest.drop (more first)) rfl with whole | ⟨front,last,tail,cut⟩
        · left
          rw [split]
          exact .piece first _ _ counted whole
        · refine .inr ⟨first :: rest.take (more first) ++ front,last,tail,?_,
            .piece first _ _ counted cut.whole,cut.short⟩
          rw [split,cut.layout,List.append_assoc]
      · exact .inr ⟨[],first,rest,rfl,.nil,Nat.not_le.mp inside⟩

end Foundation.Pieces
