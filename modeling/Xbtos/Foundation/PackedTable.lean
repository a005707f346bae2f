import Mathlib.Data.List.Perm.Basic
import Xbtos.Foundation.Buffer

/-! Tables kept packed in an array: the slots in use come first and every later one is
blank. Removal moves the last slot into the gap. -/
namespace Foundation.PackedTable
open Foundation.Buffer

structure Packed {σ : Type} {n : Nat} (blank : σ) (slots : Vector σ n) (live : List σ) : Prop where
  layout : slots.toList = live ++ List.replicate (n - live.length) blank
  room : live.length ≤ n

/-- The slots left when the last one has moved into slot i. -/
def swapRemove {σ : Type} (live : List σ) (i : Nat) (inside : i < live.length) : List σ :=
  (live.set i (live.getLast (List.ne_nil_of_length_pos (by omega)))).dropLast

theorem Packed.slot {σ : Type} {n i : Nat} {blank : σ} {slots : Vector σ n} {live : List σ}
    (packed : Packed blank slots live) (inside : i < live.length) : slots[i]? = some live[i] := by
  have bound : i < n := Nat.lt_of_lt_of_le inside packed.room
  have same : slots.toList[i]? = slots[i]? := by simp [bound]
  rw [← same,packed.layout,List.getElem?_append_left inside,List.getElem?_eq_getElem inside]

theorem Packed.blankSlot {σ : Type} {n i : Nat} {blank : σ} {slots : Vector σ n} {live : List σ}
    (packed : Packed blank slots live) (bound : i < n) (beyond : live.length ≤ i) :
    slots[i] = blank := by
  have same : slots.toList[i]? = some slots[i] := by simp [bound]
  rw [packed.layout,List.getElem?_append_right beyond,
    List.getElem?_replicate_of_lt (by omega)] at same
  exact (Option.some.inj same).symm

theorem packed_replicate {σ : Type} (n : Nat) (blank : σ) :
    Packed blank (Vector.replicate n blank) [] :=
  ⟨by simp,Nat.zero_le n⟩

theorem Packed.push {σ : Type} {n : Nat} {blank : σ} {slots : Vector σ n} {live : List σ}
    (packed : Packed blank slots live) (x : σ) (free : live.length < n) :
    ∃ result, store slots live.length x = some result ∧ Packed blank result (live ++ [x]) := by
  obtain ⟨result,stored,content⟩ := store_inside slots x free
  refine ⟨result,stored,?_,?_⟩
  · have blanks : n - live.length = (n - (live ++ [x]).length) + 1 := by
      rw [List.length_append,List.length_singleton]
      omega
    rw [content,packed.layout,List.set_append_right _ _ (Nat.le_refl _),Nat.sub_self,blanks,
      List.replicate_succ,List.set_cons_zero,List.append_assoc,List.singleton_append]
  · rw [List.length_append,List.length_singleton]
    exact free

theorem Packed.set {σ : Type} {n i : Nat} {blank : σ} {slots : Vector σ n} {live : List σ}
    (packed : Packed blank slots live) (x : σ) (inside : i < live.length) :
    ∃ result, store slots i x = some result ∧ Packed blank result (live.set i x) := by
  have bound : i < n := Nat.lt_of_lt_of_le inside packed.room
  obtain ⟨result,stored,content⟩ := store_inside slots x bound
  refine ⟨result,stored,?_,?_⟩
  · rw [content,packed.layout,List.set_append_left _ _ inside,List.length_set]
  · rw [List.length_set]
    exact packed.room

theorem Packed.pop {σ : Type} {n : Nat} {blank : σ} {slots : Vector σ n} {live : List σ}
    (packed : Packed blank slots live) (inhabited : 0 < live.length) :
    ∃ result, store slots (live.length - 1) blank = some result ∧
      Packed blank result live.dropLast := by
  obtain ⟨result,stored,content⟩ := packed.set blank (show live.length - 1 < live.length by omega)
  have nonempty : live ≠ [] := List.ne_nil_of_length_pos inhabited
  have cleared : live.set (live.length - 1) blank = live.dropLast ++ [blank] := by
    conv_lhs => rw [← List.dropLast_append_getLast nonempty]
    rw [List.set_append_right _ _ (by simp)]
    simp
  have room : live.length ≤ n := packed.room
  have blanks : n - live.dropLast.length = (n - live.length) + 1 := by
    rw [List.length_dropLast]
    omega
  refine ⟨result,stored,?_,?_⟩
  · rw [content.layout,cleared,blanks,List.replicate_succ]
    simp [Nat.sub_add_cancel inhabited]
  · rw [List.length_dropLast]
    omega

theorem swapRemove_perm {σ : Type} {live : List σ} {i : Nat} (inside : i < live.length) :
    (swapRemove live i inside).Perm (live.eraseIdx i) := by
  have nonempty : live ≠ [] := List.ne_nil_of_length_pos (by omega)
  obtain ⟨front,last,rfl⟩ : ∃ front last, live = front ++ [last] :=
    ⟨live.dropLast,live.getLast nonempty,(List.dropLast_append_getLast nonempty).symm⟩
  rw [List.length_append,List.length_singleton] at inside
  unfold swapRemove
  rw [List.getLast_append_singleton]
  by_cases final : i = front.length
  · subst final
    rw [List.set_append_right _ _ (Nat.le_refl _),Nat.sub_self,List.set_cons_zero,
      List.dropLast_concat,List.eraseIdx_append_of_length_le (Nat.le_refl _),Nat.sub_self]
    simp
  · have early : i < front.length := by omega
    rw [List.set_append_left _ _ early,List.dropLast_concat,List.eraseIdx_append_of_lt_length early]
    apply (List.set_perm_cons_eraseIdx early last).trans
    exact List.perm_append_singleton last _ |>.symm

theorem length_swapRemove {σ : Type} {live : List σ} {i : Nat} (inside : i < live.length) :
    (swapRemove live i inside).length = live.length - 1 := by
  rw [swapRemove,List.length_dropLast,List.length_set]

theorem swapRemove_map {σ τ : Type} (f : σ → τ) {live : List σ} {i : Nat} (inside : i < live.length)
    (within : i < (live.map f).length) :
    swapRemove (live.map f) i within = (swapRemove live i inside).map f := by
  rw [swapRemove,swapRemove,List.map_dropLast,List.map_set,List.getLast_map]

end Foundation.PackedTable
