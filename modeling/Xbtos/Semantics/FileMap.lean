import Xbtos.Vfs
import Mathlib.Data.Finmap

/-! What a file system is for, stated without a table: a bounded finite map from names
to contents. A name of none is a path that is not accepted. -/
namespace Xbtos.Semantics.FileMap
open Vfs

abbrev Files (α β : Type) := Finmap fun _ : α => List β

def create {α β : Type} [DecidableEq α] (capacity : Nat) (name : Option α) (M : Files α β) :
    FileResult × Files α β :=
  match name with
  | none => (.errInvalidName,M)
  | some n =>
    if n ∈ M then (.errExists,M)
    else if M.keys.card = capacity then (.errFull,M)
    else (.ok,M.insert n [])

def place {α β : Type} [DecidableEq α] (limit : Nat) (n : α) (content : List β) (M : Files α β) :
    FileResult × Files α β :=
  if limit ≤ content.length then (.errTooLarge,M) else (.ok,M.insert n content)

/-- Changes the content of a file, which is created if absent and then is empty. -/
def update {α β : Type} [DecidableEq α] (capacity limit : Nat) (change : List β → List β)
    (name : Option α) (M : Files α β) : FileResult × Files α β :=
  match name with
  | none => (.errInvalidName,M)
  | some n =>
    match M.lookup n with
    | some old => place limit n (change old) M
    | none =>
      match create capacity (some n) M with
      | (.ok,M) => place limit n (change []) M
      | failed => failed

def remove {α β : Type} [DecidableEq α] (name : Option α) (M : Files α β) :
    FileResult × Files α β :=
  match name with
  | none => (.errInvalidName,M)
  | some n => if n ∈ M then (.ok,M.erase n) else (.errNotFound,M)

def content {α β : Type} [DecidableEq α] (name : Option α) (M : Files α β) : Option (List β) :=
  name.bind fun n => M.lookup n

/-! What a successful update leaves. -/

theorem place_content {α β : Type} [DecidableEq α] {limit : Nat} {n : α} {content : List β}
    {M M' : Files α β} (done : place limit n content M = (.ok,M')) :
    M'.lookup n = some content := by
  unfold place at done
  split_ifs at done
  · cases done
  · cases done
    exact Finmap.lookup_insert M

theorem update_content {α β : Type} [DecidableEq α] {capacity limit : Nat}
    {change : List β → List β} {name : Option α} {M M' : Files α β}
    (done : update capacity limit change name M = (.ok,M')) :
    ∃ old, content name M' = some (change old) := by
  cases name with
  | none => cases done
  | some n =>
    simp only [update] at done
    split at done
    next old _ => exact ⟨old,place_content done⟩
    next =>
      split at done
      next => exact ⟨[],place_content done⟩
      next failed other =>
        exact absurd done (other M')

/-! No operation touches another name. -/

theorem create_others {α β : Type} [DecidableEq α] (capacity : Nat) {name : Option α} {m : α}
    (other : name ≠ some m) (M : Files α β) : (create capacity name M).2.lookup m = M.lookup m := by
  cases name with
  | none => rfl
  | some n =>
    have apart : m ≠ n := fun same => other (congrArg some same.symm)
    simp only [create]
    split_ifs
    · rfl
    · rfl
    · exact Finmap.lookup_insert_of_ne M apart

theorem place_others {α β : Type} [DecidableEq α] (limit : Nat) {n m : α} (apart : m ≠ n)
    (content : List β) (M : Files α β) : (place limit n content M).2.lookup m = M.lookup m := by
  unfold place
  split_ifs
  · rfl
  · exact Finmap.lookup_insert_of_ne M apart

theorem update_others {α β : Type} [DecidableEq α] (capacity limit : Nat)
    (change : List β → List β) {name : Option α} {m : α} (other : name ≠ some m)
    (M : Files α β) : (update capacity limit change name M).2.lookup m = M.lookup m := by
  cases name with
  | none => rfl
  | some n =>
    have apart : m ≠ n := fun same => other (congrArg some same.symm)
    have created := create_others capacity other M
    simp only [update]
    split
    next => exact place_others limit apart _ M
    next =>
      split
      next M' made =>
        rw [made] at created
        exact (place_others limit apart _ M').trans created
      next => exact created

theorem remove_others {α β : Type} [DecidableEq α] {name : Option α} {m : α}
    (other : name ≠ some m) (M : Files α β) : (remove name M).2.lookup m = M.lookup m := by
  cases name with
  | none => rfl
  | some n =>
    have apart : m ≠ n := fun same => other (congrArg some same.symm)
    simp only [remove]
    split_ifs
    · exact Finmap.lookup_erase_ne apart
    · rfl

end Xbtos.Semantics.FileMap
