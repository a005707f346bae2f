import Mathlib.Data.Finset.Insert
import Mathlib.Data.Finset.Erase

/-! Keys that are held, and one flag for all of them, which a press sets and a release clears. -/
namespace Xbtos.Semantics.HeldKeys

inductive Change (κ : Type)
  | press (key : κ)
  | release (key : κ)
  | other

section
variable {κ : Type} [DecidableEq κ]

def Change.held : Change κ → Finset κ → Finset κ
  | .press key, held => insert key held
  | .release key, held => held.erase key
  | .other, held => held

def Change.flag : Change κ → Bool → Bool
  | .press _, _ => true
  | .release _, _ => false
  | .other, flag => flag

def heldAfter (changes : List (Change κ)) (held : Finset κ) : Finset κ :=
  changes.foldl (fun held change => change.held held) held

def flagAfter (changes : List (Change κ)) (flag : Bool) : Bool :=
  changes.foldl (fun flag change => change.flag flag) flag

/-- A key that is released was held. -/
def Change.Legal (held : Finset κ) : Change κ → Prop
  | .release key => key ∈ held
  | _ => True

/-- When a key is released no other is held. -/
def Change.Alone (held : Finset κ) : Change κ → Prop
  | .release key => ∀ other ∈ held, other = key
  | _ => True

def Throughout (may : Finset κ → Change κ → Prop) : List (Change κ) → Finset κ → Prop
  | [], _ => True
  | change :: changes, held => may held change ∧ Throughout may changes (change.held held)

def Agrees (flag : Bool) (held : Finset κ) : Prop := flag = true ↔ held.Nonempty

theorem Agrees.change {flag : Bool} {held : Finset κ} (agrees : Agrees flag held)
    (change : Change κ) :
    Agrees (change.flag flag) (change.held held) ↔ change.Alone held := by
  cases change with
  | press key => exact iff_of_true (iff_of_true rfl (Finset.insert_nonempty key held)) trivial
  | other => exact iff_of_true agrees trivial
  | release key =>
    have cleared : Agrees false (held.erase key) ↔ held.erase key = ∅ := by
      rw [Agrees,← Finset.not_nonempty_iff_eq_empty]
      simp
    refine cleared.trans ?_
    rw [Finset.eq_empty_iff_forall_notMem]
    constructor
    · intro nothing other member
      by_contra apart
      exact nothing other (Finset.mem_erase.mpr ⟨apart,member⟩)
    · intro alone other member
      obtain ⟨apart,member⟩ := Finset.mem_erase.mp member
      exact apart (alone other member)

theorem forall_prefix_cons {α : Type} {P : List α → Prop} {a : α} {l : List α} :
    (∀ first, first <+: a :: l → P first) ↔ P [] ∧ ∀ first, first <+: l → P (a :: first) := by
  constructor
  · intro all
    exact ⟨all [] (List.nil_prefix),fun first begins =>
      all (a :: first) ((List.prefix_cons_inj a).mpr begins)⟩
  · rintro ⟨empty,rest⟩ first begins
    rcases List.prefix_cons_iff.mp begins with rfl | ⟨tail,rfl,inside⟩
    · exact empty
    · exact rest tail inside

/-- A flag that agrees with the keys goes on to do so just where every key is released alone. -/
theorem Agrees.always {flag : Bool} {held : Finset κ} (agrees : Agrees flag held)
    (changes : List (Change κ)) :
    (∀ first, first <+: changes → Agrees (flagAfter first flag) (heldAfter first held)) ↔
      Throughout Change.Alone changes held := by
  induction changes generalizing flag held with
  | nil =>
    refine iff_of_true (fun first begins => ?_) trivial
    rw [List.prefix_nil.mp begins]
    exact agrees
  | cons change changes ih =>
    rw [forall_prefix_cons,Throughout]
    constructor
    · rintro ⟨_,all⟩
      have after : Agrees (change.flag flag) (change.held held) := all [] List.nil_prefix
      exact ⟨(agrees.change change).mp after,(ih after).mp all⟩
    · rintro ⟨alone,rest⟩
      have after := (agrees.change change).mpr alone
      exact ⟨agrees,(ih after).mpr rest⟩

end

end Xbtos.Semantics.HeldKeys
