import Mathlib.Tactic.SplitIfs
import Mathlib.Algebra.Group.Nat.Defs

/-! The counter of an interval timer, which is loaded with a number of so many bits: it counts from
one to the power behind the last of these, for which zero is written. -/
namespace Xbtos.Semantics.IntervalTimer

/-- What the counter counts from after written was loaded. -/
def reload (bits written : Nat) : Nat := if written % 2^bits = 0 then 2^bits else written % 2^bits

def Holds (bits n : Nat) : Prop := 1 ≤ n ∧ n ≤ 2^bits

/-- No other value that the counter can hold is nearer to the wanted one. -/
structure Nearest (bits wanted n : Nat) : Prop where
  holds : Holds bits n
  least : ∀ m, Holds bits m → ((n : Int) - wanted).natAbs ≤ ((m : Int) - wanted).natAbs

/-- A wanted value that the counter can hold is its own nearest, any other has an end as its nearest. -/
theorem nearest_iff {bits wanted n : Nat} :
    Nearest bits wanted n ↔ n = max 1 (min wanted (2^bits)) := by
  have positive : 0 < 2^bits := Nat.two_pow_pos bits
  generalize clamped : max 1 (min wanted (2^bits)) = c
  have holds : Holds bits c := by
    unfold Holds
    omega
  constructor
  · intro nearest
    obtain ⟨lower,upper⟩ := nearest.holds
    have least := nearest.least c holds
    omega
  · rintro rfl
    refine ⟨holds,fun m held => ?_⟩
    obtain ⟨lower,upper⟩ := held
    omega

theorem reload_inside {bits written : Nat} (inside : Holds bits written) :
    reload bits written = written := by
  obtain ⟨lower,upper⟩ := inside
  unfold reload
  rcases Nat.eq_or_lt_of_le upper with rfl | below
  · rw [Nat.mod_self,if_pos rfl]
  · rw [Nat.mod_eq_of_lt below,if_neg (by omega)]

/-- The counter that is loaded with the lowest bits of a wanted value holds the nearest to it just
where it can hold that value, or where these bits of a higher one are zeros. -/
theorem nearest_reload {bits wanted : Nat} (real : 0 < bits) :
    Nearest bits wanted (reload bits wanted) ↔
      Holds bits wanted ∨ 2^bits < wanted ∧ 2^bits ∣ wanted := by
  have two : 2 ≤ 2^bits := Nat.le_self_pow (by omega) 2
  rw [nearest_iff]
  rcases Nat.lt_or_ge (2^bits) wanted with above | upper
  · have apart : ¬Holds bits wanted := fun holds => absurd holds.2 (Nat.not_le.mpr above)
    have below : wanted % 2^bits < 2^bits := Nat.mod_lt wanted (by omega)
    rw [reload,Nat.dvd_iff_mod_eq_zero]
    split_ifs with zero
    · exact iff_of_true (by omega) (.inr ⟨above,zero⟩)
    · exact iff_of_false (by omega) (by simp [apart,zero])
  · rcases Nat.eq_zero_or_pos wanted with rfl | positive
    · rw [reload,Nat.zero_mod,if_pos rfl]
      exact iff_of_false (by omega) (by simp [Holds])
    · have inside : Holds bits wanted := ⟨positive,upper⟩
      rw [reload_inside inside]
      exact iff_of_true (by omega) (.inl inside)

end Xbtos.Semantics.IntervalTimer
