import Mathlib.Data.List.Basic

/-! Consecutive blocks covering an address range, found by walking from the low
end and adding each block's recorded length. -/
namespace Foundation.Tiling

def Tiles (length : Nat → Nat) (high : Nat) : Nat → List Nat → Prop
  | low, [] => low = high
  | low, a::rest => low = a ∧ 0 < length a ∧ Tiles length high (a + length a) rest

theorem Tiles.low_le_high {length : Nat → Nat} {low high : Nat} {blocks : List Nat}
    (tiles : Tiles length high low blocks) : low ≤ high := by
  induction blocks generalizing low with
  | nil => exact Nat.le_of_eq tiles
  | cons a rest ih =>
    obtain ⟨rfl,_,tiles⟩ := tiles
    exact Nat.le_trans (Nat.le_add_right _ _) (ih tiles)

theorem Tiles.bounds {length : Nat → Nat} {low high a : Nat} {blocks : List Nat}
    (tiles : Tiles length high low blocks) (member : a ∈ blocks) :
    low ≤ a ∧ a + length a ≤ high := by
  induction blocks generalizing low with
  | nil => simp at member
  | cons b rest ih =>
    obtain ⟨rfl,_,tiles⟩ := tiles
    rcases List.mem_cons.mp member with rfl | later
    · exact ⟨Nat.le_refl _,tiles.low_le_high⟩
    · obtain ⟨lower,upper⟩ := ih tiles later
      exact ⟨by omega,upper⟩

theorem Tiles.apart {length : Nat → Nat} {low high a b : Nat} {blocks : List Nat}
    (tiles : Tiles length high low blocks) (first : a ∈ blocks) (second : b ∈ blocks)
    (different : a ≠ b) : a + length a ≤ b ∨ b + length b ≤ a := by
  induction blocks generalizing low with
  | nil => simp at first
  | cons c rest ih =>
    obtain ⟨rfl,_,tiles⟩ := tiles
    rcases List.mem_cons.mp first with rfl | one <;> rcases List.mem_cons.mp second with rfl | two
    · contradiction
    · exact .inl (tiles.bounds two).1
    · exact .inr (tiles.bounds one).1
    · exact ih tiles one two

theorem Tiles.unique {length : Nat → Nat} {low high : Nat} {first second : List Nat}
    (one : Tiles length high low first) (two : Tiles length high low second) : first = second := by
  induction first generalizing low second with
  | nil =>
    cases one
    cases second with
    | nil => rfl
    | cons b tail =>
      obtain ⟨rfl,positive,two⟩ := two
      have := two.low_le_high
      omega
  | cons a rest ih =>
    obtain ⟨rfl,positive,one⟩ := one
    cases second with
    | nil =>
      cases two
      have := one.low_le_high
      omega
    | cons b tail =>
      obtain ⟨rfl,_,two⟩ := two
      rw [ih one two]

theorem Tiles.congr {length length' : Nat → Nat} {low high : Nat} {blocks : List Nat}
    (agree : ∀ a ∈ blocks, length' a = length a) (tiles : Tiles length high low blocks) :
    Tiles length' high low blocks := by
  induction blocks generalizing low with
  | nil => exact tiles
  | cons a rest ih =>
    obtain ⟨rfl,positive,tiles⟩ := tiles
    have same := agree low (by simp)
    exact ⟨rfl,same ▸ positive,same ▸ ih (fun b member => agree b (by simp [member])) tiles⟩

/-- Cutting one block in two keeps the tiling, with one more block start. -/
theorem Tiles.split {length length' : Nat → Nat} {low high a size : Nat} {blocks : List Nat}
    (tiles : Tiles length high low blocks) (member : a ∈ blocks)
    (positive : 0 < size) (smaller : size < length a)
    (first : length' a = size) (second : length' (a + size) = length a - size)
    (agree : ∀ b ∈ blocks, b ≠ a → length' b = length b) :
    ∃ cut, Tiles length' high low cut ∧ ∀ x, x ∈ cut ↔ x ∈ blocks ∨ x = a + size := by
  induction blocks generalizing low with
  | nil => simp at member
  | cons b rest ih =>
    obtain ⟨rfl,present,tiles⟩ := tiles
    rcases List.mem_cons.mp member with rfl | later
    · have untouched : ∀ c ∈ rest, length' c = length c := by
        intro c inside
        have above := (tiles.bounds inside).1
        exact agree c (by simp [inside]) (by omega)
      refine ⟨a::(a + size)::rest,⟨rfl,by omega,?_,by omega,?_⟩,?_⟩
      · rw [first]
      · have landing : a + size + length' (a + size) = a + length a := by omega
        rw [landing]
        exact tiles.congr untouched
      · intro x
        simp only [List.mem_cons]
        tauto
    · obtain ⟨cut,tiled,members⟩ := ih tiles later (fun c inside => agree c (by simp [inside]))
      have above := (tiles.bounds later).1
      have same := agree low (by simp) (by omega)
      refine ⟨low::cut,⟨rfl,by omega,by rw [same]; exact tiled⟩,?_⟩
      intro x
      simp only [List.mem_cons,members]
      tauto

end Foundation.Tiling
