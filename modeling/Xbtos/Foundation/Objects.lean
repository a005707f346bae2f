import Mathlib.Data.List.Basic

/-! Objects that have nothing to do with each other, and one memory that holds them all. The name of
an object is the address of its first cell. -/
namespace Foundation.Objects

variable {V : Type}

/-- The objects by name, the youngest first. -/
abbrev Store (V : Type) := List (Nat × List V)

inductive Event (V : Type)
  | make (name : Nat) (content : List V)
  | drop (name : Nat)
  | put (name i : Nat) (value : V)
  | nothing

def Event.act : Event V → Store V → Store V
  | .make name content, store => (name,content)::store
  | .drop name, store => store.filter fun entry => entry.1 ≠ name
  | .put name i value, store => store.map fun entry =>
    (entry.1,if entry.1 = name then entry.2.set i value else entry.2)
  | .nothing, store => store

def acts (events : List (Event V)) (store : Store V) : Store V :=
  events.foldl (fun store event => event.act store) store

@[simp] theorem acts_snoc (events : List (Event V)) (event : Event V) (store : Store V) :
    acts (events ++ [event]) store = event.act (acts events store) := List.foldl_append

/-! One memory. -/

def region (m : Nat → V) (p n : Nat) : List V := (List.range n).map fun i => m (p + i)

/-- What the memory holds at places, each an address and a length. -/
def held (m : Nat → V) (places : List (Nat × Nat)) : Store V :=
  places.map fun place => (place.1,region m place.1 place.2)

def putCell (m : Nat → V) (a : Nat) (value : V) : Nat → V := fun x => if x = a then value else m x

theorem region_congr {m m' : Nat → V} {p n : Nat} (same : ∀ x, p ≤ x → x < p + n → m' x = m x) :
    region m' p n = region m p n := by
  apply List.map_congr_left
  intro i inside
  exact same (p + i) (Nat.le_add_right p i) (Nat.add_lt_add_left (List.mem_range.mp inside) p)

theorem region_put (m : Nat → V) (p n i : Nat) (value : V) :
    region (putCell m (p + i) value) p n = (region m p n).set i value := by
  apply List.ext_getElem
  · simp [region]
  · intro j first second
    simp only [region,putCell,List.getElem_map,List.getElem_range,List.getElem_set,Nat.add_left_cancel_iff]
    rw [if_congr eq_comm rfl rfl]

theorem held_congr {m m' : Nat → V} {places : List (Nat × Nat)}
    (same : ∀ place ∈ places, ∀ x, place.1 ≤ x → x < place.1 + place.2 → m' x = m x) :
    held m' places = held m places := by
  apply List.map_congr_left
  intro place member
  rw [region_congr (same place member)]

theorem held_drop (m : Nat → V) (places : List (Nat × Nat)) (p : Nat) :
    held m (places.filter fun place => place.1 ≠ p) = (Event.drop p).act (held m places) :=
  (List.filter_map (p := fun entry : Nat × List V => decide (entry.1 ≠ p))).symm

/-- A cell of one of the places, where no two overlap. -/
theorem held_put {m : Nat → V} {places : List (Nat × Nat)} {p n i : Nat}
    (apart : ∀ a ∈ places, ∀ b ∈ places, a.1 ≠ b.1 → a.1 + a.2 ≤ b.1 ∨ b.1 + b.2 ≤ a.1)
    (member : (p,n) ∈ places) (inside : i < n) (value : V) :
    held (putCell m (p + i) value) places = (Event.put p i value).act (held m places) := by
  refine (List.map_congr_left fun place other => ?_).trans List.map_map.symm
  dsimp only [Function.comp]
  split
  next same => rw [same,region_put]
  next different =>
    rw [region_congr]
    intro x lower upper
    apply if_neg
    have separate := apart place other (p,n) member different
    omega

end Foundation.Objects
