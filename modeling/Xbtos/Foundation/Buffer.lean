import Mathlib.Data.List.TakeWhile

/-! Fixed buffers with checked stores, and the terminated strings they hold.
A store outside its buffer has no result. -/
namespace Foundation.Buffer

def store {α : Type} {n : Nat} (buffer : Vector α n) (i : Nat) (x : α) : Option (Vector α n) :=
  if inside : i < n then some (buffer.set i x inside) else none

/-- One store after another from index i on. -/
def storeAll {α : Type} {n : Nat} : Vector α n → Nat → List α → Option (Vector α n)
  | buffer, _, [] => some buffer
  | buffer, i, x :: xs => do storeAll (← store buffer i x) (i+1) xs

/-! With an index that has a sign. -/

def fetch {α : Type} {n : Nat} (buffer : Vector α n) (i : Int) : Option α :=
  if i < 0 then none else buffer[i.toNat]?

def put {α : Type} {n : Nat} (buffer : Vector α n) (i : Int) (x : α) : Option (Vector α n) :=
  if i < 0 then none else store buffer i.toNat x

/-- The next store into a buffer that is filled from its front; the list is what has
been stored so far. -/
def push {α : Type} (capacity : Nat) (stored : List α) (x : α) : Option (List α) :=
  if stored.length < capacity then some (stored ++ [x]) else none

def pushAll {α : Type} (capacity : Nat) : List α → List α → Option (List α)
  | stored, [] => some stored
  | stored, x :: xs => do pushAll capacity (← push capacity stored x) xs

/-- The items before the first terminator. -/
def upTo {α : Type} [DecidableEq α] (terminator : α) (items : List α) : List α :=
  items.takeWhile (· ≠ terminator)

theorem store_inside {α : Type} {n i : Nat} (buffer : Vector α n) (x : α) (inside : i < n) :
    ∃ result, store buffer i x = some result ∧ result.toList = buffer.toList.set i x := by
  refine ⟨buffer.set i x inside,?_,Vector.toList_set inside⟩
  simp only [store,inside,dif_pos]

theorem store_cell {α : Type} {n i : Nat} (buffer : Vector α n) (x : α) (inside : i < n) :
    ∃ stored, store buffer i x = some stored ∧
      ∀ k, stored[k]? = if k = i then some x else buffer[k]? := by
  refine ⟨buffer.set i x inside,by simp only [store,inside,dif_pos],fun k => ?_⟩
  rw [Vector.getElem?_set]
  split_ifs with first second second
  · rfl
  · exact absurd first.symm second
  · exact absurd second.symm first
  · rfl

theorem store_outside {α : Type} {n i : Nat} (buffer : Vector α n) (x : α) (outside : n ≤ i) :
    store buffer i x = none := by
  simp only [store,Nat.not_lt.mpr outside,dif_neg,not_false_eq_true]

theorem fetch_nat {α : Type} {n : Nat} (buffer : Vector α n) (i : Nat) :
    fetch buffer (i : Int) = buffer[i]? := by
  rw [fetch,if_neg (by omega),Int.toNat_natCast]

theorem put_nat {α : Type} {n : Nat} (buffer : Vector α n) (i : Nat) (x : α) :
    put buffer (i : Int) x = store buffer i x := by
  rw [put,if_neg (by omega),Int.toNat_natCast]

theorem getElem?_behind {α : Type} {n : Nat} {buffer : Vector α n} {front : List α} {x : α}
    (begins : front ++ [x] <+: buffer.toList) : buffer[front.length]? = some x := by
  obtain ⟨rest,split⟩ := begins
  rw [← Vector.getElem?_toList,← split,List.append_assoc,
    List.getElem?_append_right (Nat.le_refl _),Nat.sub_self]
  rfl

theorem store_behind {α : Type} {n : Nat} {buffer : Vector α n} {front : List α} (x : α)
    (begins : front <+: buffer.toList) (inside : front.length < n) :
    ∃ result, store buffer front.length x = some result ∧ front ++ [x] <+: result.toList := by
  obtain ⟨result,stored,layout⟩ := store_inside buffer x inside
  obtain ⟨rest,split⟩ := begins
  refine ⟨result,stored,?_⟩
  rw [layout,← split,List.set_append_right _ _ (Nat.le_refl _),Nat.sub_self]
  cases rest with
  | nil =>
    have lengths := congrArg List.length split
    rw [List.append_nil,buffer.length_toList] at lengths
    omega
  | cons y rest => exact ⟨rest,by simp⟩

theorem storeAll_inside {α : Type} {n i : Nat} (buffer : Vector α n) (xs : List α)
    (inside : i + xs.length ≤ n) :
    ∃ result, storeAll buffer i xs = some result ∧
      result.toList = buffer.toList.take i ++ xs ++ buffer.toList.drop (i + xs.length) := by
  induction xs generalizing buffer i with
  | nil => exact ⟨buffer,rfl,by simp⟩
  | cons x xs ih =>
    rw [List.length_cons] at inside
    obtain ⟨one,stored,content⟩ := store_inside buffer x (show i < n by omega)
    obtain ⟨result,rest,layout⟩ := ih (i := i+1) one (by omega)
    refine ⟨result,?_,?_⟩
    · simp only [storeAll,stored,Option.bind_eq_bind,Option.bind_some,rest]
    · have long : i < buffer.toList.length := by simpa using (show i < n by omega)
      rw [layout,content,List.take_add_one,List.take_set_of_le (Nat.le_refl i),
        List.getElem?_set_self long,List.drop_set_of_lt (by omega),List.length_cons,
        show i + (xs.length + 1) = i + 1 + xs.length by omega]
      simp

theorem storeAll_outside {α : Type} {n i : Nat} (buffer : Vector α n) (xs : List α)
    (lower : i ≤ n) (outside : n < i + xs.length) : storeAll buffer i xs = none := by
  induction xs generalizing buffer i with
  | nil => simp at outside; omega
  | cons x xs ih =>
    rw [List.length_cons] at outside
    by_cases inside : i < n
    · obtain ⟨one,stored,_⟩ := store_inside buffer x inside
      simp only [storeAll,stored,Option.bind_eq_bind,Option.bind_some]
      exact ih one inside (by omega)
    · have full : store buffer i x = none := store_outside buffer x (by omega)
      simp only [storeAll,full,Option.bind_eq_bind,Option.bind_none]

theorem push_inside {α : Type} {capacity : Nat} {stored : List α} (x : α)
    (room : stored.length < capacity) : push capacity stored x = some (stored ++ [x]) :=
  if_pos room

theorem length_push {α : Type} {capacity : Nat} {stored result : List α} {x : α}
    (pushed : push capacity stored x = some result) : result.length ≤ capacity := by
  unfold push at pushed
  split at pushed
  next room =>
    cases pushed
    rw [List.length_append,List.length_singleton]
    exact room
  next => cases pushed

theorem pushAll_inside {α : Type} {capacity : Nat} {stored : List α} (xs : List α)
    (room : stored.length + xs.length ≤ capacity) :
    pushAll capacity stored xs = some (stored ++ xs) := by
  induction xs generalizing stored with
  | nil => simp [pushAll]
  | cons x xs ih =>
    rw [List.length_cons] at room
    simp only [pushAll,push_inside x (show stored.length < capacity by omega),Option.bind_eq_bind,
      Option.bind_some]
    rw [ih (by simp; omega),List.append_assoc,List.singleton_append]

/-! Terminated strings. -/

theorem upTo_append {α : Type} [DecidableEq α] {terminator : α} {text : List α} (rest : List α)
    (clean : terminator ∉ text) : upTo terminator (text ++ terminator :: rest) = text := by
  have all : ∀ x ∈ text, decide (x ≠ terminator) = true := by
    intro x member
    exact decide_eq_true fun same => clean (same ▸ member)
  rw [upTo,List.takeWhile_append_of_pos all]
  simp

theorem notMem_upTo {α : Type} [DecidableEq α] (terminator : α) (items : List α) :
    terminator ∉ upTo terminator items := by
  intro member
  simpa using List.mem_takeWhile_imp member

theorem upTo_split {α : Type} [DecidableEq α] {terminator : α} {items : List α}
    (terminated : terminator ∈ items) :
    ∃ rest, items = upTo terminator items ++ terminator :: rest := by
  induction items with
  | nil => cases terminated
  | cons x items ih =>
    by_cases stop : x = terminator
    · exact ⟨items,by simp [upTo,stop]⟩
    · have later : terminator ∈ items := by simpa [Ne.symm stop] using terminated
      obtain ⟨rest,split⟩ := ih later
      refine ⟨rest,?_⟩
      rw [upTo,List.takeWhile_cons_of_pos (by simpa using stop),List.cons_append]
      exact congrArg (x :: ·) split

theorem length_upTo_lt {α : Type} [DecidableEq α] {terminator : α} {items : List α}
    (terminated : terminator ∈ items) : (upTo terminator items).length < items.length := by
  obtain ⟨rest,split⟩ := upTo_split terminated
  have lengths := congrArg List.length split
  simp only [List.length_append,List.length_cons] at lengths
  omega

theorem mem_of_length_upTo {α : Type} [DecidableEq α] {terminator : α} {items : List α}
    (shorter : (upTo terminator items).length < items.length) : terminator ∈ items := by
  by_contra absent
  have all : ∀ x ∈ items, decide (x ≠ terminator) = true := by
    intro x member
    exact decide_eq_true fun same => absent (same ▸ member)
  rw [upTo,List.takeWhile_eq_self_iff.mpr all] at shorter
  exact Nat.lt_irrefl _ shorter

/-- A component goes up to a separator or to the end. -/
theorem mem_splitOn {α : Type} [DecidableEq α] {separator : α} {items component : List α}
    (member : component ∈ items.splitOn separator) : ∃ before after,
      items = before ++ component ++ after ∧ ∀ x ∈ after.head?, x = separator := by
  induction size : items.length using Nat.strongRecOn generalizing items with
  | ind n ih =>
    by_cases inside : separator ∈ items
    · obtain ⟨rest,split⟩ := upTo_split inside
      have shorter : rest.length < n := by
        rw [← size,split,List.length_append,List.length_cons]
        omega
      rw [split,List.splitOn_append_cons_self_of_not_mem (notMem_upTo separator items)] at member
      rcases List.mem_cons.mp member with rfl | later
      · exact ⟨[],separator :: rest,by rw [List.nil_append,← split],by simp⟩
      · obtain ⟨before,after,layout,ends⟩ := ih _ shorter later rfl
        refine ⟨upTo separator items ++ separator :: before,after,split.trans ?_,ends⟩
        rw [layout]
        simp
    · rw [List.splitOn_eq_singleton inside,List.mem_singleton] at member
      exact ⟨[],[],by simp [member],by simp⟩

theorem getElem_split {α : Type} {n : Nat} {terminator : α} {buffer : Vector α n}
    {text rest : List α} (split : buffer.toList = text ++ terminator :: rest) :
    ∃ inside : text.length < n, buffer[text.length] = terminator ∧
      ∀ k, ∀ before : k < text.length, buffer[k] = text[k] := by
  have lengths := congrArg List.length split
  rw [Vector.length_toList,List.length_append,List.length_cons] at lengths
  have inside : text.length < n := by omega
  have read : ∀ k, ∀ bound : k < n, buffer.toList[k]? = some buffer[k] := by
    intro k bound
    simp [bound]
  refine ⟨inside,?_,?_⟩
  · have found := read text.length inside
    rw [split,List.getElem?_append_right (Nat.le_refl _),Nat.sub_self] at found
    exact (Option.some.inj found).symm
  · intro k before
    have found := read k (by omega)
    rw [split,List.getElem?_append_left before,List.getElem?_eq_getElem before] at found
    exact (Option.some.inj found).symm

end Foundation.Buffer
