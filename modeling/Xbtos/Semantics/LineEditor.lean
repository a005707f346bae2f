import Mathlib.Data.List.DropRight

/-! What a line editor is for, stated without buffers: it holds the line being edited, the
last lines entered, and which of these was recalled into the line. -/
namespace Xbtos.Semantics.LineEditor

inductive Key (α : Type)
  | nothing
  | char (c : α)
  | erase
  | older
  | newer
  | enter

structure Draft (α : Type) where
  line : List α
  past : List (List α)
  recalled : Option Nat

section
variable {α : Type}

def Draft.start : Draft α := ⟨[],[],none⟩

def Draft.type (limit : Nat) (c : α) (d : Draft α) : Draft α :=
  if d.line.length < limit then { d with line := d.line ++ [c], recalled := none } else d

def Draft.erase (d : Draft α) : Draft α :=
  if d.line = [] then d else { d with line := d.line.dropLast, recalled := none }

def Draft.select (i : Nat) (d : Draft α) : Draft α :=
  { d with line := d.past.getD i [], recalled := some i }

def Draft.older (d : Draft α) : Draft α :=
  match d.recalled with
  | none => if d.past = [] then d else d.select (d.past.length - 1)
  | some i => d.select (i - 1)

def Draft.newer (d : Draft α) : Draft α :=
  match d.recalled with
  | none => d
  | some i =>
    if i + 1 < d.past.length then d.select (i + 1) else { d with line := [], recalled := none }

/-- An empty line is not entered. -/
def Draft.enter (depth : Nat) (d : Draft α) : Draft α :=
  if d.line = [] then d else ⟨[],(d.past ++ [d.line]).rtake depth,none⟩

def Draft.press (limit depth : Nat) : Key α → Draft α → Draft α
  | .nothing, d => d
  | .char c, d => d.type limit c
  | .erase, d => d.erase
  | .older, d => d.older
  | .newer, d => d.newer
  | .enter, d => d.enter depth

def Draft.entered : Key α → Draft α → Option (List α)
  | .enter, d => if d.line = [] then none else some d.line
  | _, _ => none

/-- The draft after the keys, and the lines entered on the way. -/
def typing (limit depth : Nat) : List (Key α) → Draft α → Draft α × List (List α)
  | [], d => (d,[])
  | key :: keys, d =>
    let (last,entered) := typing limit depth keys (d.press limit depth key)
    (last,(d.entered key).toList ++ entered)

/-! Every line kept has its bounds, and a recalled line is the one recalled. -/

structure Kept (limit depth : Nat) (plain : α → Prop) (d : Draft α) : Prop where
  line : d.line.length ≤ limit
  text : ∀ c ∈ d.line, plain c
  depth : d.past.length ≤ depth
  past : ∀ l ∈ d.past, l ≠ [] ∧ l.length ≤ limit ∧ ∀ c ∈ l, plain c
  recalled : ∀ i ∈ d.recalled, ∃ inside : i < d.past.length, d.line = d.past[i]

variable {limit depth : Nat} {plain : α → Prop} {d : Draft α}

theorem kept_start : Kept limit depth plain (Draft.start : Draft α) :=
  ⟨Nat.zero_le _,by simp [Draft.start],Nat.zero_le _,by simp [Draft.start],by simp [Draft.start]⟩

theorem Kept.none_recalled (kept : Kept limit depth plain d) (empty : d.past = []) :
    d.recalled = none := by
  rw [Option.eq_none_iff_forall_not_mem]
  intro i here
  obtain ⟨inside,_⟩ := kept.recalled i here
  simp [empty] at inside

theorem Kept.type (kept : Kept limit depth plain d) {c : α} (good : plain c) :
    Kept limit depth plain (d.type limit c) := by
  unfold Draft.type
  split
  next room =>
    refine ⟨?_,?_,kept.depth,kept.past,by simp⟩
    · rw [List.length_append,List.length_singleton]
      exact room
    · intro x member
      rcases List.mem_append.mp member with old | new
      · exact kept.text x old
      · rwa [List.mem_singleton.mp new]
  next => exact kept

theorem Kept.erase (kept : Kept limit depth plain d) : Kept limit depth plain d.erase := by
  unfold Draft.erase
  split
  next => exact kept
  next =>
    refine ⟨?_,fun c member => kept.text c (List.dropLast_subset _ member),kept.depth,kept.past,
      by simp⟩
    rw [List.length_dropLast]
    exact Nat.le_trans (Nat.sub_le _ _) kept.line

theorem Kept.select (kept : Kept limit depth plain d) {i : Nat} (inside : i < d.past.length) :
    Kept limit depth plain (d.select i) := by
  have chosen : d.past.getD i [] = d.past[i] := by simp [inside]
  have good := kept.past _ (List.getElem_mem inside)
  refine ⟨?_,?_,kept.depth,kept.past,?_⟩
  · rw [Draft.select,chosen]
    exact good.2.1
  · rw [Draft.select,chosen]
    exact good.2.2
  · rintro j ⟨⟩
    exact ⟨inside,chosen⟩

theorem Kept.newer (kept : Kept limit depth plain d) : Kept limit depth plain d.newer := by
  unfold Draft.newer
  split
  next => exact kept
  next i here =>
    split
    next inside => exact kept.select inside
    next => exact ⟨Nat.zero_le _,by simp,kept.depth,kept.past,by simp⟩

theorem Kept.enter (kept : Kept limit depth plain d) : Kept limit depth plain (d.enter depth) := by
  unfold Draft.enter
  split
  next => exact kept
  next filled =>
    refine ⟨Nat.zero_le _,by simp,?_,?_,by simp⟩
    · rw [List.rtake,List.length_drop]
      omega
    · intro l member
      rcases List.mem_append.mp (List.mem_of_mem_drop member) with old | new
      · exact kept.past l old
      · rw [List.mem_singleton.mp new]
        exact ⟨filled,kept.line,kept.text⟩

/-! The past is made of the last lines entered. -/

theorem rtake_rtake_append (n : Nat) (l : List α) (x : α) :
    (l.rtake n ++ [x]).rtake n = (l ++ [x]).rtake n := by
  cases n with
  | zero => rw [List.rtake_zero,List.rtake_zero]
  | succ n =>
    rw [List.rtake_concat_succ,List.rtake_concat_succ]
    simp only [List.rtake,List.length_drop,List.drop_drop]
    congr 2
    omega

theorem press_past (key : Key α) (d : Draft α) {before : List (List α)}
    (past : d.past = before.rtake depth) :
    (d.press limit depth key).past = (before ++ (d.entered key).toList).rtake depth := by
  cases key with
  | enter =>
    simp only [Draft.press,Draft.enter,Draft.entered]
    split
    next => simpa using past
    next => rw [past,rtake_rtake_append]; rfl
  | _ =>
    simp only [Draft.press,Draft.type,Draft.erase,Draft.older,Draft.newer,Draft.select,Draft.entered,
      Option.toList_none,List.append_nil]
    repeat' split
    all_goals exact past

theorem typing_past (keys : List (Key α)) (d : Draft α) {before : List (List α)}
    (past : d.past = before.rtake depth) :
    (typing limit depth keys d).1.past = (before ++ (typing limit depth keys d).2).rtake depth := by
  induction keys generalizing d before with
  | nil => simpa [typing] using past
  | cons key keys ih =>
    simp only [typing]
    rw [ih _ (press_past key d past),List.append_assoc]

/-! Writing lines. -/

def Key.acts : Key α → Bool
  | .nothing => false
  | _ => true

/-- The keys that stand for something. -/
def acting (keys : List (Key α)) : List (Key α) := keys.filter Key.acts

theorem typing_acting (keys : List (Key α)) (d : Draft α) :
    typing limit depth (acting keys) d = typing limit depth keys d := by
  induction keys generalizing d with
  | nil => rfl
  | cons key keys ih =>
    cases key with
    | nothing => exact ih d
    | _ =>
      rw [acting,List.filter_cons_of_pos rfl,typing,typing]
      exact congrArg (fun rest : Draft α × List (List α) => (rest.1,_ ++ rest.2)) (ih _)

theorem typing_append (first second : List (Key α)) (d : Draft α) :
    typing limit depth (first ++ second) d =
      ((typing limit depth second (typing limit depth first d).1).1,
        (typing limit depth first d).2 ++ (typing limit depth second (typing limit depth first d).1).2) := by
  induction first generalizing d with
  | nil => rfl
  | cons key first ih => simp only [List.cons_append,typing,ih,List.append_assoc]

/-- The keys that write a line and enter it. -/
def writing (line : List α) : List (Key α) := line.map .char ++ [.enter]

theorem typing_chars {line : List α} (room : d.line.length + line.length ≤ limit) :
    (typing limit depth (line.map .char) d).2 = [] ∧
      (typing limit depth (line.map .char) d).1.line = d.line ++ line ∧
      (typing limit depth (line.map .char) d).1.past = d.past := by
  induction line generalizing d with
  | nil => exact ⟨rfl,(List.append_nil _).symm,rfl⟩
  | cons c line ih =>
    rw [List.length_cons] at room
    have typed : d.press limit depth (.char c) = ⟨d.line ++ [c],d.past,none⟩ := if_pos (by omega)
    have rest := ih (d := ⟨d.line ++ [c],d.past,none⟩)
      (by rw [List.length_append,List.length_singleton]; omega)
    rw [List.append_assoc,List.singleton_append] at rest
    simp only [List.map_cons,typing,typed]
    exact rest

theorem typing_writing {line : List α} (empty : d.line = []) (filled : line ≠ []) (short : line.length ≤ limit) :
    typing limit depth (writing line) d = (⟨[],(d.past ++ [line]).rtake depth,none⟩,[line]) := by
  have room : d.line.length + line.length ≤ limit := by
    rw [empty,List.length_nil,Nat.zero_add]
    exact short
  obtain ⟨none,typed,past⟩ := typing_chars room
  rw [empty,List.nil_append] at typed
  rw [writing,typing_append,none]
  generalize (typing limit depth (line.map .char) d).1 = e at typed past ⊢
  simp only [typing,Draft.press,Draft.enter,Draft.entered,typed,past,if_neg filled]
  rfl

theorem typing_erases {n : Nat} (all : d.line.length ≤ n) :
    (typing limit depth (List.replicate n .erase) d).1.line = [] := by
  induction n generalizing d with
  | zero => exact List.length_eq_zero_iff.mp (Nat.le_zero.mp all)
  | succ n ih =>
    simp only [List.replicate_succ,typing]
    apply ih
    simp only [Draft.press,Draft.erase]
    split
    next empty =>
      rw [empty]
      exact Nat.zero_le n
    next =>
      rw [List.length_dropLast]
      exact Nat.sub_le_of_le_add all

end

end Xbtos.Semantics.LineEditor
