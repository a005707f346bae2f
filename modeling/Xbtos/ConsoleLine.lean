import Xbtos.ConsoleText

/-! A line on the screen. It is spelled from where the console was at its start, which the
rows scrolled since then move up; what it once reached and no longer does is blank. -/
namespace Xbtos.Console
open Foundation.Buffer Strings

/-- The rows that a text scrolls the screen by. -/
def scrolledBy : List UInt8 → State → Nat
  | [], _ => 0
  | c :: text, s => rowsScrolled c s + (vgaPutChar c s).elim 0 (scrolledBy text)

/-- A line of this length stays on the screen, wherever it starts. -/
def longest : Nat := 255

structure Spells (start : State) (rows : Nat) (line : List UInt8) (extent : Nat) (s : State) :
    Prop where
  onScreen : OnScreen s
  color : s.color = start.color
  short : line.length ≤ longest
  reached : line.length ≤ extent
  above : vgaWidth * rows ≤ index start
  below : index start + extent < vgaHeight * vgaWidth + vgaWidth * rows
  cursor : index s + vgaWidth * rows = index start + line.length
  cells : ∀ i, i < extent → s.vgaBuffer[index start + i - vgaWidth * rows]? =
    some (cell s.color (line.getD i space))

variable {start s : State} {rows extent : Nat} {line : List UInt8}

theorem OnScreen.spells (onScreen : OnScreen start) : Spells start 0 [] 0 start :=
  ⟨onScreen,rfl,Nat.zero_le _,Nat.le_refl _,Nat.zero_le _,onScreen.index,rfl,by simp⟩

theorem scrolledBy_append (first second : List UInt8) {s s' : State}
    (put : putAll first s = some s') :
    scrolledBy (first ++ second) s = scrolledBy first s + scrolledBy second s' := by
  induction first generalizing s with
  | nil =>
    cases put
    exact (Nat.zero_add _).symm
  | cons c first ih =>
    simp only [putAll,Option.bind_eq_bind] at put
    obtain ⟨one,placed,rest⟩ := Option.bind_eq_some_iff.mp put
    simp only [List.cons_append,scrolledBy,placed,Option.elim_some,ih rest,Nat.add_assoc]

/-! One character. -/

/-- A character that is no control character. -/
def Visible (c : UInt8) : Prop := c ≠ newline ∧ c ≠ backspace

theorem target_visible {c : UInt8} (visible : Visible c) : target c s = index s + 1 := by
  rw [target,if_neg visible.1,if_neg visible.2]

theorem put_visible {s' : State} {c : UInt8} (visible : Visible c) (put : Put c s s') :
    index s' + vgaWidth * rowsScrolled c s = index s + 1 :=
  put.cursor.trans (target_visible visible)

theorem put_backspace {s' : State} (onScreen : OnScreen s) (put : Put backspace s s') :
    rowsScrolled backspace s = 0 ∧ index s' + min 1 s.cursorX = index s ∧
      s'.cursorX = s.cursorX - 1 := by
  have inside := onScreen.index
  have column := onScreen.column
  have after := put.onScreen.column
  have moved := put.cursor
  have other : ¬backspace = newline := by decide
  have goes : target backspace s = index s - min 1 s.cursorX := by
    rw [target,if_neg other,if_pos rfl]
    split_ifs <;> omega
  have still : rowsScrolled backspace s = 0 := by
    rw [rowsScrolled,goes,if_neg (by omega)]
  have left_of : s.cursorX ≤ index s := Nat.le_add_left _ _
  rw [goes,still,Nat.mul_zero,Nat.add_zero] at moved
  refine ⟨still,by omega,?_⟩
  simp only [index,vgaWidth] at moved column after
  omega

theorem Spells.put {s' : State} {c : UInt8} (spells : Spells start rows line extent s)
    (visible : Visible c) (room : line.length < longest) (put : Put c s s') :
    Spells start (rows + rowsScrolled c s) (line ++ [c]) (max extent (line.length + 1)) s' := by
  have inside := spells.onScreen.index
  have cursor := spells.cursor
  have below := spells.below
  have after := put.onScreen.index
  have moved := put_visible visible put
  have scrolled : rowsScrolled c s = if 2000 ≤ index s + 1 then 1 else 0 := by
    rw [rowsScrolled,target_visible visible]
    rfl
  have length : (line ++ [c]).length = line.length + 1 := List.length_append
  have above := spells.above
  have reached := spells.reached
  have cells := put.cells
  have width : vgaWidth = 80 := rfl
  have height : vgaHeight = 25 := rfl
  have size : longest = 255 := rfl
  generalize rowsScrolled c s = d at *
  simp only [width,height] at inside cursor below after moved above cells ⊢
  have upper : 80 * (rows + d) ≤ index start := by
    split_ifs at scrolled <;> omega
  refine ⟨put.onScreen,put.color.trans spells.color,by rw [length]; exact room,by omega,upper,?_,?_,
    fun i bound => ?_⟩
  · rw [width,height]
    split_ifs at scrolled <;> omega
  · rw [width]
    omega
  · -- where the cell was before the screen was scrolled
    show s'.vgaBuffer[index start + i - 80 * (rows + d)]? = _
    have back : index start + i - 80 * (rows + d) + 80 * d = index start + i - 80 * rows := by omega
    have low : index start + i - 80 * rows < 2000 := by omega
    rw [cells _ (by omega),back,if_neg (by omega),put.color,drawn,if_neg visible.1,if_neg visible.2]
    by_cases here : i = line.length
    · subst here
      rw [if_pos (by omega),List.getD_eq_getElem?_getD,List.getElem?_append_right (Nat.le_refl _),
        Nat.sub_self]
      rfl
    · have same : (line ++ [c]).getD i space = line.getD i space := by
        rw [List.getD_eq_getElem?_getD,List.getD_eq_getElem?_getD]
        by_cases old : i < line.length
        · rw [List.getElem?_append_left old]
        · rw [List.getElem?_eq_none (by omega),List.getElem?_eq_none (by omega)]
      rw [if_neg (by omega),same]
      exact spells.cells i (by omega)

theorem Spells.takeBack {s' : State} (spells : Spells start rows line extent s)
    (left : 0 < s.cursorX) (filled : line ≠ []) (put : Put backspace s s') :
    Spells start rows line.dropLast extent s' := by
  have inside := spells.onScreen.index
  have cursor := spells.cursor
  have below := spells.below
  have above := spells.above
  have cells := put.cells
  have positive : 0 < line.length := List.length_pos_iff.mpr filled
  have length : line.dropLast.length = line.length - 1 := List.length_dropLast
  have other : ¬backspace = newline := by decide
  obtain ⟨still,moved,_⟩ := put_backspace spells.onScreen put
  refine ⟨put.onScreen,put.color.trans spells.color,?_,?_,above,below,by omega,fun i bound => ?_⟩
  · exact length ▸ Nat.le_trans (Nat.sub_le _ _) spells.short
  · exact length ▸ Nat.le_trans (Nat.sub_le _ _) spells.reached
  · rw [cells _ (by omega),still,Nat.mul_zero,Nat.add_zero,if_neg (by omega),put.color,drawn,
      if_neg other,if_pos rfl,List.getD_eq_getElem?_getD,List.getElem?_dropLast]
    by_cases last : i = line.length - 1
    · rw [if_pos ⟨left,by omega⟩,if_neg (by omega)]
      rfl
    · rw [if_neg (by omega),spells.cells i bound,List.getD_eq_getElem?_getD]
      by_cases kept : i < line.length - 1
      · rw [if_pos kept]
      · rw [if_neg kept,List.getElem?_eq_none (by omega)]

/-! A text. -/

theorem Spells.putAll_line {text : List UInt8} (spells : Spells start rows line extent s)
    (visible : ∀ c ∈ text, Visible c)
    (room : (line ++ text).length ≤ longest) : ∃ s', putAll text s = some s' ∧
      Spells start (rows + scrolledBy text s) (line ++ text) (max extent (line ++ text).length) s' := by
  induction text generalizing s rows line extent with
  | nil =>
    refine ⟨s,rfl,?_⟩
    rw [List.append_nil,Nat.max_eq_left spells.reached]
    exact spells
  | cons c text ih =>
    rw [List.forall_mem_cons] at visible
    have length : (line ++ c :: text).length = line.length + 1 + text.length := by
      rw [List.length_append,List.length_cons,Nat.add_assoc,Nat.add_comm 1]
    have split : line ++ c :: text = line ++ [c] ++ text := by simp
    obtain ⟨one,placed,put⟩ := vgaPutChar_put spells.onScreen c
    obtain ⟨s',rest,last⟩ := ih (spells.put visible.1 (by omega) put) visible.2 (by rwa [← split])
    have furthest : max (max extent (line.length + 1)) (line ++ c :: text).length =
        max extent (line ++ c :: text).length := by omega
    rw [← split,furthest,Nat.add_assoc] at last
    refine ⟨s',by simp only [putAll,placed,Option.bind_eq_bind,Option.bind_some,rest],?_⟩
    simp only [scrolledBy,placed,Option.elim_some]
    exact last

theorem Spells.takeBack_all {n : Nat} (spells : Spells start rows line extent s)
    (left : n ≤ s.cursorX) (filled : n ≤ line.length) : ∃ s',
      putAll (List.replicate n backspace) s = some s' ∧
      scrolledBy (List.replicate n backspace) s = 0 ∧
      Spells start rows (line.take (line.length - n)) extent s' := by
  induction n generalizing s line with
  | zero =>
    rw [Nat.sub_zero,List.take_length]
    exact ⟨s,rfl,rfl,spells⟩
  | succ n ih =>
    obtain ⟨one,placed,put⟩ := vgaPutChar_put spells.onScreen backspace
    obtain ⟨still,_,column⟩ := put_backspace spells.onScreen put
    have shorter := spells.takeBack (by omega) (List.ne_nil_of_length_pos (by omega)) put
    have length : line.dropLast.length = line.length - 1 := List.length_dropLast
    obtain ⟨s',rest,scrolled,last⟩ := ih shorter (by omega) (by omega)
    have taken : line.dropLast.take (line.dropLast.length - n) = line.take (line.length - (n + 1)) := by
      rw [List.dropLast_eq_take,List.take_take,List.length_take]
      congr 1
      omega
    rw [taken] at last
    refine ⟨s',?_,?_,last⟩
    · simp only [List.replicate_succ,putAll,placed,Option.bind_eq_bind,Option.bind_some,rest]
    · simp only [List.replicate_succ,scrolledBy,placed,Option.elim_some,still,scrolled]

theorem Spells.edit {n : Nat} {text : List UInt8} (spells : Spells start rows line extent s)
    (left : n ≤ s.cursorX) (filled : n ≤ line.length)
    (visible : ∀ c ∈ text, Visible c)
    (room : (line.take (line.length - n) ++ text).length ≤ longest) : ∃ s',
      putAll (List.replicate n backspace ++ text) s = some s' ∧
      Spells start (rows + scrolledBy (List.replicate n backspace ++ text) s)
        (line.take (line.length - n) ++ text)
        (max extent (line.take (line.length - n) ++ text).length) s' := by
  obtain ⟨one,erased,still,shorter⟩ := spells.takeBack_all left filled
  obtain ⟨s',written,last⟩ := shorter.putAll_line visible room
  refine ⟨s',?_,?_⟩
  · rw [putAll_append,erased]
    exact written
  · rw [scrolledBy_append _ _ erased,still,Nat.zero_add]
    exact last

/-! Where a text leaves the cursor. -/

theorem putAll_visible {text : List UInt8} {s s' : State} (onScreen : OnScreen s)
    (visible : ∀ c ∈ text, Visible c) (put : putAll text s = some s') :
    index s' + vgaWidth * scrolledBy text s = index s + text.length := by
  induction text generalizing s with
  | nil =>
    cases put
    rfl
  | cons c text ih =>
    rw [List.forall_mem_cons] at visible
    obtain ⟨one,placed,first⟩ := vgaPutChar_put onScreen c
    simp only [putAll,placed,Option.bind_eq_bind,Option.bind_some] at put
    have moved := put_visible visible.1 first
    have rest := ih first.onScreen visible.2 put
    simp only [scrolledBy,placed,Option.elim_some,List.length_cons,Nat.mul_add]
    omega

theorem putAll_backspaces (n : Nat) {s s' : State} (onScreen : OnScreen s)
    (put : putAll (List.replicate n backspace) s = some s') :
    scrolledBy (List.replicate n backspace) s = 0 ∧ OnScreen s' ∧
      index s' + min n s.cursorX = index s := by
  induction n generalizing s with
  | zero =>
    cases put
    exact ⟨rfl,onScreen,by omega⟩
  | succ n ih =>
    obtain ⟨one,placed,first⟩ := vgaPutChar_put onScreen backspace
    simp only [List.replicate_succ,putAll,placed,Option.bind_eq_bind,Option.bind_some] at put
    obtain ⟨still,moved,column⟩ := put_backspace onScreen first
    obtain ⟨scrolled,last,rest⟩ := ih first.onScreen put
    refine ⟨?_,last,by omega⟩
    simp only [List.replicate_succ,scrolledBy,placed,Option.elim_some,still,scrolled]

/-- However many characters are to be taken back, the cursor stays on its row. -/
theorem putAll_edit {n : Nat} {text : List UInt8} {s s' : State} (onScreen : OnScreen s)
    (visible : ∀ c ∈ text, Visible c)
    (put : putAll (List.replicate n backspace ++ text) s = some s') :
    index s' + vgaWidth * scrolledBy (List.replicate n backspace ++ text) s + min n s.cursorX =
      index s + text.length := by
  rw [putAll_append] at put
  obtain ⟨one,erased,written⟩ := Option.bind_eq_some_iff.mp put
  obtain ⟨still,on,back⟩ := putAll_backspaces n onScreen erased
  have forth := putAll_visible on visible written
  rw [scrolledBy_append _ _ erased,still,Nat.zero_add]
  omega

/-- The column behind a character. -/
def columnAfter (column : Nat) (c : UInt8) : Nat :=
  if c = newline then 0
  else if c = backspace then column - 1
  else if column + 1 = vgaWidth then 0
  else column + 1

theorem Put.column {s' : State} {c : UInt8} (onScreen : OnScreen s) (put : Put c s s') :
    s'.cursorX = columnAfter s.cursorX c := by
  have column := onScreen.column
  have after := put.onScreen.column
  have moved := put.cursor
  have width : vgaWidth = 80 := rfl
  unfold columnAfter
  rw [target] at moved
  simp only [index,width] at column after moved ⊢
  by_cases line : c = newline
  · rw [if_pos line] at moved ⊢
    omega
  rw [if_neg line] at moved ⊢
  by_cases back : c = backspace
  · rw [if_pos back] at moved ⊢
    split_ifs at moved <;> omega
  · rw [if_neg back] at moved ⊢
    split_ifs <;> omega

theorem putAll_column {text : List UInt8} {s s' : State} (onScreen : OnScreen s)
    (put : putAll text s = some s') : s'.cursorX = text.foldl columnAfter s.cursorX := by
  induction text generalizing s with
  | nil =>
    cases put
    rfl
  | cons c text ih =>
    obtain ⟨one,placed,first⟩ := vgaPutChar_put onScreen c
    simp only [putAll,placed,Option.bind_eq_bind,Option.bind_some] at put
    rw [List.foldl_cons,← first.column onScreen]
    exact ih first.onScreen put

end Xbtos.Console
