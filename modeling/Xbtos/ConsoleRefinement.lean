import Xbtos.ConsoleStep
import Xbtos.Semantics.Terminal

/-! The screen shows the last rows of a terminal without a bottom: of the page that the
same characters write where nothing scrolls. -/
namespace Xbtos.Console
open Foundation.Buffer Strings Semantics.Terminal

def type (c : UInt8) (p : Page UInt8) : Page UInt8 :=
  if c = newline then p.newline
  else if c = backspace then p.erase space
  else p.put vgaWidth c

/-- The page after the characters typed on an empty one. -/
def typed (text : List UInt8) : Page UInt8 :=
  text.foldl (fun p c => type c p) (Page.start space)

/-- The screen is the window of the page that ends with its last row. -/
structure Window (p : Page UInt8) (s : State) : Prop where
  onScreen : OnScreen s
  column : s.cursorX = p.column
  row : p.top vgaHeight + s.cursorY = p.row
  cells : ∀ row column, row < vgaHeight → column < vgaWidth →
    s.vgaBuffer[row * vgaWidth + column]? =
      some (cell s.color (p.cells (p.top vgaHeight + row) column))

/-- A window, and what scrolling will expose under it. -/
structure Shown (p : Page UInt8) (s : State) : Prop where
  window : Window p s
  blank : ∀ row column, p.row < row → p.cells row column = space

/-! One character. -/

theorem type_cells (c : UInt8) (p : Page UInt8) (row column : Nat) :
    (type c p).cells row column =
      if c = newline then p.cells row column
      else if c = backspace then
        if 0 < p.column ∧ row = p.row ∧ column = p.column - 1 then space else p.cells row column
      else if row = p.row ∧ column = p.column then c else p.cells row column := by
  unfold type
  split_ifs with line back left here
  · rfl
  · obtain ⟨positive,rfl,rfl⟩ := left
    rw [Page.erase,if_neg (Nat.ne_of_gt positive)]
    exact write_same space { p with column := p.column - 1 }
  · rw [Page.erase]
    split_ifs with first
    · rfl
    · exact write_other space { p with column := p.column - 1 }
        fun same => left ⟨Nat.pos_of_ne_zero first,same⟩
  · obtain ⟨rfl,rfl⟩ := here
    rw [Page.put]
    split_ifs <;> exact write_same c p
  · rw [Page.put]
    split_ifs <;> exact write_other c p here

/-- Where the page goes on, counted from the first row of the window. -/
theorem Window.type_cursor {p : Page UInt8} {s : State} (window : Window p s) (c : UInt8) :
    (type c p).column < vgaWidth ∧ (type c p).row * vgaWidth + (type c p).column =
      p.top vgaHeight * vgaWidth + target c s := by
  have column := window.onScreen.column
  have row := window.row
  rw [window.column] at column
  simp only [target,index,window.column]
  generalize p.top vgaHeight = top at row
  unfold type
  split_ifs with line back left
  · simp only [Page.newline,vgaWidth]
    omega
  · rw [Page.erase,if_neg (Nat.ne_of_gt left)]
    simp only [vgaWidth] at column ⊢
    omega
  · rw [Page.erase,if_pos (Nat.eq_zero_of_not_pos left)]
    simp only [vgaWidth] at column ⊢
    omega
  · simp only [Page.put]
    split_ifs with full
    · simp only [Page.newline,vgaWidth] at column full ⊢
      omega
    · simp only [vgaWidth] at full ⊢
      omega

theorem Window.drawn {p : Page UInt8} {s : State} (window : Window p s) (c : UInt8)
    {row column : Nat} (below : row < vgaHeight) (inside : column < vgaWidth) :
    Console.drawn c s (row * vgaWidth + column) =
      some (cell s.color ((type c p).cells (p.top vgaHeight + row) column)) := by
  have there := window.cells row column below inside
  have first := window.row
  have same := window.column
  have left := window.onScreen.column
  have here : row * vgaWidth + column = index s ↔
      p.top vgaHeight + row = p.row ∧ column = p.column := by
    simp only [index,vgaWidth] at inside left ⊢
    omega
  have before : 0 < s.cursorX ∧ row * vgaWidth + column = index s - 1 ↔
      0 < p.column ∧ p.top vgaHeight + row = p.row ∧ column = p.column - 1 := by
    simp only [index,vgaWidth] at inside left ⊢
    omega
  rw [type_cells,Console.drawn,there]
  simp only [here,before]
  split_ifs <;> rfl

/-- The window goes down by the rows scrolled, and the cursor is in it. -/
theorem Window.put_top {p : Page UInt8} {s s' : State} {c : UInt8} (window : Window p s)
    (put : Put c s s') :
    (type c p).top vgaHeight = p.top vgaHeight + rowsScrolled c s ∧
      s'.cursorX = (type c p).column ∧
      p.top vgaHeight + rowsScrolled c s + s'.cursorY = (type c p).row := by
  obtain ⟨inside,linear⟩ := window.type_cursor c
  have cursor := put.cursor
  have column := put.onScreen.column
  have row := put.onScreen.row
  have first := window.row
  have high := window.onScreen.row
  have down := target_row c s
  have scrolled : rowsScrolled c s = if 2000 ≤ target c s then 1 else 0 := rfl
  simp only [Page.top,vgaWidth,vgaHeight,index] at *
  generalize rowsScrolled c s = d at *
  split_ifs at scrolled <;> omega

theorem type_row (c : UInt8) (p : Page UInt8) : p.row ≤ (type c p).row := by
  simp only [type,Page.erase,Page.put,Page.newline]
  split_ifs <;> simp

theorem Shown.put {p : Page UInt8} {s s' : State} {c : UInt8} (shown : Shown p s)
    (put : Put c s s') : Shown (type c p) s' := by
  obtain ⟨window,blank⟩ := shown
  obtain ⟨top,column,row⟩ := window.put_top put
  have below : ∀ r column, p.row < r → (type c p).cells r column = space := by
    intro r column lower
    have other : r ≠ p.row := Nat.ne_of_gt lower
    rw [type_cells]
    simp only [other,false_and,and_false,if_false,ite_self,blank r column lower]
  refine ⟨⟨put.onScreen,column,by rw [top,row],fun r column bound inside => ?_⟩,
    fun r column lower => below r column (Nat.lt_of_le_of_lt (type_row c p) lower)⟩
  have all : vgaHeight * vgaWidth = 2000 := rfl
  have width : vgaWidth = 80 := rfl
  have height : vgaHeight = 25 := rfl
  have place : r * vgaWidth + column < vgaHeight * vgaWidth := by
    rw [width] at inside ⊢
    omega
  have shift : r * vgaWidth + column + vgaWidth * rowsScrolled c s =
      (r + rowsScrolled c s) * vgaWidth + column := by
    rw [width]
    omega
  rw [put.cells _ place,shift,top,put.color]
  by_cases exposed : vgaHeight ≤ r + rowsScrolled c s
  · -- the row under the window
    have first := window.row
    have high := window.onScreen.row
    rw [if_pos (by rw [width]; omega),below _ column (by omega)]
  · rw [if_neg (by rw [width] at inside ⊢; omega),
      window.drawn c (Nat.not_le.mp exposed) inside,Nat.add_assoc,Nat.add_comm (rowsScrolled c s)]

theorem Shown.putAll {p : Page UInt8} {s : State} (shown : Shown p s) (text : List UInt8) :
    ∃ s', Console.putAll text s = some s' ∧ s'.color = s.color ∧
      Shown (text.foldl (fun p c => type c p) p) s' := by
  induction text generalizing p s with
  | nil => exact ⟨s,rfl,rfl,shown⟩
  | cons c text ih =>
    obtain ⟨one,placed,put⟩ := vgaPutChar_put shown.window.onScreen c
    obtain ⟨s',rest,color,last⟩ := ih (shown.put put)
    refine ⟨s',?_,color.trans put.color,last⟩
    simp only [Console.putAll,placed,Option.bind_eq_bind,Option.bind_some,rest]

theorem shown_clear {s s' : State} (onScreen : OnScreen s') (color : s'.color = s.color)
    (home : index s' = 0)
    (blank : ∀ k, k < vgaHeight * vgaWidth → s'.vgaBuffer[k]? = some (cell s.color space)) :
    Shown (Page.start space) s' := by
  have width : vgaWidth = 80 := rfl
  have height : vgaHeight = 25 := rfl
  rw [index,width] at home
  refine ⟨⟨onScreen,show s'.cursorX = 0 by omega,show 0 + 1 - vgaHeight + s'.cursorY = 0 by omega,
    fun row column below inside => ?_⟩,fun _ _ _ => rfl⟩
  rw [blank _ (by rw [width] at inside ⊢; omega),color]
  rfl

/-- After a clear, whatever is put on the screen, every access is to a cell on it, and the
screen shows the last rows of the page typed. -/
theorem put_char_refines (s : State) (text : List UInt8) :
    ∃ cleared s', vgaClear s = some cleared ∧ putAll text cleared = some s' ∧
      s'.color = s.color ∧ Window (typed text) s' := by
  obtain ⟨cleared,blanked,onScreen,color,home,blank⟩ := vgaClear_blank s
  obtain ⟨s',put,same,shown⟩ := (shown_clear onScreen color home blank).putAll text
  exact ⟨cleared,s',blanked,put,same.trans color,shown.window⟩

end Xbtos.Console
