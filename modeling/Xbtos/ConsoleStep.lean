import Xbtos.Console

/-! What one character does to the screen. The screen is seen as one row of cells after
another: the cursor is at an index, and scrolling drops the cells of the first row. -/
namespace Xbtos.Console
open Foundation.Buffer Strings

structure OnScreen (s : State) : Prop where
  column : s.cursorX < vgaWidth
  row : s.cursorY < vgaHeight

def index (s : State) : Nat := s.cursorY * vgaWidth + s.cursorX

/-- The index of the cursor after the character, where no row has been scrolled yet. -/
def target (c : UInt8) (s : State) : Nat :=
  if c = newline then (s.cursorY + 1) * vgaWidth
  else if c = backspace then if 0 < s.cursorX then index s - 1 else index s
  else index s + 1

def rowsScrolled (c : UInt8) (s : State) : Nat :=
  if vgaHeight * vgaWidth ≤ target c s then 1 else 0

/-- The cells after the character, where no row has been scrolled yet. -/
def drawn (c : UInt8) (s : State) (i : Nat) : Option UInt16 :=
  if c = newline then s.vgaBuffer[i]?
  else if c = backspace then
    if 0 < s.cursorX ∧ i = index s - 1 then some (cell s.color space) else s.vgaBuffer[i]?
  else if i = index s then some (cell s.color c) else s.vgaBuffer[i]?

structure Put (c : UInt8) (s s' : State) : Prop where
  onScreen : OnScreen s'
  color : s'.color = s.color
  cursor : index s' + vgaWidth * rowsScrolled c s = target c s
  cells : ∀ k, k < vgaHeight * vgaWidth → s'.vgaBuffer[k]? =
    if vgaHeight * vgaWidth ≤ k + vgaWidth * rowsScrolled c s then some (cell s.color space)
    else drawn c s (k + vgaWidth * rowsScrolled c s)

theorem OnScreen.index {s : State} (onScreen : OnScreen s) :
    index s < vgaHeight * vgaWidth := by
  obtain ⟨column,row⟩ := onScreen
  simp only [Console.index,vgaWidth,vgaHeight] at column row ⊢
  omega

theorem target_row (c : UInt8) (s : State) : s.cursorY * vgaWidth ≤ target c s := by
  simp only [target,index,vgaWidth]
  split_ifs <;> omega

/-! The loops. -/

theorem moveUp_cells {n r i : Nat} (buffer : Vector UInt16 n) (inside : i + vgaWidth + r ≤ n) :
    ∃ moved, moveUp r i buffer = some moved ∧ ∀ k,
      moved[k]? = if i ≤ k ∧ k < i + r then buffer[k + vgaWidth]? else buffer[k]? := by
  induction r generalizing buffer i with
  | zero => exact ⟨buffer,rfl,fun k => by rw [if_neg (by omega)]⟩
  | succ r ih =>
    have below : i + vgaWidth < n := by omega
    obtain ⟨one,stored,layout⟩ := store_cell buffer buffer[i + vgaWidth] (show i < n by omega)
    obtain ⟨moved,rest,cells⟩ := ih (i := i+1) one (by omega)
    refine ⟨moved,?_,fun k => ?_⟩
    · simp only [moveUp,Vector.getElem?_eq_getElem below,stored,Option.bind_eq_bind,
        Option.bind_some,rest]
    · rw [cells k,layout k,layout (k + vgaWidth)]
      by_cases here : k = i
      · subst here
        rw [if_neg (by omega),if_pos rfl,if_pos (by omega),Vector.getElem?_eq_getElem below]
      · -- the cell moved to k was still in place
        have apart : i + 1 ≤ k → k + vgaWidth ≠ i := by omega
        split_ifs <;> first | rfl | omega

theorem fillFrom_cells {n r i : Nat} (color : UInt8) (buffer : Vector UInt16 n)
    (inside : i + r ≤ n) :
    ∃ filled, fillFrom color r i buffer = some filled ∧ ∀ k,
      filled[k]? = if i ≤ k ∧ k < i + r then some (cell color space) else buffer[k]? := by
  induction r generalizing buffer i with
  | zero => exact ⟨buffer,rfl,fun k => by rw [if_neg (by omega)]⟩
  | succ r ih =>
    obtain ⟨one,stored,layout⟩ := store_cell buffer (cell color space) (show i < n by omega)
    obtain ⟨filled,rest,cells⟩ := ih (i := i+1) one (by omega)
    refine ⟨filled,?_,fun k => ?_⟩
    · simp only [fillFrom,stored,Option.bind_eq_bind,Option.bind_some,rest]
    · rw [cells k,layout k]
      split_ifs <;> first | rfl | omega

/-! The steps of vga_put_char. -/

theorem outb_fields (port : UInt16) (value : UInt8) (s : State) :
    (outb port value s).vgaBuffer = s.vgaBuffer ∧ (outb port value s).cursorX = s.cursorX ∧
      (outb port value s).cursorY = s.cursorY ∧ (outb port value s).color = s.color := by
  unfold outb
  split_ifs <;> exact ⟨rfl,rfl,rfl,rfl⟩

theorem updateCursor_fields (s : State) :
    (updateCursor s).vgaBuffer = s.vgaBuffer ∧ (updateCursor s).cursorX = s.cursorX ∧
      (updateCursor s).cursorY = s.cursorY ∧ (updateCursor s).color = s.color := by
  simp only [updateCursor,outb_fields,and_self]

/-- The display shows its cursor where the console has it. -/
theorem updateCursor_shown (s : State) :
    (updateCursor s).crtc 0x0F = (UInt16.ofNat (index s) &&& 0xFF).toUInt8 ∧
      (updateCursor s).crtc 0x0E = (UInt16.ofNat (index s) >>> 8 &&& 0xFF).toUInt8 := by
  simp [updateCursor,outb,index]

/-- A state that may still need to be scrolled by one row. -/
structure Pending (s : State) : Prop where
  column : s.cursorX < vgaWidth
  row : s.cursorY ≤ vgaHeight

theorem scrollIfNeeded_cells {s : State} (pending : Pending s) :
    ∃ s', scrollIfNeeded s = some s' ∧ OnScreen s' ∧ s'.color = s.color ∧
      ∃ d, d = (if vgaHeight * vgaWidth ≤ index s then 1 else 0) ∧
        index s' + vgaWidth * d = index s ∧ ∀ k, k < vgaHeight * vgaWidth → s'.vgaBuffer[k]? =
          if vgaHeight * vgaWidth ≤ k + vgaWidth * d then some (cell s.color space)
          else s.vgaBuffer[k + vgaWidth * d]? := by
  obtain ⟨column,row⟩ := pending
  by_cases fits : s.cursorY < vgaHeight
  · have high : ¬vgaHeight * vgaWidth ≤ index s := by
      simp only [index,vgaWidth,vgaHeight] at column fits ⊢
      omega
    refine ⟨s,if_pos fits,⟨column,fits⟩,rfl,0,by rw [if_neg high],rfl,fun k bound => ?_⟩
    rw [if_neg (by omega)]
    rfl
  · have last : s.cursorY = vgaHeight := Nat.le_antisymm row (Nat.not_lt.mp fits)
    have low : vgaHeight * vgaWidth ≤ index s := by
      rw [index,last]
      exact Nat.le_add_right _ _
    obtain ⟨moved,copied,first⟩ :=
      moveUp_cells (r := (vgaHeight - 1) * vgaWidth) (i := 0) s.vgaBuffer (by decide)
    obtain ⟨filled,blanked,second⟩ :=
      fillFrom_cells (r := vgaWidth) (i := (vgaHeight - 1) * vgaWidth) s.color moved (by decide)
    refine ⟨{ s with vgaBuffer := filled, cursorY := vgaHeight - 1 },?_,
      ⟨column,show vgaHeight - 1 < vgaHeight by decide⟩,rfl,1,by rw [if_pos low],?_,fun k bound => ?_⟩
    · simp only [scrollIfNeeded,fits,if_false,copied,blanked,Option.bind_eq_bind,Option.bind_some]
      rfl
    · simp only [index,last,vgaWidth,vgaHeight]
      omega
    · show filled[k]? = _
      have kept : (vgaHeight - 1) * vgaWidth = 1920 := rfl
      have all : vgaHeight * vgaWidth = 2000 := rfl
      have width : vgaWidth = 80 := rfl
      rw [second k,first k]
      by_cases exposed : 1920 ≤ k
      · rw [if_pos (by omega),if_pos (by omega)]
      · rw [if_neg (by omega),if_pos (by omega),if_neg (by omega),Nat.mul_one]

theorem place_drawn {s : State} (onScreen : OnScreen s) (c : UInt8) :
    ∃ p, place c s = some p ∧ p.color = s.color ∧ p.cursorX ≤ vgaWidth ∧
      (p.cursorY < vgaHeight ∨ p.cursorX = 0 ∧ p.cursorY = vgaHeight) ∧
      index p = target c s ∧ ∀ i, p.vgaBuffer[i]? = drawn c s i := by
  have inside := onScreen.index
  obtain ⟨column,row⟩ := onScreen
  by_cases line : c = newline
  · refine ⟨_,if_pos line,rfl,Nat.zero_le _,?_,?_,fun i => by simp only [drawn,line,if_true]⟩
    · exact (Nat.lt_or_eq_of_le row).imp id fun last => ⟨rfl,last⟩
    · simp only [target,line,if_true,index,Nat.add_zero]
  by_cases back : c = backspace
  · by_cases left : 0 < s.cursorX
    · have before : s.cursorY * vgaWidth + (s.cursorX - 1) = index s - 1 := by
        rw [index,Nat.add_sub_assoc left]
      obtain ⟨stored,placed,cells⟩ := store_cell s.vgaBuffer (cell s.color space)
        (show index s - 1 < vgaHeight * vgaWidth by omega)
      refine ⟨{ s with vgaBuffer := stored, cursorX := s.cursorX - 1 },?_,rfl,
        Nat.le_trans (Nat.sub_le _ _) (Nat.le_of_lt column),.inl row,?_,fun i => ?_⟩
      · rw [place,if_neg line,if_pos back,if_pos left]
        simp only [before,placed,Option.bind_eq_bind,Option.bind_some]
        rfl
      · rw [target,if_neg line,if_pos back,if_pos left,← before]
        rfl
      · rw [drawn,if_neg line,if_pos back,cells i]
        simp only [left,true_and]
    · refine ⟨s,?_,rfl,Nat.le_of_lt column,.inl row,?_,fun i => ?_⟩
      · rw [place,if_neg line,if_pos back,if_neg left]
      · rw [target,if_neg line,if_pos back,if_neg left]
      · rw [drawn,if_neg line,if_pos back,if_neg fun both => left both.1]
  · obtain ⟨stored,placed,cells⟩ := store_cell s.vgaBuffer (cell s.color c) inside
    refine ⟨{ s with vgaBuffer := stored, cursorX := s.cursorX + 1 },?_,rfl,column,.inl row,?_,
      fun i => ?_⟩
    · rw [place,if_neg line,if_neg back]
      rw [index] at placed
      rw [placed]
      rfl
    · rw [target,if_neg line,if_neg back]
      rfl
    · rw [drawn,if_neg line,if_neg back]
      exact cells i

theorem vgaPutChar_put {s : State} (onScreen : OnScreen s) (c : UInt8) :
    ∃ s', vgaPutChar c s = some s' ∧ Put c s s' := by
  obtain ⟨p,placed,color,column,row,cursor,cells⟩ := place_drawn onScreen c
  have wrapped : ∃ q, (if vgaWidth ≤ p.cursorX then
      { p with cursorX := 0, cursorY := p.cursorY + 1 } else p) = q ∧ Pending q ∧
      q.color = p.color ∧ index q = index p ∧ q.vgaBuffer = p.vgaBuffer := by
    by_cases full : vgaWidth ≤ p.cursorX
    · have last : p.cursorX = vgaWidth := Nat.le_antisymm column full
      have inside : p.cursorY < vgaHeight := by
        rcases row with inside | ⟨first,_⟩
        · exact inside
        · rw [first] at full
          exact absurd full (by decide)
      refine ⟨_,if_pos full,⟨show 0 < vgaWidth by decide,inside⟩,rfl,?_,rfl⟩
      simp only [index,last,Nat.add_mul,Nat.one_mul,Nat.add_zero]
    · refine ⟨p,if_neg full,⟨Nat.not_le.mp full,?_⟩,rfl,rfl,rfl⟩
      exact row.elim Nat.le_of_lt fun below => Nat.le_of_eq below.2
  obtain ⟨q,wrap,pending,same,there,buffer⟩ := wrapped
  obtain ⟨s',scrolled,on,kept,d,amount,moved,layout⟩ := scrollIfNeeded_cells pending
  obtain ⟨sameBuffer,sameX,sameY,sameColor⟩ := updateCursor_fields s'
  have rows : d = rowsScrolled c s := by rw [amount,there,cursor,rowsScrolled]
  subst rows
  refine ⟨updateCursor s',?_,⟨⟨?_,?_⟩,?_,?_,?_⟩⟩
  · simp only [vgaPutChar,placed,Option.bind_eq_bind,Option.bind_some,wrap,scrolled]
    rfl
  · rw [sameX]
    exact on.column
  · rw [sameY]
    exact on.row
  · rw [sameColor,kept,same,color]
  · rw [← cursor,← there,← moved]
    simp only [index,sameX,sameY]
  · intro k bound
    rw [sameBuffer,layout k bound,same,color,buffer,cells]

theorem vgaClear_blank (s : State) :
    ∃ s', vgaClear s = some s' ∧ OnScreen s' ∧ s'.color = s.color ∧ index s' = 0 ∧
      ∀ k, k < vgaHeight * vgaWidth → s'.vgaBuffer[k]? = some (cell s.color space) := by
  obtain ⟨filled,blanked,cells⟩ :=
    fillFrom_cells (r := vgaWidth * vgaHeight) (i := 0) s.color s.vgaBuffer (by decide)
  obtain ⟨sameBuffer,sameX,sameY,sameColor⟩ :=
    updateCursor_fields { s with vgaBuffer := filled, cursorX := 0, cursorY := 0 }
  refine ⟨_,by simp only [vgaClear,blanked,Option.bind_eq_bind,Option.bind_some]; rfl,
    ⟨?_,?_⟩,sameColor,?_,fun k bound => ?_⟩
  · rw [sameX]
    exact show 0 < vgaWidth by decide
  · rw [sameY]
    exact show 0 < vgaHeight by decide
  · rw [index,sameX,sameY]
    rfl
  · rw [sameBuffer]
    rw [Nat.mul_comm] at bound
    exact (cells k).trans (if_pos ⟨Nat.zero_le k,by rwa [Nat.zero_add]⟩)

end Xbtos.Console
