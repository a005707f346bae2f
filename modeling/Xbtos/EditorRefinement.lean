import Xbtos.Editor
import Xbtos.Semantics.LineEditor

/-! The editor refines a draft: its buffer begins with the line and a terminator, the rows of
its history with the lines entered, and every routine does to the draft what its key does. -/
namespace Xbtos.Editor
open Foundation.Buffer Strings Semantics.LineEditor
open Shell (Call bufferSize)
open Console (newline backspace)

/-- The longest line. -/
def lineSize : Nat := bufferSize - 1

/-- A character a line may hold. -/
def Plain (c : UInt8) : Prop := c ≠ 0 ∧ c ≠ newline ∧ c ≠ backspace ∧ c < 0x80

def Row (history : Vector (Vector UInt8 bufferSize) historySize) (i : Nat) (text : Bytes) : Prop :=
  ∃ entry, history[i]? = some entry ∧ text ++ [0] <+: entry.toList

structure Holds (e : State) (d : Draft UInt8) : Prop where
  kept : Kept lineSize historySize Plain d
  line : d.line ++ [0] <+: e.inputBuffer.toList
  index : e.bufferIndex = d.line.length
  count : e.historyCount = d.past.length
  rows : ∀ i, ∀ inside : i < d.past.length, Row e.history i d.past[i]
  recalled : e.historyIndex = match d.recalled with
    | none => -1
    | some i => (i : Int)

theorem Holds.recalled_cases {e : State} {d : Draft UInt8} (holds : Holds e d) :
    (d.recalled = none ∧ e.historyIndex = -1) ∨ ∃ i, ∃ inside : i < d.past.length,
      d.recalled = some i ∧ e.historyIndex = (i : Int) ∧ d.line = d.past[i] := by
  have index := holds.recalled
  cases chosen : d.recalled with
  | none =>
    rw [chosen] at index
    exact .inl ⟨rfl,index⟩
  | some i =>
    rw [chosen] at index
    obtain ⟨inside,same⟩ := holds.kept.recalled i chosen
    exact .inr ⟨i,inside,rfl,index,same⟩

theorem holds_loaded : Holds loaded .start :=
  ⟨kept_start,by decide,rfl,rfl,by simp [Draft.start],rfl⟩

theorem Plain.noNul {text : Bytes} (plain : ∀ c ∈ text, Plain c) : 0 ∉ text :=
  fun member => (plain 0 member).1 rfl

theorem backspaces_succ (n : Nat) :
    (List.replicate (n+1) backspace).map Call.printChar =
      .printChar backspace :: (List.replicate n backspace).map .printChar := by
  rw [List.replicate_succ,List.map_cons]

theorem lt_bufferSize {n : Nat} (short : n ≤ lineSize) : n < bufferSize := Nat.lt_succ_of_le short

theorem room_iff {index : Int} {n : Nat} (same : index = n) :
    index < bufferSize - 1 ↔ n < lineSize := by
  rw [same]
  simp only [lineSize,bufferSize]
  omega

theorem Holds.begins {e : State} {d : Draft UInt8} (holds : Holds e d) :
    d.line <+: e.inputBuffer.toList := (List.prefix_append _ _).trans holds.line

theorem put_first (inputBuffer : Vector UInt8 bufferSize) :
    ∃ cleared, put inputBuffer 0 0 = some cleared ∧ [0] <+: cleared.toList :=
  store_behind 0 (show [] <+: inputBuffer.toList from List.nil_prefix) (by decide)

/-! Clearing the line. -/

theorem clearFrom_nat {r n : Nat} (enough : n < r) :
    clearFrom r n = some (0,(List.replicate n backspace).map .printChar) := by
  induction r generalizing n with
  | zero => omega
  | succ r ih =>
    rw [clearFrom]
    cases n with
    | zero => rfl
    | succ n =>
      have before : ((n + 1 : Nat) : Int) - 1 = n := by omega
      rw [if_pos (by omega),before,ih (by omega),backspaces_succ]
      rfl

theorem clearInputBuffer_line {e : State} {n : Nat} (index : e.bufferIndex = n)
    (small : n ≤ lineSize) : ∃ inputBuffer,
      clearInputBuffer e = some ({ e with inputBuffer, bufferIndex := 0 },
        (List.replicate n backspace).map .printChar) ∧ [0] <+: inputBuffer.toList := by
  have cleared := clearFrom_nat (Nat.lt_succ_of_lt (lt_bufferSize small))
  obtain ⟨inputBuffer,ended,begins⟩ := put_first e.inputBuffer
  refine ⟨inputBuffer,?_,begins⟩
  simp only [clearInputBuffer,index,cleared,ended,Option.bind_eq_bind,Option.bind_some]
  rfl

/-! Recalling a line. -/

theorem copyEntry_text {entry : Vector UInt8 bufferSize} {front back : Bytes} {r : Nat} {e : State}
    (begins : front ++ back ++ [0] <+: entry.toList) (noNul : 0 ∉ back)
    (line : front <+: e.inputBuffer.toList) (index : e.bufferIndex = front.length)
    (fits : (front ++ back).length ≤ lineSize) (enough : back.length < r) : ∃ inputBuffer,
      copyEntry entry r front.length e = some ({ e with
        inputBuffer, bufferIndex := ((front ++ back).length : Nat) },back.map .printChar) ∧
      front ++ back <+: inputBuffer.toList := by
  induction back generalizing front r e with
  | nil =>
    obtain ⟨r,rfl⟩ : ∃ r', r = r' + 1 := ⟨r - 1,by rw [List.length_nil] at enough; omega⟩
    rw [List.append_nil] at begins ⊢
    have last := getElem?_behind begins
    refine ⟨e.inputBuffer,?_,line⟩
    simp only [copyEntry,last,Option.bind_eq_bind,Option.bind_some,ne_eq,not_true,false_and,if_false,
      ← index,List.map_nil]
    rfl
  | cons c back ih =>
    obtain ⟨r,rfl⟩ : ∃ r', r = r' + 1 := ⟨r - 1,by omega⟩
    rw [List.mem_cons,not_or] at noNul
    have split : front ++ c :: back = front ++ [c] ++ back := by simp
    rw [split] at begins fits ⊢
    have here : entry[front.length]? = some c := by
      rw [List.append_assoc] at begins
      exact getElem?_behind ((List.prefix_append _ _).trans begins)
    have room : front.length < lineSize := by
      simp only [List.length_append,List.length_singleton] at fits
      omega
    obtain ⟨stored,placed,grown⟩ :=
      store_behind c line (lt_bufferSize (Nat.le_of_lt room))
    obtain ⟨inputBuffer,copied,whole⟩ := ih (r := r)
      (e := { e with inputBuffer := stored, bufferIndex := (front ++ [c]).length }) begins noNul.2
      grown rfl fits (by rw [List.length_cons] at enough; omega)
    have below : c ≠ 0 ∧ e.bufferIndex < bufferSize - 1 :=
      ⟨Ne.symm noNul.1,(room_iff index).mpr room⟩
    have length : (front ++ [c]).length = front.length + 1 := List.length_append
    rw [length,Int.natCast_succ] at copied
    refine ⟨inputBuffer,?_,whole⟩
    rw [copyEntry,here,Option.bind_eq_bind,Option.bind_some,if_pos below,index,put_nat,placed,
      Option.bind_eq_bind,Option.bind_some]
    rw [copied]
    rfl

theorem showEntry_select {e : State} {d : Draft UInt8} (holds : Holds e d) {i n : Nat}
    (inside : i < d.past.length) (shown : e.bufferIndex = n) (small : n ≤ lineSize) : ∃ e',
      showEntry { e with historyIndex := i } = some (e',
        (List.replicate n backspace ++ (d.select i).line).map .printChar) ∧
      Holds e' (d.select i) ∧ e'.shiftPressed = e.shiftPressed ∧ e'.extendedKey = e.extendedKey := by
  have chosen : (d.select i).line = d.past[i] := by simp [Draft.select,inside]
  obtain ⟨_,short,plain⟩ := holds.kept.past _ (List.getElem_mem inside)
  obtain ⟨entry,there,begins⟩ := holds.rows i inside
  obtain ⟨cleared,erased,_⟩ :=
    clearInputBuffer_line (e := { e with historyIndex := i }) shown small
  obtain ⟨copied,shows,line⟩ := copyEntry_text
    (r := bufferSize + 1) (e := { e with
      historyIndex := i, inputBuffer := cleared, bufferIndex := 0 })
    (show [] ++ d.past[i] ++ [0] <+: entry.toList from begins) (Plain.noNul plain) List.nil_prefix
    rfl short (Nat.lt_succ_of_lt (lt_bufferSize short))
  rw [List.nil_append] at line
  rw [List.length_nil,List.nil_append] at shows
  obtain ⟨ended,closed,whole⟩ := store_behind 0 line (lt_bufferSize short)
  have valid : 0 ≤ (i : Int) ∧ (i : Int) < e.historyCount := by
    rw [holds.count]
    omega
  refine ⟨{ e with historyIndex := i, inputBuffer := ended, bufferIndex := d.past[i].length },?_,
    ⟨holds.kept.select inside,by rwa [chosen],by rw [chosen],holds.count,holds.rows,rfl⟩,rfl,rfl⟩
  rw [showEntry,if_pos valid,erased,chosen,List.map_append]
  simp only [fetch_nat,there,shows,put_nat,closed,Option.bind_eq_bind,Option.bind_some]
  rfl

/-- The characters a key puts on the screen, unless it enters the line. -/
def typedBy : Key UInt8 → Draft UInt8 → Bytes
  | .char c, d => if d.line.length < lineSize then [c] else []
  | .erase, d => if d.line = [] then [] else [backspace]
  | .older, d => if d.past = [] then [] else List.replicate d.line.length backspace ++ d.older.line
  | .newer, d =>
    if d.recalled = none then [] else List.replicate d.line.length backspace ++ d.newer.line
  | _, _ => []

/-- A step of the editor that leaves the shell alone: it puts text on the screen. -/
structure Stepped (e : State) (d' : Draft UInt8) (text : Bytes)
    (returned : Option (State × List Call)) : Prop where
  step : ∃ e', returned = some (e',text.map .printChar) ∧ Holds e' d' ∧
    e'.shiftPressed = e.shiftPressed ∧ e'.extendedKey = e.extendedKey

theorem Holds.unchanged {e : State} {d : Draft UInt8} (holds : Holds e d) :
    Stepped e d [] (some (e,[])) := ⟨e,rfl,holds,rfl,rfl⟩

theorem Holds.select {e : State} {d : Draft UInt8} (holds : Holds e d) {i : Nat} {index : Int}
    (inside : i < d.past.length) (same : index = i) :
    Stepped e (d.select i) (List.replicate d.line.length backspace ++ (d.select i).line)
      (showEntry { e with historyIndex := index }) := by
  subst same
  exact ⟨showEntry_select holds inside holds.index holds.kept.line⟩

theorem Holds.older {e : State} {d : Draft UInt8} (holds : Holds e d) :
    Stepped e d.older (typedBy .older d) (recallHistory (-1) e) := by
  have count := holds.count
  by_cases empty : d.past = []
  · have nothing := holds.kept.none_recalled empty
    have same : d.older = d := by rw [Draft.older,nothing,if_pos empty]
    have none_yet : e.historyCount = 0 := by rw [count,empty]; rfl
    rw [recallHistory,if_pos none_yet,typedBy,if_pos empty,same]
    exact holds.unchanged
  · have positive : 0 < d.past.length := List.length_pos_of_ne_nil empty
    rw [recallHistory,if_neg (by omega),if_pos (by decide),typedBy,if_neg empty]
    rcases holds.recalled_cases with ⟨chosen,nothing⟩ | ⟨i,inside,chosen,here,_⟩
    · have last : d.older = d.select (d.past.length - 1) := by
        simp only [Draft.older,chosen,empty,if_false]
      rw [if_pos nothing,last]
      exact holds.select (by omega) (by omega)
    · have before : d.older = d.select (i - 1) := by simp only [Draft.older,chosen]
      rw [if_neg (by omega),before]
      by_cases first : i = 0
      · rw [if_neg (by omega)]
        exact holds.select (by omega) (show e.historyIndex = (i - 1 : Nat) by omega)
      · rw [if_pos (by omega)]
        exact holds.select (by omega) (by omega)

theorem Holds.newer {e : State} {d : Draft UInt8} (holds : Holds e d) :
    Stepped e d.newer (typedBy .newer d) (recallHistory 1 e) := by
  have count := holds.count
  rcases holds.recalled_cases with ⟨chosen,nothing⟩ | ⟨i,inside,chosen,here,_⟩
  · have same : d.newer = d := by simp only [Draft.newer,chosen]
    have hidden : ¬(0 ≤ e.historyIndex ∧ e.historyIndex < e.historyCount) := by omega
    have shown : showEntry e = some (e,[]) := if_neg hidden
    have returned : recallHistory 1 e = some (e,[]) := by
      have down : ¬(1 : Int) < 0 := by decide
      simp only [recallHistory,down,nothing,shown,ne_eq,not_true,if_false,ite_self]
    rw [typedBy,if_pos chosen,same,returned]
    exact holds.unchanged
  · have there : e.historyIndex ≠ -1 := by omega
    rw [typedBy,if_neg (by rw [chosen]; simp),recallHistory,if_neg (by omega),if_neg (by decide),
      if_pos there]
    by_cases more : i + 1 < d.past.length
    · have next : d.newer = d.select (i + 1) := by simp only [Draft.newer,chosen,more,if_true]
      rw [if_neg (by omega),next]
      exact holds.select more (by omega)
    · have past : d.newer = { d with line := [], recalled := none } := by
        simp only [Draft.newer,chosen,more,if_false]
      obtain ⟨inputBuffer,erased,begins⟩ :=
        clearInputBuffer_line (e := { e with historyIndex := -1 }) holds.index holds.kept.line
      rw [if_pos (by omega),past,List.append_nil]
      exact ⟨_,erased,⟨past ▸ holds.kept.newer,begins,rfl,holds.count,holds.rows,rfl⟩,rfl,rfl⟩

/-! Typing. -/

/-- The same of a step of the kernel. -/
structure Edited (k : Kernel) (d' : Draft UInt8) (text : Bytes)
    (returned : Option (Kernel × List Call)) : Prop where
  step : ∃ e', returned = some ({ k with editor := e' },text.map .printChar) ∧ Holds e' d' ∧
    e'.shiftPressed = k.editor.shiftPressed ∧ e'.extendedKey = k.editor.extendedKey

theorem Holds.char {k : Kernel} {d : Draft UInt8} (holds : Holds k.editor d) {c : UInt8}
    (plain : Plain c) : Edited k (d.type lineSize c) (typedBy (.char c) d) (handleChar c k) := by
  have kept := holds.kept.type plain
  obtain ⟨nonzero,notLine,notBack,_⟩ := plain
  unfold handleChar
  rw [if_neg notLine,if_neg notBack]
  by_cases room : d.line.length < lineSize
  · have below : c ≠ 0 ∧ k.editor.bufferIndex < bufferSize - 1 :=
      ⟨nonzero,(room_iff holds.index).mpr room⟩
    have length : (d.line ++ [c]).length = d.line.length + 1 := List.length_append
    obtain ⟨first,placed,grown⟩ :=
      store_behind c holds.begins (lt_bufferSize (Nat.le_of_lt room))
    obtain ⟨second,closed,whole⟩ := store_behind 0 grown (lt_bufferSize (by rwa [length]))
    rw [length] at closed
    have longer : d.type lineSize c = { d with line := d.line ++ [c], recalled := none } := if_pos room
    rw [longer] at kept ⊢
    refine ⟨{ k.editor with
      inputBuffer := second, bufferIndex := k.editor.bufferIndex + 1, historyIndex := -1 },?_,
      ⟨kept,whole,?_,holds.count,holds.rows,rfl⟩,rfl,rfl⟩
    · have more : k.editor.bufferIndex + 1 = ((d.line.length + 1 : Nat) : Int) := by
        rw [holds.index,Int.natCast_succ]
      rw [if_pos below,typedBy,if_pos room,more,holds.index,put_nat,placed,Option.bind_eq_bind,
        Option.bind_some]
      simp only [put_nat,closed,Option.bind_some]
      rfl
    · rw [holds.index,List.length_append,List.length_singleton,Int.natCast_succ]
  · have full : ¬(c ≠ 0 ∧ k.editor.bufferIndex < bufferSize - 1) :=
      fun both => room ((room_iff holds.index).mp both.2)
    have same : d.type lineSize c = d := if_neg room
    rw [if_neg full,typedBy,if_neg room,same]
    exact ⟨k.editor,rfl,holds,rfl,rfl⟩

theorem Holds.erase {k : Kernel} {d : Draft UInt8} (holds : Holds k.editor d) :
    Edited k d.erase (typedBy .erase d) (handleChar backspace k) := by
  have kept := holds.kept.erase
  unfold handleChar
  rw [if_neg (by decide),if_pos rfl]
  by_cases empty : d.line = []
  · have none_left : ¬0 < k.editor.bufferIndex := by rw [holds.index,empty]; decide
    have same : d.erase = d := if_pos empty
    rw [if_neg none_left,typedBy,if_pos empty,same]
    exact ⟨k.editor,rfl,holds,rfl,rfl⟩
  · have positive : 0 < d.line.length := List.length_pos_of_ne_nil empty
    have shorter : d.erase = { d with line := d.line.dropLast, recalled := none } := if_neg empty
    have begins : d.line.dropLast <+: k.editor.inputBuffer.toList :=
      (List.dropLast_prefix _).trans holds.begins
    obtain ⟨stored,closed,whole⟩ := store_behind 0 begins (lt_bufferSize (by
      rw [List.length_dropLast]
      exact Nat.le_trans (Nat.sub_le _ _) holds.kept.line))
    have before : k.editor.bufferIndex - 1 = (d.line.dropLast.length : Int) := by
      rw [holds.index,List.length_dropLast]
      omega
    rw [shorter] at kept ⊢
    refine ⟨{ k.editor with
      inputBuffer := stored, bufferIndex := k.editor.bufferIndex - 1, historyIndex := -1 },?_,
      ⟨kept,whole,before,holds.count,holds.rows,rfl⟩,rfl,rfl⟩
    rw [if_pos (by rw [holds.index]; omega),typedBy,if_neg empty]
    simp only [before,put_nat,closed,Option.bind_eq_bind,Option.bind_some]
    rfl

/-! Entering a line. -/

/-- Row j of the history after the rows from i to i + r have each been given the next one. -/
theorem shiftHistory_rows {r i : Nat} {history : Vector (Vector UInt8 bufferSize) historySize}
    {texts : Nat → Bytes} (rows : ∀ j, j < historySize → Row history j (texts j))
    (noNul : ∀ j, 0 ∉ texts j) (inside : i + r < historySize) : ∃ shifted,
      shiftHistory r i history = some shifted ∧ ∀ j, j < historySize →
        Row shifted j (if i ≤ j ∧ j < i + r then texts (j+1) else texts j) := by
  induction r generalizing i history texts with
  | zero =>
    refine ⟨history,rfl,fun j bound => ?_⟩
    rw [if_neg (by omega)]
    exact rows j bound
  | succ r ih =>
    obtain ⟨entry,here,_⟩ := rows i (by omega)
    obtain ⟨next,there,begins⟩ := rows (i+1) (by omega)
    obtain ⟨copied,copy,whole⟩ := kstrcpy_buffer entry next (noNul (i+1)) begins
    obtain ⟨stored,placed,cells⟩ := store_cell history copied (show i < historySize by omega)
    have moved : ∀ j, j < historySize → Row stored j (if j = i then texts (i+1) else texts j) := by
      intro j bound
      simp only [Row,cells]
      split
      next => exact ⟨copied,rfl,whole⟩
      next => exact rows j bound
    have clean : ∀ j, 0 ∉ if j = i then texts (i+1) else texts j := by
      intro j
      split
      next => exact noNul (i+1)
      next => exact noNul j
    obtain ⟨shifted,rest,layout⟩ := ih moved clean (show i + 1 + r < historySize by omega)
    refine ⟨shifted,?_,fun j bound => ?_⟩
    · simp only [shiftHistory,here,there,copy,placed,rest,Option.bind_eq_bind,Option.bind_some]
    · have row := layout j bound
      by_cases first : j = i
      · subst first
        rw [if_neg (by omega),if_pos rfl] at row
        rwa [if_pos (by omega)]
      · have same : (if i ≤ j ∧ j < i + (r + 1) then texts (j+1) else texts j) =
            if i + 1 ≤ j ∧ j < i + 1 + r then (if j + 1 = i then texts (i+1) else texts (j+1))
            else if j = i then texts (i+1) else texts j := by
          split_ifs <;> first | rfl | omega
        rwa [same]

theorem Holds.noNul {e : State} {d : Draft UInt8} (holds : Holds e d) (i : Nat) :
    0 ∉ d.past.getD i [] := by
  by_cases inside : i < d.past.length
  · rw [List.getD_eq_getElem?_getD,List.getElem?_eq_getElem inside,Option.getD_some]
    exact Plain.noNul (holds.kept.past _ (List.getElem_mem inside)).2.2
  · rw [List.getD_eq_getElem?_getD,List.getElem?_eq_none (Nat.not_lt.mp inside),Option.getD_none]
    exact List.not_mem_nil

theorem Holds.filled {e : State} {d : Draft UInt8} (holds : Holds e d) (filled : d.line ≠ []) :
    e.bufferIndex ≠ 0 := by
  have positive : 0 < d.line.length := List.length_pos_of_ne_nil filled
  rw [holds.index]
  omega

theorem Holds.save_free {e : State} {d : Draft UInt8} (holds : Holds e d) (filled : d.line ≠ [])
    (free : d.past.length < historySize) : ∃ history,
      saveHistory e = some { e with
        history, historyCount := ((d.past ++ [d.line]).length : Nat), historyIndex := -1 } ∧
      ∀ i, ∀ inside : i < (d.past ++ [d.line]).length, Row history i (d.past ++ [d.line])[i] := by
  have there : e.history[d.past.length]? = some e.history[d.past.length] := by simp [free]
  obtain ⟨copied,copy,whole⟩ := kstrcpy_buffer e.history[d.past.length] e.inputBuffer
    (Plain.noNul holds.kept.text) holds.line
  obtain ⟨history,placed,cells⟩ := store_cell e.history copied free
  have room : e.historyCount < historySize := by
    rw [holds.count]
    omega
  refine ⟨history,?_,fun i inside => ?_⟩
  · have length : (d.past ++ [d.line]).length = d.past.length + 1 := List.length_append
    rw [saveHistory,if_neg (holds.filled filled),if_pos room,length,Int.natCast_succ]
    simp only [holds.count,fetch_nat,there,copy,put_nat,placed,Option.bind_eq_bind,Option.bind_some]
    rfl
  · rw [Row,cells]
    by_cases last : i = d.past.length
    · subst last
      rw [if_pos rfl,List.getElem_concat_length rfl]
      exact ⟨copied,rfl,whole⟩
    · have old : i < d.past.length := by
        rw [List.length_append,List.length_singleton] at inside
        omega
      rw [if_neg last,List.getElem_append_left old]
      exact holds.rows i old

theorem Holds.save_full {e : State} {d : Draft UInt8} (holds : Holds e d) (filled : d.line ≠ [])
    (full : d.past.length = historySize) : ∃ history,
      saveHistory e = some { e with history, historyIndex := -1 } ∧
      ∀ i, i < d.past.length → Row history i ((d.past ++ [d.line]).getD (i+1) []) := by
  have rows : ∀ j, j < historySize → Row e.history j (d.past.getD j []) := by
    intro j bound
    have inside : j < d.past.length := by omega
    rw [List.getD_eq_getElem?_getD,List.getElem?_eq_getElem inside]
    exact holds.rows j inside
  obtain ⟨shifted,moved,layout⟩ :=
    shiftHistory_rows (r := historySize - 1) (i := 0) rows holds.noNul (by decide)
  obtain ⟨entry,there,_⟩ := layout (historySize - 1) (by decide)
  obtain ⟨copied,copy,whole⟩ :=
    kstrcpy_buffer entry e.inputBuffer (Plain.noNul holds.kept.text) holds.line
  obtain ⟨history,placed,cells⟩ :=
    store_cell shifted copied (show historySize - 1 < historySize by decide)
  have none_free : ¬e.historyCount < historySize := by
    rw [holds.count]
    omega
  refine ⟨history,?_,fun i inside => ?_⟩
  · rw [saveHistory,if_neg (holds.filled filled),if_neg none_free]
    simp only [moved,there,copy,placed,Option.bind_eq_bind,Option.bind_some]
    rfl
  · rw [Row,cells]
    rw [full] at inside
    by_cases last : i = historySize - 1
    · have behind : (d.past ++ [d.line]).getD (i+1) [] = d.line := by
        rw [List.getD_eq_getElem?_getD,List.getElem?_append_right (by omega)]
        simp only [last,full]
        rfl
      rw [if_pos last,behind]
      exact ⟨copied,rfl,whole⟩
    · have row := layout i inside
      rw [if_pos (by simp only [historySize] at inside last ⊢; omega)] at row
      have early : i + 1 < d.past.length := by
        simp only [historySize] at full inside last
        omega
      rw [if_neg last,List.getD_eq_getElem?_getD,List.getElem?_append_left early,
        ← List.getD_eq_getElem?_getD]
      exact row

theorem Holds.saved {e : State} {d : Draft UInt8} (holds : Holds e d) (filled : d.line ≠ []) :
    ∃ history, saveHistory e = some { e with
      history, historyCount := ((d.enter historySize).past.length : Nat), historyIndex := -1 } ∧
      ∀ i, ∀ inside : i < (d.enter historySize).past.length,
        Row history i (d.enter historySize).past[i] := by
  have past : (d.enter historySize).past = (d.past ++ [d.line]).rtake historySize := by
    rw [Draft.enter,if_neg filled]
  have length : (d.past ++ [d.line]).length = d.past.length + 1 := List.length_append
  have bound := holds.kept.depth
  simp only [past]
  by_cases free : d.past.length < historySize
  · have all : (d.past ++ [d.line]).rtake historySize = d.past ++ [d.line] := by
      rw [List.rtake,length,Nat.sub_eq_zero_of_le free,List.drop_zero]
    simp only [all]
    exact holds.save_free filled free
  · have full : d.past.length = historySize := by omega
    obtain ⟨history,saved,rows⟩ := holds.save_full filled full
    have rest : (d.past ++ [d.line]).rtake historySize = (d.past ++ [d.line]).drop 1 := by
      rw [List.rtake,length,full,Nat.add_sub_cancel_left]
    have count : (((d.past ++ [d.line]).drop 1).length : Int) = e.historyCount := by
      rw [List.length_drop,length,Nat.add_sub_cancel,holds.count]
    simp only [rest]
    refine ⟨history,by rw [count]; exact saved,fun i inside => ?_⟩
    rw [List.length_drop,length,Nat.add_sub_cancel] at inside
    have row := rows i inside
    rw [List.getD_eq_getElem?_getD,List.getElem?_eq_getElem (by omega),Option.getD_some] at row
    rw [List.getElem_drop]
    simpa only [Nat.add_comm 1 i] using row

theorem Holds.close {e : State} {d : Draft UInt8} (holds : Holds e d) : ∃ inputBuffer,
    put e.inputBuffer e.bufferIndex 0 = some inputBuffer ∧ Holds { e with inputBuffer } d := by
  obtain ⟨inputBuffer,stored,whole⟩ := store_behind 0 holds.begins (lt_bufferSize holds.kept.line)
  refine ⟨inputBuffer,?_,⟨holds.kept,whole,holds.index,holds.count,holds.rows,holds.recalled⟩⟩
  rw [holds.index,put_nat]
  exact stored

theorem Holds.enter_empty {k : Kernel} {d : Draft UInt8} (holds : Holds k.editor d)
    (empty : d.line = []) : ∃ e', handleEnter k =
      some ({ k with editor := e' },Shell.print "\n" :: Shell.prompt k.shell) ∧ Holds e' d ∧
      e'.shiftPressed = k.editor.shiftPressed ∧ e'.extendedKey = k.editor.extendedKey := by
  obtain ⟨closed,ended,held⟩ := holds.close
  obtain ⟨cleared,first,begins⟩ := put_first closed
  have zero : k.editor.bufferIndex = 0 := by rw [holds.index,empty]; rfl
  have saved : saveHistory { k.editor with inputBuffer := closed } =
      some { k.editor with inputBuffer := closed } := if_pos zero
  refine ⟨{ k.editor with inputBuffer := cleared, bufferIndex := 0 },?_,
    ⟨holds.kept,by rwa [empty],by rw [empty]; rfl,holds.count,holds.rows,holds.recalled⟩,rfl,rfl⟩
  have none_left : ¬0 < k.editor.bufferIndex := by omega
  simp only [handleEnter,ended,saved,none_left,if_false,first,Option.bind_eq_bind,Option.bind_some]
  rfl

theorem Holds.enter_filled {k : Kernel} {d : Draft UInt8} (holds : Holds k.editor d)
    (filled : d.line ≠ []) : ∃ cmd : CString, cmd.bytes = d.line ∧ ∀ shell calls,
      Shell.executeCommand cmd.pointer k.shell = some (shell,calls) → ∃ e', handleEnter k =
        some (⟨shell,e'⟩,Shell.print "\n" :: .executeCommand cmd.pointer :: calls) ∧
        Holds e' (d.enter historySize) ∧
        e'.shiftPressed = k.editor.shiftPressed ∧ e'.extendedKey = k.editor.extendedKey := by
  obtain ⟨closed,ended,held⟩ := holds.close
  obtain ⟨cleared,first,begins⟩ := put_first closed
  obtain ⟨history,saved,rows⟩ := held.saved filled
  obtain ⟨rest,split⟩ := held.line
  have positive : 0 < k.editor.bufferIndex := by
    have some_line : 0 < d.line.length := List.length_pos_of_ne_nil filled
    rw [holds.index]
    omega
  have kept := holds.kept.enter
  have after : d.enter historySize = ⟨[],(d.enter historySize).past,none⟩ := by
    rw [Draft.enter,if_neg filled]
  refine ⟨⟨d.line,rest,Plain.noNul holds.kept.text,
    Nat.lt_trans (lt_bufferSize holds.kept.line) (by decide)⟩,rfl,fun shell calls executed => ?_⟩
  have pointer : closed.toList = d.line ++ 0 :: rest := by
    rw [← split,List.append_assoc,List.singleton_append]
  rw [CString.pointer,← pointer] at executed ⊢
  rw [after] at kept ⊢
  refine ⟨{ k.editor with
    inputBuffer := cleared, bufferIndex := 0, history,
    historyCount := ((d.enter historySize).past.length : Nat), historyIndex := -1 },?_,
    ⟨kept,begins,rfl,rfl,rows,rfl⟩,rfl,rfl⟩
  simp only [handleEnter,ended,saved,positive,if_true,executed,first,Option.bind_eq_bind,
    Option.bind_some]
  rfl

end Xbtos.Editor
