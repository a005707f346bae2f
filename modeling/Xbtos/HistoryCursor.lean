import Xbtos.TypedLines
import Xbtos.LineScreen

/-! The arrow keys. They move a cursor over the stored lines that stops at the oldest and goes
behind the newest to an empty line; Enter runs the line under it. -/
namespace Xbtos.Machine
open Foundation.Buffer Strings Semantics.LineEditor
open Editor (Holds Plain decode keyOf charOf lineSize historySize)

/-- A state between two interrupts. -/
def Reached (m : Machine) : Prop :=
  ∃ cpuid files apps console m₀ scancodes calls,
    boot cpuid files apps console = some m₀ ∧ pressAll scancodes m₀ = some (m,calls)

inductive Stroke
  | up
  | down
  | upReleased
  | downReleased

def Stroke.code : Stroke → UInt8
  | up => 0x48
  | down => 0x50
  | upReleased => 0xC8
  | downReleased => 0xD0

def Stroke.scancodes (stroke : Stroke) : List UInt8 := [0xE0,stroke.code]

/-- The reference cursor: its place in the stored lines, if it is on one, and the input line. -/
structure Cursor where
  place : Option Nat
  line : Bytes

def Cursor.on (h : List Bytes) (i : Nat) : Cursor := ⟨some i,h.getD i []⟩

def Cursor.up (h : List Bytes) (c : Cursor) : Cursor :=
  match c.place with
  | none => .on h (h.length - 1)
  | some i => .on h (i - 1)

def Cursor.down (h : List Bytes) (c : Cursor) : Cursor :=
  match c.place with
  | none => c
  | some i => if i + 1 < h.length then .on h (i + 1) else ⟨none,[]⟩

def Stroke.move (h : List Bytes) (c : Cursor) : Stroke → Cursor
  | up => c.up h
  | down => c.down h
  | _ => c

/-- The input line and its history, as the reference has them. -/
structure AtCursor (e : Editor.State) (h : List Bytes) (c : Cursor) : Prop where
  line : upTo 0 e.inputBuffer.toList = c.line
  length : e.bufferIndex = c.line.length
  index : e.historyIndex = match c.place with
    | none => -1
    | some i => (i : Int)
  history : historyLines e = h
  entry : ∀ i, c.place = some i → h[i]? = some c.line

/-- Enter runs the line at place i and stores it as the newest. -/
def RunsLine (m : Machine) (h : List Bytes) (i : Nat) : Prop :=
  ∃ line, h[i]? = some line ∧ ∃ m' calls, press 0x1C m = some (m',calls) ∧
    calls.filterMap executed = [line] ∧ historyLines m'.kernel.editor = (h ++ [line]).rtake 10

/-- Arrow keys move the cursor over h, and run nothing until Enter is pressed. -/
def Follows (m : Machine) (h : List Bytes) (strokes : List Stroke) : Prop :=
  ∃ m' calls, pressAll (strokes.flatMap Stroke.scancodes) m = some (m',calls) ∧
    calls.filterMap executed = [] ∧
    let c := strokes.foldl (Stroke.move h) ⟨none,upTo 0 m.kernel.editor.inputBuffer.toList⟩
    AtCursor m'.kernel.editor h c ∧ ∀ i, c.place = some i → RunsLine m' h i

theorem Reached.sound {m : Machine} (reached : Reached m) : ∃ d, Sound m d := by
  obtain ⟨cpuid,files,apps,console,m₀,scancodes,calls,booted,ran⟩ := reached
  obtain ⟨first,same,sound,_⟩ := boot_sound cpuid files apps console
  cases same.symm.trans booted
  obtain ⟨m',calls',run,after,_⟩ := sound.pressAll scancodes
  cases run.symm.trans ran
  exact ⟨_,after⟩

/-! A stroke is a key of the draft. -/

def Stroke.key : Stroke → Key UInt8
  | up => .older
  | down => .newer
  | _ => .nothing

def cursorOf (d : Draft UInt8) : Cursor := ⟨d.recalled,d.line⟩

theorem Stroke.decoded (stroke : Stroke) (shift : Bool) :
    decode stroke.code shift true = (stroke.key,shift,false) := by
  cases stroke <;> rfl

theorem older_moved {d : Draft UInt8} (stored : d.past ≠ []) :
    d.older.past = d.past ∧ cursorOf d.older = (cursorOf d).up d.past := by
  unfold Draft.older
  cases chosen : d.recalled with
  | none => simp [stored,Draft.select,cursorOf,Cursor.up,Cursor.on,chosen]
  | some i => simp [Draft.select,cursorOf,Cursor.up,Cursor.on,chosen]

theorem newer_moved (d : Draft UInt8) :
    d.newer.past = d.past ∧ cursorOf d.newer = (cursorOf d).down d.past := by
  unfold Draft.newer
  cases chosen : d.recalled with
  | none => simp [cursorOf,Cursor.down,chosen]
  | some i =>
    by_cases more : i + 1 < d.past.length <;>
      simp [Draft.select,cursorOf,Cursor.down,Cursor.on,chosen,more]

/-- The draft moves as the reference does. -/
theorem Stroke.moved (stroke : Stroke) {d : Draft UInt8} (stored : d.past ≠ []) :
    (d.press lineSize historySize stroke.key).past = d.past ∧
      cursorOf (d.press lineSize historySize stroke.key) = Stroke.move d.past (cursorOf d) stroke := by
  cases stroke with
  | up => exact older_moved stored
  | down => exact newer_moved d
  | upReleased | downReleased => exact ⟨rfl,rfl⟩

theorem Stroke.entered (stroke : Stroke) (d : Draft UInt8) : d.entered stroke.key = none := by
  cases stroke <;> rfl

/-! The machine. -/

theorem Sound.stroke {m : Machine} {d : Draft UInt8} (sound : Sound m d) (stroke : Stroke) :
    ∃ one first m' second, Machine.press 0xE0 m = some (one,first) ∧
      Machine.press stroke.code one = some (m',second) ∧ (first ++ second).filterMap executed = [] ∧
      Sound m' (d.press lineSize historySize stroke.key) ∧ m'.kernel.editor.extendedKey = false := by
  obtain ⟨one,first,pressed,behind⟩ := sound.press 0xE0 rfl
  have extended : one.kernel.editor.extendedKey = true := behind.extended
  have decoded : decode stroke.code one.kernel.editor.shiftPressed one.kernel.editor.extendedKey =
      (stroke.key,one.kernel.editor.shiftPressed,false) := by
    rw [extended]
    exact stroke.decoded _
  obtain ⟨m',second,again,after⟩ := behind.sound.press stroke.code decoded
  refine ⟨one,_,m',_,pressed,again,?_,after.sound,after.extended⟩
  rw [List.filterMap_append,executed_interrupt,executed_interrupt,behind.executed,after.executed,
    stroke.entered]
  rfl

theorem Sound.strokes {m : Machine} {d : Draft UInt8} (sound : Sound m d) (stored : d.past ≠ [])
    (strokes : List Stroke) : ∃ m' calls d',
      Machine.pressAll (strokes.flatMap Stroke.scancodes) m = some (m',calls) ∧
      calls.filterMap executed = [] ∧ Sound m' d' ∧ d'.past = d.past ∧
      cursorOf d' = strokes.foldl (Stroke.move d.past) (cursorOf d) ∧
      (strokes ≠ [] → m'.kernel.editor.extendedKey = false) := by
  induction strokes generalizing m d with
  | nil => exact ⟨m,[],d,rfl,rfl,sound,rfl,rfl,fun some => absurd rfl some⟩
  | cons stroke strokes ih =>
    obtain ⟨one,first,two,second,pressed,again,nothing,after,single⟩ := sound.stroke stroke
    obtain ⟨past,moved⟩ := stroke.moved stored
    obtain ⟨m',calls,d',ran,quiet,last,kept,cursor,later⟩ := ih after (past ▸ stored)
    rw [past] at kept
    rw [past,moved] at cursor
    refine ⟨m',first ++ (second ++ calls),d',pressAll_cons pressed (pressAll_cons again ran),?_,
      last,kept,cursor,fun _ => ?_⟩
    · rw [← List.append_assoc,List.filterMap_append,nothing,quiet]
      rfl
    · by_cases done : strokes = []
      · subst done
        cases ran
        exact single
      · exact later done

theorem Sound.atCursor {m : Machine} {d : Draft UInt8} (sound : Sound m d) :
    AtCursor m.kernel.editor d.past (cursorOf d) := by
  have noNul := Editor.Plain.noNul sound.editor.kept.text
  refine ⟨(upTo_begins noNul sound.editor.line).2,sound.editor.index,sound.editor.recalled,
    historyLines_past sound.editor,fun i chosen => ?_⟩
  obtain ⟨inside,same⟩ := sound.editor.kept.recalled i chosen
  rw [cursorOf,same]
  exact List.getElem?_eq_getElem inside

theorem Sound.runsLine {m : Machine} {d : Draft UInt8} (sound : Sound m d) {i : Nat}
    (chosen : d.recalled = some i) (single : m.kernel.editor.extendedKey = false) :
    RunsLine m d.past i := by
  have decoded : decode 0x1C m.kernel.editor.shiftPressed m.kernel.editor.extendedKey =
      (.enter,m.kernel.editor.shiftPressed,false) := by
    rw [single]
    cases m.kernel.editor.shiftPressed <;> rfl
  obtain ⟨m',calls,pressed,after⟩ := sound.press 0x1C decoded
  obtain ⟨inside,same⟩ := sound.editor.kept.recalled i chosen
  have filled : d.line ≠ [] := same ▸ (sound.editor.kept.past _ (List.getElem_mem inside)).1
  refine ⟨d.line,?_,m',_,pressed,?_,?_⟩
  · rw [same]
    exact List.getElem?_eq_getElem inside
  · have passed : d.entered .enter = some d.line := if_neg filled
    rw [executed_interrupt,after.executed,passed]
    rfl
  · have entered : d.press lineSize historySize .enter =
        ⟨[],(d.past ++ [d.line]).rtake historySize,none⟩ := if_neg filled
    rw [historyLines_past after.sound.editor,entered]
    rfl

/-- From a state with stored lines and none of them recalled, the arrow keys move the line as the
reference cursor, and Enter runs and stores the line it is on. -/
theorem history_cursor {m : Machine} (reached : Reached m)
    (stored : historyLines m.kernel.editor ≠ []) (fresh : m.kernel.editor.historyIndex = -1)
    (strokes : List Stroke) : Follows m (historyLines m.kernel.editor) strokes := by
  obtain ⟨d,sound⟩ := reached.sound
  have past := historyLines_past sound.editor
  have noNul := Editor.Plain.noNul sound.editor.kept.text
  have line := (upTo_begins noNul sound.editor.line).2
  have none_recalled : d.recalled = none := by
    rcases sound.editor.recalled_cases with ⟨nothing,_⟩ | ⟨i,_,_,here,_⟩
    · exact nothing
    · omega
  rw [past] at stored ⊢
  obtain ⟨m',calls,d',ran,quiet,after,kept,cursor,single⟩ := sound.strokes stored strokes
  have start : cursorOf d = ⟨none,upTo 0 m.kernel.editor.inputBuffer.toList⟩ := by
    rw [cursorOf,none_recalled,line]
  rw [start] at cursor
  refine ⟨m',calls,ran,quiet,?_⟩
  rw [← cursor,← kept]
  refine ⟨after.atCursor,fun i chosen => after.runsLine chosen (single ?_)⟩
  rintro rfl
  rw [cursor] at chosen
  exact absurd chosen (by simp)

/-- Past the older of two lines, to the newer one and back. -/
def backAndForth : List Stroke := [.up,.upReleased,.up,.up,.down,.downReleased,.up]

/-- The letters a and b are run, and a third letter is typed; Enter then runs the a again. -/
theorem history_cursor_sample : ∃ m m' calls, historyLines m.kernel.editor = [[97],[98]] ∧
    upTo 0 m.kernel.editor.inputBuffer.toList = [99] ∧
    pressAll (backAndForth.flatMap Stroke.scancodes) m = some (m',calls) ∧
    AtCursor m'.kernel.editor [[97],[98]] ⟨some 0,[97]⟩ ∧ RunsLine m' [[97],[98]] 0 := by
  obtain ⟨m₀,booted,sound,fresh⟩ := boot_sound ⟨0,0,0⟩ Vfs.blankSystem Shell.blankApps blankConsole
  obtain ⟨m,calls,ran,after,_⟩ := sound.pressAll [0x1E,0x1C,0x30,0x1C,0x2E]
  rw [fresh] at after
  have stored : historyLines m.kernel.editor = [[97],[98]] := (historyLines_past after.editor).trans rfl
  have none_recalled : m.kernel.editor.historyIndex = -1 := after.editor.recalled.trans rfl
  have typed : upTo 0 m.kernel.editor.inputBuffer.toList = [99] :=
    (upTo_begins (Editor.Plain.noNul after.editor.kept.text) after.editor.line).2.trans rfl
  obtain ⟨m',strokes,moved,_,here,runs⟩ := history_cursor ⟨_,_,_,_,m₀,_,calls,booted,ran⟩
    (by rw [stored]; simp) none_recalled backAndForth
  rw [stored,typed] at here
  rw [stored,typed] at runs
  exact ⟨m,m',strokes,stored,typed,moved,here,runs 0 rfl⟩

end Xbtos.Machine
