import Xbtos.MachineRun
import Xbtos.ConsoleLine

/-! The line on the screen while it is edited. A backspace at the left edge of the screen
changes the line and not the screen, so what is shown is the line as long as no interrupt takes
back more characters than there are left of the cursor. -/
namespace Xbtos.Machine
open Foundation.Buffer Strings Semantics.LineEditor
open Shell (Call EntryPoint Cpuid)
open Editor (Holds Plain decode decode_decoded keyOf charOf typedBy lineSize historySize)
open Console (newline backspace vgaWidth cell space index scrolledBy Spells Visible columnAfter)

/-- The machine, with the rows that were scrolled and the longest line that was reached since
the prompt. -/
structure Sight where
  machine : Machine
  scrolled : Nat
  extent : Nat

/-- What is seen when the prompt has been printed. -/
def Sight.prompted (m : Machine) : Sight := ⟨m,0,0⟩

/-- What an edit puts on the screen; only Enter prints in another way. -/
def printed : Call → Option UInt8
  | .printChar c => some c
  | _ => none

def Sight.press (v : Sight) (scancode : UInt8) : Option Sight := do
  let (machine,calls) ← Machine.press scancode v.machine
  return ⟨machine,v.scrolled + scrolledBy (calls.filterMap printed) v.machine.console,
    max v.extent machine.kernel.editor.bufferIndex.toNat⟩

def Sight.pressAll (v : Sight) (scancodes : List UInt8) : Option Sight :=
  scancodes.foldlM Sight.press v

/-- The key is Enter. -/
def Enters (scancode : UInt8) (e : Editor.State) : Prop :=
  scancode = 0x1C ∧ e.extendedKey = false

def Edits (scancode : UInt8) (m : Machine) : Prop := ¬Enters scancode m.kernel.editor

/-- How many characters of the line the interrupt takes back. -/
def takenBack (scancode : UInt8) (e : Editor.State) : Int :=
  if scancode = 0xE0 then 0
  else if e.extendedKey then
    if scancode = 0x48 ∧ e.historyCount ≠ 0 ∨ scancode = 0x50 ∧ e.historyIndex ≠ -1 then
      e.bufferIndex
    else 0
  else if scancode = 0x0E ∧ 0 < e.bufferIndex then 1
  else 0

/-- What the interrupt takes back is on the row of the cursor. -/
def Erasable (scancode : UInt8) (m : Machine) : Prop :=
  takenBack scancode m.kernel.editor ≤ m.console.cursorX

/-- Every interrupt of a run comes where it may. -/
def Along (may : UInt8 → Machine → Prop) : List UInt8 → Machine → Prop
  | [], _ => True
  | scancode :: scancodes, m => may scancode m ∧
    ∀ m' calls, press scancode m = some (m',calls) → Along may scancodes m'

/-- A prompt has just been printed, by kernel_main or by the last interrupt. -/
inductive Prompted : Machine → Prop
  | boot {cpuid files apps console m} (booted : boot cpuid files apps console = some m) :
    Prompted m
  | press {cpuid files apps console m₀ scancodes calls m scancode before shell m'}
    (booted : Machine.boot cpuid files apps console = some m₀)
    (ran : pressAll scancodes m₀ = some (m,calls))
    (pressed : Machine.press scancode m =
      some (m',before ++ Shell.prompt shell ++ [.endOfInterrupt 1])) : Prompted m'

/-- The screen shows the line from where the prompt ended. -/
structure ShowsLine (start : Console.State) (v : Sight) : Prop where
  above : vgaWidth * v.scrolled ≤ index start
  cursor : (index v.machine.console + vgaWidth * v.scrolled : Int) =
    index start + v.machine.kernel.editor.bufferIndex
  length : ((upTo 0 v.machine.kernel.editor.inputBuffer.toList).length : Int) =
    v.machine.kernel.editor.bufferIndex
  text : ∀ i, ∀ inside : i < (upTo 0 v.machine.kernel.editor.inputBuffer.toList).length,
    v.machine.console.vgaBuffer[index start + i - vgaWidth * v.scrolled]? =
      some (cell v.machine.console.color (upTo 0 v.machine.kernel.editor.inputBuffer.toList)[i])
  blank : ∀ i : Nat, v.machine.kernel.editor.bufferIndex ≤ i → i < v.extent →
    v.machine.console.vgaBuffer[index start + i - vgaWidth * v.scrolled]? =
      some (cell v.machine.console.color space)

/-! One interrupt. -/

theorem decode_enter {scancode : UInt8} {e : Editor.State}
    (notEnter : ¬Enters scancode e) :
    (decode scancode e.shiftPressed e.extendedKey).1 ≠ .enter := by
  unfold decode
  split_ifs with _ extended <;> try simp
  unfold keyOf
  split_ifs with line <;> try simp
  exact notEnter ⟨(Editor.charOf_code _ _).1.mp line,by simpa using extended⟩

/-- A key takes characters back from the line and puts others in their place. -/
structure Edit (key : Key UInt8) (d : Draft UInt8) (n : Nat) (text : Bytes) : Prop where
  filled : n ≤ d.line.length
  typed : typedBy key d = List.replicate n backspace ++ text
  line : (d.press lineSize historySize key).line = d.line.take (d.line.length - n) ++ text

theorem edit_idle {key : Key UInt8} {d : Draft UInt8} (typed : typedBy key d = [])
    (line : (d.press lineSize historySize key).line = d.line) : Edit key d 0 [] :=
  ⟨Nat.zero_le _,typed,by rw [line,Nat.sub_zero,List.take_length,List.append_nil]⟩

theorem edit_replaced {key : Key UInt8} {d : Draft UInt8} {text : Bytes}
    (typed : typedBy key d = List.replicate d.line.length backspace ++ text)
    (line : (d.press lineSize historySize key).line = text) : Edit key d d.line.length text :=
  ⟨Nat.le_refl _,typed,by rw [line,Nat.sub_self,List.take_zero,List.nil_append]⟩

theorem edit_char (c : UInt8) (d : Draft UInt8) : ∃ text, Edit (.char c) d 0 text := by
  by_cases room : d.line.length < lineSize
  · refine ⟨[c],Nat.zero_le _,if_pos room,?_⟩
    rw [Nat.sub_zero,List.take_length,Draft.press,Draft.type,if_pos room]
  · exact ⟨[],edit_idle (if_neg room) (congrArg Draft.line (if_neg room))⟩

theorem edit_erase (d : Draft UInt8) : Edit .erase d (if d.line = [] then 0 else 1) [] := by
  by_cases empty : d.line = []
  · rw [if_pos empty]
    exact edit_idle (if_pos empty) (congrArg Draft.line (if_pos empty))
  · have positive : 0 < d.line.length := List.length_pos_of_ne_nil empty
    rw [if_neg empty]
    refine ⟨positive,if_neg empty,?_⟩
    rw [Draft.press,Draft.erase,if_neg empty,List.append_nil,List.dropLast_eq_take]

theorem edit_older {d : Draft UInt8} (kept : Kept lineSize historySize Plain d) :
    Edit .older d (if d.past = [] then 0 else d.line.length)
      (if d.past = [] then [] else d.older.line) := by
  by_cases empty : d.past = []
  · have nothing := kept.none_recalled empty
    rw [if_pos empty,if_pos empty]
    refine edit_idle (if_pos empty) ?_
    simp only [Draft.press,Draft.older,nothing,empty,if_true]
  · rw [if_neg empty,if_neg empty]
    exact edit_replaced (if_neg empty) rfl

theorem edit_newer (d : Draft UInt8) :
    Edit .newer d (if d.recalled = none then 0 else d.line.length)
      (if d.recalled = none then [] else d.newer.line) := by
  by_cases nothing : d.recalled = none
  · rw [if_pos nothing,if_pos nothing]
    refine edit_idle (if_pos nothing) ?_
    simp only [Draft.press,Draft.newer,nothing]
  · rw [if_neg nothing,if_neg nothing]
    exact edit_replaced (if_neg nothing) rfl

/-- What is taken back is what the state before says. -/
def Taken (scancode : UInt8) (e : Editor.State) (d : Draft UInt8) (key : Key UInt8) : Prop :=
  ∃ (n : Nat) (text : Bytes), takenBack scancode e = n ∧ Edit key d n text

theorem taken_idle {scancode : UInt8} {e : Editor.State} {d : Draft UInt8}
    (taken : takenBack scancode e = 0) : Taken scancode e d .nothing :=
  ⟨0,[],taken,edit_idle rfl rfl⟩

theorem taken_behind {scancode : UInt8} {e : Editor.State} {d : Draft UInt8} (holds : Holds e d)
    (notPrefix : scancode ≠ 0xE0) (behind : e.extendedKey = true) : Taken scancode e d
      (if scancode = 0x48 then .older else if scancode = 0x50 then .newer else .nothing) := by
  have index := holds.index
  unfold Taken takenBack
  rw [if_neg notPrefix,if_pos behind]
  by_cases up : scancode = 0x48
  · have other : ¬(0x48 : UInt8) = 0x50 := by decide
    have count : e.historyCount ≠ 0 ↔ ¬d.past = [] := by
      rw [holds.count,← List.length_eq_zero_iff]
      omega
    subst up
    refine ⟨_,_,?_,edit_older holds.kept⟩
    simp only [other,true_and,false_and,or_false,count,index]
    split_ifs <;> rfl
  · by_cases down : scancode = 0x50
    · have recalled : e.historyIndex ≠ -1 ↔ ¬d.recalled = none := by
        rw [holds.recalled]
        cases d.recalled <;> simp
      subst down
      refine ⟨_,_,?_,edit_newer d⟩
      simp only [up,true_and,false_and,false_or,recalled,index]
      split_ifs <;> rfl
    · rw [if_neg up,if_neg down,if_neg (by simp [up,down])]
      exact ⟨0,[],rfl,edit_idle rfl rfl⟩

theorem taken_single {scancode : UInt8} {e : Editor.State} (notPrefix : scancode ≠ 0xE0)
    (single : e.extendedKey = false) :
    takenBack scancode e = if scancode = 0x0E ∧ 0 < e.bufferIndex then 1 else 0 := by
  rw [takenBack,if_neg notPrefix,single,if_neg Bool.false_ne_true]

theorem taken_char {scancode : UInt8} {e : Editor.State} {d : Draft UInt8} (holds : Holds e d)
    (notPrefix : scancode ≠ 0xE0) (single : e.extendedKey = false) (notEnter : ¬Enters scancode e) :
    Taken scancode e d (keyOf (charOf e.shiftPressed scancode)) := by
  unfold Taken
  rw [taken_single notPrefix single]
  obtain ⟨line,back⟩ := Editor.charOf_code e.shiftPressed scancode
  rcases Editor.charOf_cases e.shiftPressed scancode with enter | erase | zero | plain
  · exact absurd ⟨line.mp enter,single⟩ notEnter
  · have key : keyOf backspace = .erase := rfl
    have positive : 0 < e.bufferIndex ↔ ¬d.line = [] := by
      rw [holds.index,← List.length_eq_zero_iff]
      omega
    rw [erase,key]
    refine ⟨_,_,?_,edit_erase d⟩
    simp only [back.mp erase,true_and,positive]
    split_ifs <;> rfl
  · have key : keyOf 0 = .nothing := rfl
    rw [zero] at back
    rw [zero,key,if_neg fun both => absurd (back.mpr both.1) (by decide)]
    exact ⟨0,[],rfl,edit_idle rfl rfl⟩
  · obtain ⟨text,edit⟩ := edit_char (charOf e.shiftPressed scancode) d
    rw [plain.keyOf,if_neg fun both => plain.2.2.1 (back.mpr both.1)]
    exact ⟨0,text,rfl,edit⟩

theorem edit_taken {scancode : UInt8} {e : Editor.State} {d : Draft UInt8} (holds : Holds e d)
    (notEnter : ¬Enters scancode e) {key : Key UInt8} {shift extended : Bool}
    (decoded : decode scancode e.shiftPressed e.extendedKey = (key,shift,extended)) :
    Taken scancode e d key := by
  have cases_of := decode_decoded decoded
  generalize before : e.extendedKey = extendedKey at cases_of
  cases cases_of with
  | first code => exact taken_idle (if_pos code)
  | behind other => exact taken_behind holds other before
  | press other code =>
    refine taken_idle ((taken_single other before).trans (if_neg ?_))
    rcases code with rfl | rfl <;> simp
  | release other notPress code =>
    refine taken_idle ((taken_single other before).trans (if_neg ?_))
    rcases code with rfl | rfl <;> simp
  | char other notPress notRelease => exact taken_char holds other before notEnter

/-! A run. -/

/-- The machine holds the draft, and its screen shows the line of it. -/
structure Shown (start : Console.State) (v : Sight) (d : Draft UInt8) : Prop where
  sound : Sound v.machine d
  spells : Spells start v.scrolled d.line v.extent v.machine.console

theorem printed_chars (text : Bytes) :
    (text.map Call.printChar ++ [Call.endOfInterrupt 1]).filterMap printed = text := by
  rw [List.filterMap_append,List.filterMap_map]
  have each : printed ∘ Call.printChar = some := rfl
  rw [each,List.filterMap_some]
  exact List.append_nil text

theorem Shown.line {start : Console.State} {v : Sight} {d : Draft UInt8} (shown : Shown start v d) :
    ShowsLine start v := by
  obtain ⟨sound,spells⟩ := shown
  have index := sound.editor.index
  obtain ⟨_,text⟩ := upTo_begins (Editor.Plain.noNul sound.editor.kept.text) sound.editor.line
  have cursor := spells.cursor
  refine ⟨spells.above,?_,?_,fun i inside => ?_,fun i behind before => ?_⟩
  · rw [index]
    exact_mod_cast cursor
  · rw [text,index]
  · have reached := spells.reached
    simp only [text] at inside ⊢
    rw [spells.cells i (by omega),List.getD_eq_getElem?_getD,List.getElem?_eq_getElem inside]
    rfl
  · rw [spells.cells i before,List.getD_eq_getElem?_getD,List.getElem?_eq_none (by omega)]
    rfl

/-- What an interrupt that edits the line does to what is seen. -/
structure Watched (start : Console.State) (v : Sight) (d : Draft UInt8) (scancode : UInt8)
    (key : Key UInt8) (shift extended : Bool) (v' : Sight) : Prop where
  machine : ∃ calls, Machine.press scancode v.machine = some (v'.machine,calls)
  shift : v'.machine.kernel.editor.shiftPressed = shift
  extended : v'.machine.kernel.editor.extendedKey = extended
  shown : Erasable scancode v.machine → Shown start v' (d.press lineSize historySize key)
  differs : ¬Erasable scancode v.machine → ¬ShowsLine start v'

theorem Shown.press {start : Console.State} {v : Sight} {d : Draft UInt8} (shown : Shown start v d)
    {scancode : UInt8} {key : Key UInt8} {shift extended : Bool}
    (decoded : decode scancode v.machine.kernel.editor.shiftPressed
      v.machine.kernel.editor.extendedKey = (key,shift,extended))
    (notEnter : ¬Enters scancode v.machine.kernel.editor) :
    ∃ v', v.press scancode = some v' ∧ Watched start v d scancode key shift extended v' := by
  have other : key ≠ .enter := by
    have first := decode_enter notEnter
    rwa [decoded] at first
  obtain ⟨n,text,taken,edit⟩ := edit_taken shown.sound.editor notEnter decoded
  obtain ⟨m',calls,pressed,does⟩ := shown.sound.press scancode decoded
  obtain ⟨rfl,put,_⟩ := does.edit other
  have kept := does.sound.editor.kept
  have line : (d.press lineSize historySize key).line = d.line.take (d.line.length - n) ++ text :=
    edit.line
  have visible : ∀ c ∈ text, Visible c := by
    intro c member
    have plain := kept.text c (by rw [line]; exact List.mem_append_right _ member)
    exact ⟨plain.2.1,plain.2.2.1⟩
  rw [edit.typed] at put pressed
  have seen : v.press scancode = some ⟨m',
      v.scrolled + scrolledBy (List.replicate n backspace ++ text) v.machine.console,
      max v.extent m'.kernel.editor.bufferIndex.toNat⟩ := by
    simp only [Sight.press,pressed,printed_chars,Option.bind_eq_bind,Option.bind_some]
    rfl
  have index := does.sound.editor.index
  have room := kept.line
  rw [line] at room
  refine ⟨_,seen,⟨_,pressed⟩,does.shift,does.extended,fun erasable => ⟨does.sound,?_⟩,
    fun blocked shows => ?_⟩
  · have left : n ≤ v.machine.console.cursorX := by
      rw [Erasable,taken] at erasable
      omega
    obtain ⟨s',placed,spells⟩ := shown.spells.edit left edit.filled visible room
    cases placed.symm.trans put
    rw [← line] at spells
    rw [index,Int.toNat_natCast]
    exact spells
  · -- the cursor stops at the left edge, before it is where the line begins to differ
    have moved := Console.putAll_edit shown.sound.console visible put
    have before := shown.spells.cursor
    have after := shows.cursor
    have length : (d.press lineSize historySize key).line.length = d.line.length - n + text.length := by
      rw [line,List.length_append,List.length_take,Nat.min_eq_left (Nat.sub_le _ _)]
    have filled := edit.filled
    rw [Erasable,taken] at blocked
    rw [index,length] at after
    simp only [vgaWidth] at moved before after
    push_cast at after
    omega

theorem Shown.pressAll {start : Console.State} {v : Sight} {d : Draft UInt8}
    (shown : Shown start v d) {scancodes : List UInt8}
    (edits : Along Edits scancodes v.machine)
    (erasable : Along Erasable scancodes v.machine) :
    ∃ v', v.pressAll scancodes = some v' ∧ ShowsLine start v' := by
  induction scancodes generalizing v d with
  | nil => exact ⟨v,rfl,shown.line⟩
  | cons scancode scancodes ih =>
    obtain ⟨one,first,watched⟩ := shown.press rfl edits.1
    obtain ⟨_,pressed⟩ := watched.machine
    obtain ⟨v',rest,last⟩ :=
      ih (watched.shown erasable.1) (edits.2 _ _ pressed) (erasable.2 _ _ pressed)
    refine ⟨v',?_,last⟩
    rw [Sight.pressAll,List.foldlM_cons,first]
    exact rest

theorem along_before {may : UInt8 → Machine → Prop} {first rest : List UInt8} {m : Machine}
    (along : Along may (first ++ rest) m) : Along may first m := by
  induction first generalizing m with
  | nil => trivial
  | cons scancode first ih =>
    exact ⟨along.1,fun m' calls pressed => ih (along.2 m' calls pressed)⟩

theorem Sight.along_append {may : UInt8 → Machine → Prop} {first rest : List UInt8} {v v' : Sight}
    (along : Along may first v.machine) (ran : v.pressAll first = some v')
    (last : Along may rest v'.machine) : Along may (first ++ rest) v.machine := by
  induction first generalizing v with
  | nil =>
    cases ran
    exact last
  | cons scancode first ih =>
    rw [Sight.pressAll,List.foldlM_cons] at ran
    obtain ⟨one,pressed,ran⟩ := Option.bind_eq_some_iff.mp ran
    refine ⟨along.1,fun m' calls done => ?_⟩
    obtain rfl : one.machine = m' := by
      rw [Sight.press,done] at pressed
      cases pressed
      rfl
    exact ih (along.2 _ calls done) ran

theorem Shown.erasable {start : Console.State} {v : Sight} {d : Draft UInt8}
    (shown : Shown start v d) {scancodes : List UInt8}
    (edits : Along Edits scancodes v.machine)
    (shows : ∀ typed, typed <+: scancodes →
      ∃ v', v.pressAll typed = some v' ∧ ShowsLine start v') :
    Along Erasable scancodes v.machine := by
  induction scancodes generalizing v d with
  | nil => trivial
  | cons scancode scancodes ih =>
    obtain ⟨one,first,watched⟩ := shown.press rfl edits.1
    obtain ⟨calls,pressed⟩ := watched.machine
    have step : ∀ typed, v.pressAll (scancode :: typed) = one.pressAll typed := by
      intro typed
      rw [Sight.pressAll,List.foldlM_cons,first]
      rfl
    have here : Erasable scancode v.machine := by
      by_contra blocked
      obtain ⟨v',ran,line⟩ := shows [scancode] (List.prefix_append _ _)
      cases (step []).symm.trans ran
      exact watched.differs blocked line
    refine ⟨here,fun m' calls' same => ?_⟩
    cases pressed.symm.trans same
    refine ih (watched.shown here) (edits.2 _ _ pressed) fun typed begins => ?_
    obtain ⟨v',ran,line⟩ := shows (scancode :: typed) (List.prefix_cons_inj scancode |>.mpr begins)
    exact ⟨v',(step typed).symm.trans ran,line⟩

theorem Prompted.sound {m : Machine} (prompted : Prompted m) : ∃ d, Sound m d := by
  cases prompted with
  | boot booted =>
    obtain ⟨m₀,started,sound,_⟩ := boot_sound _ _ _ _
    cases started.symm.trans booted
    exact ⟨_,sound⟩
  | press booted ran pressed =>
    obtain ⟨m₀,started,sound,_⟩ := boot_sound _ _ _ _
    cases started.symm.trans booted
    obtain ⟨m,_,reached,after,_⟩ := sound.pressAll _
    cases reached.symm.trans ran
    obtain ⟨m',_,last,does⟩ := after.press _ rfl
    have same := congrArg (Option.map Prod.fst) (last.symm.trans pressed)
    cases same
    exact ⟨_,does.sound⟩

theorem Prompted.shown {m : Machine} (prompted : Prompted m)
    (empty : m.kernel.editor.bufferIndex = 0) : ∃ d, Shown m.console (Sight.prompted m) d := by
  obtain ⟨d,sound⟩ := prompted.sound
  have index := sound.editor.index
  have nothing : d.line = [] := List.length_eq_zero_iff.mp (by omega)
  exact ⟨d,sound,by rw [nothing]; exact sound.console.spells⟩

/-! Typing without taking anything back. -/

/-- Where no prefix comes, a run stays behind none. -/
theorem along_single {may : UInt8 → Machine → Prop} {scancodes : List UInt8} {m : Machine}
    {d : Draft UInt8} (sound : Sound m d) (single : m.kernel.editor.extendedKey = false)
    (noPrefix : ∀ scancode ∈ scancodes, scancode ≠ 0xE0)
    (here : ∀ scancode ∈ scancodes, ∀ m', m'.kernel.editor.extendedKey = false → may scancode m') :
    Along may scancodes m := by
  induction scancodes generalizing m d with
  | nil => trivial
  | cons scancode scancodes ih =>
    rw [List.forall_mem_cons] at noPrefix here
    refine ⟨here.1 m single,fun m' calls pressed => ?_⟩
    obtain ⟨one,_,first,does⟩ := sound.press scancode rfl
    have same := congrArg (Option.map Prod.fst) (first.symm.trans pressed)
    cases same
    refine ih does.sound ?_ noPrefix.2 here.2
    rw [does.extended,single]
    exact Editor.decode_single _ noPrefix.1

theorem erasable_single {scancode : UInt8} {m : Machine}
    (single : m.kernel.editor.extendedKey = false) (notPrefix : scancode ≠ 0xE0)
    (notErase : scancode ≠ 0x0E) : Erasable scancode m := by
  rw [Erasable,takenBack,if_neg notPrefix,single,if_neg Bool.false_ne_true,
    if_neg fun both => notErase both.1]
  exact Int.natCast_nonneg _

/-- The screen follows the line while characters are typed. -/
theorem Shown.letters {start : Console.State} {v : Sight} {d : Draft UInt8}
    (shown : Shown start v d) (single : v.machine.kernel.editor.extendedKey = false)
    {scancodes : List UInt8}
    (letters : ∀ scancode ∈ scancodes, scancode ≠ 0xE0 ∧ scancode ≠ 0x1C ∧ scancode ≠ 0x0E) :
    ∃ v', v.pressAll scancodes = some v' ∧ v'.machine.kernel.editor.extendedKey = false ∧
      Shown start v' (typing lineSize historySize
        (keys scancodes v.machine.kernel.editor.shiftPressed false) d).1 := by
  induction scancodes generalizing v d with
  | nil => exact ⟨v,rfl,single,shown⟩
  | cons scancode scancodes ih =>
    rw [List.forall_mem_cons] at letters
    obtain ⟨⟨notPrefix,notEnter,notErase⟩,letters⟩ := letters
    obtain ⟨key,shift,extended,decoded⟩ : ∃ key shift extended, decode scancode
        v.machine.kernel.editor.shiftPressed v.machine.kernel.editor.extendedKey =
          (key,shift,extended) := ⟨_,_,_,rfl⟩
    obtain ⟨one,first,watched⟩ := shown.press decoded fun both => notEnter both.1
    have erasable := erasable_single single notPrefix notErase
    rw [single] at decoded
    have behind := Editor.decode_single v.machine.kernel.editor.shiftPressed notPrefix
    rw [decoded] at behind
    obtain ⟨v',rest,ended,last⟩ :=
      ih (watched.shown erasable) (watched.extended.trans behind) letters
    refine ⟨v',?_,ended,?_⟩
    · rw [Sight.pressAll,List.foldlM_cons,first]
      exact rest
    · rw [watched.shift] at last
      simp only [keys,decoded,typing]
      rw [show extended = false from behind]
      exact last

theorem letters_length (n : Nat) {d : Draft UInt8} (room : d.line.length + n ≤ lineSize) :
    (typing lineSize historySize (keys (List.replicate n 0x1E) false false) d).1.line.length =
      d.line.length + n := by
  induction n generalizing d with
  | zero => rfl
  | succ n ih =>
    have decoded : decode 0x1E false false = (.char 97,false,false) := rfl
    have longer : (d.press lineSize historySize (.char 97)).line.length = d.line.length + 1 := by
      rw [Draft.press,Draft.type,if_pos (by omega),List.length_append,List.length_singleton]
    simp only [List.replicate_succ,keys,decoded,typing]
    rw [ih (by omega),longer]
    omega

theorem greeting_column {shell : Shell.State} (language : shell.language = .zhCn)
    {s s' : Console.State} (performed : performAll (.clearScreen :: greeting shell) s = some s') :
    s'.cursorX = 10 := by
  have welcome : Console.utf8Chars 0 (I18n.text shell.language .welcome) =
      some (literal "???? XBTOS-LC Alpha\n?? help ?????" ++ [newline]) := by
    rw [language]
    decide
  have prompt : Console.utf8Chars 0 (I18n.text shell.language .prompt) =
      some (literal "XBTOS-LC> ") := by
    rw [language]
    decide
  obtain ⟨cleared,blanked,on,_⟩ := Console.vgaClear_blank s
  have shows : ∀ call ∈ (greeting shell).take 4, Shell.Shows [] call :=
    fun call member => greeting_shows [] shell call (List.mem_of_mem_take member)
  obtain ⟨one,told,still,_⟩ :=
    performAll_shows (Vfs.table_init shell.vfs) (by simp [Ascii]) shows on
  have split : greeting shell = (greeting shell).take 4 ++
      [Shell.message .welcome shell,Shell.message .prompt shell] := rfl
  rw [performAll,perform,blanked,Option.bind_eq_bind,Option.bind_some,split,performAll_append,told,
    Option.bind_some] at performed
  simp only [performAll,perform,Shell.message,Console.vgaWriteUtf8,Console.writeUtf8From_chars,welcome,
    prompt,Option.bind_some,Option.bind_eq_bind,Option.bind_fun_some] at performed
  rw [← Console.putAll_append] at performed
  have home : ∀ column, columnAfter column newline = 0 := fun _ => rfl
  rw [Console.putAll_column still performed,List.foldl_append,List.foldl_append,List.foldl_cons,
    List.foldl_nil,home]
  decide

theorem boot_column {cpuid : Cpuid} {files : Vfs.FileSystem} {apps : App.AppManager EntryPoint}
    {console : Console.State} {m : Machine} (booted : boot cpuid files apps console = some m) :
    m.console.cursorX = 10 := by
  simp only [boot,Option.bind_eq_bind] at booted
  obtain ⟨_,_,booted⟩ := Option.bind_eq_some_iff.mp booted
  obtain ⟨_,_,booted⟩ := Option.bind_eq_some_iff.mp booted
  obtain ⟨apps',_,booted⟩ := Option.bind_eq_some_iff.mp booted
  obtain ⟨last,performed,made⟩ := Option.bind_eq_some_iff.mp booted
  cases made
  exact greeting_column rfl performed

def blankConsole : Console.State where
  vgaBuffer := Vector.replicate (Console.vgaHeight * vgaWidth) 0
  cursorX := 0
  cursorY := 0
  color := 0x0F
  crtcIndex := 0
  crtc := fun _ => 0

/-- From a prompt with an empty line on, the screen shows the line in every state of a run if
and only if no interrupt takes back more characters than there are left of the cursor. -/
theorem line_shown_iff {m : Machine} (prompted : Prompted m)
    (empty : m.kernel.editor.bufferIndex = 0) {scancodes : List UInt8}
    (edits : Along Edits scancodes m) :
    (∀ typed, typed <+: scancodes →
      ∃ v, (Sight.prompted m).pressAll typed = some v ∧ ShowsLine m.console v) ↔
    Along Erasable scancodes m := by
  obtain ⟨d,shown⟩ := prompted.shown empty
  refine ⟨shown.erasable edits,fun erasable typed begins => ?_⟩
  obtain ⟨rest,rfl⟩ := begins
  exact shown.pressAll (along_before edits) (along_before erasable)

/-- Two letters and a backspace, behind the prompt of ten characters. -/
theorem line_shown_sample : ∃ m v,
    boot ⟨0,0,0⟩ Vfs.blankSystem Shell.blankApps blankConsole = some m ∧
    (Sight.prompted m).pressAll [0x23,0x17,0x0E] = some v ∧ ShowsLine m.console v := by
  obtain ⟨m,booted,sound,fresh⟩ := boot_sound ⟨0,0,0⟩ Vfs.blankSystem Shell.blankApps blankConsole
  have single : m.kernel.editor.extendedKey = false := by rw [fresh]; rfl
  have shift : m.kernel.editor.shiftPressed = false := by rw [fresh]; rfl
  have other : ∀ scancode ∈ ([0x23,0x17,0x0E] : List UInt8), scancode ≠ 0x1C := by simp
  have edits : Along Edits [0x23,0x17,0x0E] m :=
    along_single sound single (by simp) fun scancode member _ _ enters =>
      other scancode member enters.1
  have start : Shown m.console (Sight.prompted m) .start := ⟨sound,sound.console.spells⟩
  have letters : ∀ c ∈ ([0x23,0x17] : List UInt8), c ≠ 0xE0 ∧ c ≠ 0x1C ∧ c ≠ 0x0E := by simp
  obtain ⟨v,typed,behind,shown⟩ := start.letters single letters
  have cursor := shown.spells.cursor
  have onScreen := shown.sound.console.column
  have column := boot_column booted
  rw [show (Sight.prompted m).machine = m from rfl,shift] at cursor
  rw [show (typing lineSize historySize (keys [0x23,0x17] false false) .start).1.line.length = 2 from rfl]
    at cursor
  have right : v.machine.console.cursorX = 12 := by
    simp only [Console.index,vgaWidth,column] at cursor onScreen
    omega
  have erasable : Along Erasable [0x23,0x17] m := along_single sound single (fun c member =>
    (letters c member).1) fun c member _ single => erasable_single single (letters c member).1
      (letters c member).2.2
  have last : Erasable 0x0E v.machine := by
    rw [Erasable,right,takenBack,if_neg (by decide),behind,if_neg Bool.false_ne_true]
    split <;> decide
  have whole : Along Erasable [0x23,0x17,0x0E] m :=
    Sight.along_append (v := Sight.prompted m) erasable typed ⟨last,fun _ _ _ => trivial⟩
  obtain ⟨v',ran,shows⟩ := (line_shown_iff (.boot booted) (by rw [fresh]; rfl) edits).mpr whole _
    List.prefix_rfl
  exact ⟨m,v',booted,ran,shows⟩

/-- Seventy letters, the last of them in the last column, and a backspace. -/
def wrappingKeys : List UInt8 := List.replicate 70 0x1E ++ [0x0E]

theorem wrapped_line_differs : ∃ m,
    boot ⟨0,0,0⟩ Vfs.blankSystem Shell.blankApps blankConsole = some m ∧ Prompted m ∧
    m.kernel.editor.bufferIndex = 0 ∧
    Along Edits wrappingKeys m ∧
    ∃ v, (Sight.prompted m).pressAll wrappingKeys = some v ∧ ¬ShowsLine m.console v := by
  obtain ⟨m,booted,sound,fresh⟩ := boot_sound ⟨0,0,0⟩ Vfs.blankSystem Shell.blankApps blankConsole
  have single : m.kernel.editor.extendedKey = false := by rw [fresh]; rfl
  have other : ∀ scancode ∈ wrappingKeys, scancode ≠ 0x1C := by simp [wrappingKeys]
  have edits : Along Edits wrappingKeys m :=
    along_single sound single (by simp [wrappingKeys]) fun scancode member _ _ enters =>
      other scancode member enters.1
  refine ⟨m,booted,.boot booted,by rw [fresh]; rfl,edits,?_⟩
  have start : Shown m.console (Sight.prompted m) .start := ⟨sound,sound.console.spells⟩
  obtain ⟨v,typed,still,shown⟩ := start.letters single
    (show ∀ c ∈ List.replicate 70 0x1E, c ≠ 0xE0 ∧ c ≠ 0x1C ∧ c ≠ 0x0E by simp)
  have shift : m.kernel.editor.shiftPressed = false := by rw [fresh]; rfl
  have line : (typing lineSize historySize
      (keys (List.replicate 70 0x1E) m.kernel.editor.shiftPressed false) .start).1.line.length = 70 := by
    rw [shift]
    exact letters_length 70 (by decide)
  have cursor := shown.spells.cursor
  have column := boot_column booted
  have onScreen := shown.sound.console.column
  have index := shown.sound.editor.index
  rw [show (Sight.prompted m).machine = m from rfl] at cursor index
  rw [line] at cursor index
  have edge : v.machine.console.cursorX = 0 := by
    simp only [Console.index,vgaWidth,column] at cursor onScreen
    omega
  obtain ⟨last,pressed,watched⟩ := shown.press rfl
    (show ¬Enters 0x0E v.machine.kernel.editor from fun enters => absurd enters.1 (by decide))
  refine ⟨last,?_,watched.differs fun erasable => ?_⟩
  · rw [Sight.pressAll] at typed
    rw [Sight.pressAll,wrappingKeys,List.foldlM_append,typed]
    exact (congrArg (· >>= pure) pressed).trans rfl
  · rw [Erasable,takenBack,if_neg (by decide),still,if_neg Bool.false_ne_true,index,edge,
      if_pos (by decide)] at erasable
    exact absurd erasable (by decide)

end Xbtos.Machine
