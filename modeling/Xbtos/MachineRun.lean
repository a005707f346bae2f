import Xbtos.Machine
import Xbtos.EditorKeyboard
import Xbtos.ShellFiles

/-! The kernel keeps running: from its first prompt on every interrupt of the keyboard
returns, with every access inside its array, and leaves a sound machine. -/
namespace Xbtos.Machine
open Foundation.Buffer Strings Semantics.LineEditor
open Shell (Call EntryPoint Cpuid Shows Changes Executed brought)
open Vfs (File Table Command contentOf)
open App (Registry)
open Console (OnScreen)
open Editor (Holds Plain decode typedBy lineSize historySize)

/-! What is printed. -/

/-- The files hold what was typed, so that printing one stops at its end. -/
def Ascii (live : List File) : Prop := ∀ file ∈ live, ∀ c ∈ contentOf file, c < 0x80

theorem vgaWrite_onScreen {text : Option Bytes} (terminated : ∀ bytes ∈ text, 0 ∈ bytes)
    {s : Console.State} (onScreen : OnScreen s) :
    ∃ s', Console.vgaWrite text s = some s' ∧ OnScreen s' ∧ s'.color = s.color := by
  have ends : 0 ∈ text.getD (literal "(null)" ++ [0]) := by
    cases text with
    | none => simp
    | some bytes => exact terminated bytes rfl
  obtain ⟨rest,split⟩ := upTo_split ends
  rw [Console.vgaWrite,split,Console.writeFrom_text rest (notMem_upTo 0 _)]
  exact Console.putAll_onScreen onScreen _

theorem vgaWriteUtf8_onScreen {text : Bytes} (readable : (Console.utf8Chars 0 text).isSome)
    {s : Console.State} (onScreen : OnScreen s) :
    ∃ s', Console.vgaWriteUtf8 (some text) s = some s' ∧ OnScreen s' ∧ s'.color = s.color := by
  obtain ⟨chars,read⟩ := Option.isSome_iff_exists.mp readable
  rw [Console.vgaWriteUtf8,Console.writeUtf8From_chars,read,Option.bind_some]
  exact Console.putAll_onScreen onScreen chars

theorem Ascii.readable {live : List File} (ascii : Ascii live) {file : File} (member : file ∈ live)
    (good : Vfs.GoodFile file) : (Console.utf8Chars 0 file.data.toList).isSome := by
  obtain ⟨rest,split⟩ := upTo_split good.ended
  have clean := notMem_upTo (0 : UInt8) file.data.toList
  rw [split,Console.utf8Chars_ascii rest]
  · rfl
  · intro c inside
    exact ⟨fun zero => clean (zero ▸ inside),ascii file member c inside⟩

theorem perform_shows {live : List File} {vfs : Vfs.FileSystem} (table : Table vfs live)
    (ascii : Ascii live) {call : Call} (shows : Shows live call) {s : Console.State}
    (onScreen : OnScreen s) :
    ∃ s', perform call s = some s' ∧ OnScreen s' ∧ s'.color = s.color := by
  cases call with
  | printChar c =>
    obtain ⟨s',placed,put⟩ := Console.vgaPutChar_put onScreen c
    exact ⟨s',placed,put.onScreen,put.color⟩
  | printString text => exact vgaWrite_onScreen shows onScreen
  | printUtf8 text =>
    rcases shows with readable | ⟨file,member,rfl⟩
    · exact vgaWriteUtf8_onScreen readable onScreen
    · exact vgaWriteUtf8_onScreen (ascii.readable member (table.good file member)) onScreen
  | clearScreen =>
    obtain ⟨s',cleared,there,color,_⟩ := Console.vgaClear_blank s
    exact ⟨s',cleared,there,color⟩
  | endOfInterrupt => exact ⟨s,rfl,onScreen,rfl⟩
  | executeCommand => exact ⟨s,rfl,onScreen,rfl⟩
  | file => exact ⟨s,rfl,onScreen,rfl⟩
  | entry => exact ⟨s,rfl,onScreen,rfl⟩

theorem performAll_shows {live : List File} {vfs : Vfs.FileSystem} (table : Table vfs live)
    (ascii : Ascii live) {calls : List Call} (shows : ∀ call ∈ calls, Shows live call)
    {s : Console.State} (onScreen : OnScreen s) :
    ∃ s', performAll calls s = some s' ∧ OnScreen s' ∧ s'.color = s.color := by
  induction calls generalizing s with
  | nil => exact ⟨s,rfl,onScreen,rfl⟩
  | cons call calls ih =>
    rw [List.forall_mem_cons] at shows
    obtain ⟨one,first,on,color⟩ := perform_shows table ascii shows.1 onScreen
    obtain ⟨s',rest,last,same⟩ := ih shows.2 on
    exact ⟨s',by simp only [performAll,first,Option.bind_eq_bind,Option.bind_some,rest],last,
      same.trans color⟩

theorem performAll_append (first second : List Call) (s : Console.State) :
    performAll (first ++ second) s = (performAll first s).bind (performAll second) := by
  induction first generalizing s with
  | nil => rfl
  | cons call first ih =>
    simp only [List.cons_append,performAll]
    cases performed : perform call s with
    | none => rfl
    | some one => exact ih one

theorem performAll_chars (text : Bytes) (s : Console.State) :
    performAll (text.map .printChar) s = Console.putAll text s := by
  induction text generalizing s with
  | nil => rfl
  | cons c text ih =>
    exact congrArg _ (funext fun one => ih one)

/-! The files hold what was typed. -/

theorem Ascii.push {live : List File} (ascii : Ascii live) {file : File}
    (typed : ∀ c ∈ contentOf file, c < 0x80) : Ascii (live ++ [file]) := by
  intro other member
  rcases List.mem_append.mp member with old | new
  · exact ascii other old
  · rwa [List.mem_singleton.mp new]

theorem Ascii.created {live live' : List File} {s s' : Vfs.FileSystem} {name : Option Bytes}
    {result : Vfs.FileResult} (ascii : Ascii live) (outcome : Vfs.Created s live name result s' live') :
    Ascii live' := by
  cases outcome with
  | new _ _ file _ _ _ _ empty => exact ascii.push (by simp [empty])
  | _ => exact ascii

theorem Ascii.updated {live live' : List File} {s s' : Vfs.FileSystem} {name : Option Bytes}
    {result : Vfs.FileResult} {change : Bytes → Bytes} (ascii : Ascii live)
    (typed : ∀ old, (∀ c ∈ old, c < 0x80) → ∀ c ∈ change old, c < 0x80)
    (outcome : Vfs.Updated change s live name result s' live') : Ascii live' := by
  cases outcome with
  | edited i inside _ file _ _ _ content =>
    intro other member
    rcases List.mem_or_eq_of_mem_set member with old | rfl
    · exact ascii other old
    · rw [content]
      exact typed _ (ascii _ (List.getElem_mem inside))
  | made _ _ file _ _ _ _ _ content =>
    exact ascii.push (by rw [content]; exact typed [] (by simp))
  | madeEmpty _ _ file _ _ _ _ _ empty => exact ascii.push (by simp [empty])
  | _ => exact ascii

theorem Ascii.removed {live live' : List File} {s s' : Vfs.FileSystem} {name : Option Bytes}
    {result : Vfs.FileResult} (ascii : Ascii live) (outcome : Vfs.Removed s live name result s' live') :
    Ascii live' := by
  cases outcome with
  | removed i inside _ _ =>
    intro file member
    have there := (Foundation.PackedTable.swapRemove_perm inside).mem_iff.mp member
    exact ascii file (List.mem_of_mem_eraseIdx there)
  | _ => exact ascii

theorem Ascii.outcome {live live' : List File} {s s' : Vfs.FileSystem} {command : Command}
    {result : Vfs.FileResult} (ascii : Ascii live) (typed : ∀ c ∈ brought command, c < 0x80)
    (outcome : Vfs.Outcome s live command result s' live') : Ascii live' := by
  cases outcome with
  | create _ _ _ _ outcome => exact ascii.created outcome
  | write _ content _ _ _ outcome =>
    refine ascii.updated (fun _ _ => ?_) outcome
    cases content with
    | none => simp [Vfs.contentOrEmpty]
    | some content => exact typed
  | appendNull => exact ascii
  | append _ content _ _ _ outcome =>
    refine ascii.updated (fun old clean c member => ?_) outcome
    exact (List.mem_append.mp member).elim (clean c) (typed c)
  | remove _ _ _ _ outcome => exact ascii.removed outcome

/-! Running. -/

/-- A shell whose next command returns, if it is one that can be typed. -/
structure Ready (s : Shell.State) : Prop where
  files : ∃ live, Table s.vfs live ∧ Ascii live
  apps : Registry s.apps [Shell.demoRegistration]

/-- A machine that holds the draft d. -/
structure Sound (m : Machine) (d : Draft UInt8) : Prop where
  ready : Ready m.kernel.shell
  console : OnScreen m.console
  editor : Holds m.kernel.editor d

/-- Calls that end no interrupt and pass no line on. -/
def Quiet (calls : List Call) : Prop := calls.filterMap ended = [] ∧ calls.filterMap executed = []

theorem quiet_shows {live : List File} {calls : List Call} (shows : ∀ c ∈ calls, Shows live c) :
    Quiet calls := by
  constructor
  · apply List.filterMap_eq_nil_iff.mpr
    intro call member
    cases call with
    | endOfInterrupt => exact absurd (shows _ member) id
    | _ => rfl
  · apply List.filterMap_eq_nil_iff.mpr
    intro call member
    cases call with
    | executeCommand => exact absurd (shows _ member) id
    | _ => rfl

theorem Quiet.file {calls : List Call} (quiet : Quiet calls) (call : Shell.FileCall) :
    Quiet (.file call :: calls) := quiet

theorem Executed.run {cmd : CString} {s s' : Shell.State} {live : List File} {calls : List Call}
    (executed : Executed cmd s live s' calls) (table : Table s.vfs live) (ascii : Ascii live)
    (typed : ∀ c ∈ cmd.bytes, c < 0x80) (apps : Registry s.apps [Shell.demoRegistration])
    {console : Console.State} (onScreen : OnScreen console) :
    Ready s' ∧ Quiet calls ∧ ∃ console', performAll calls console = some console' ∧
      OnScreen console' := by
  cases executed with
  | shown _ shows =>
    obtain ⟨console',performed,there,_⟩ := performAll_shows table ascii shows onScreen
    exact ⟨⟨⟨live,table,ascii⟩,apps⟩,quiet_shows shows,console',performed,there⟩
  | switched language _ shows =>
    obtain ⟨console',performed,there,_⟩ := performAll_shows table ascii shows onScreen
    exact ⟨⟨⟨live,table,ascii⟩,apps⟩,quiet_shows shows,console',performed,there⟩
  | asked call calls _ shows =>
    obtain ⟨console',performed,there,_⟩ := performAll_shows table ascii shows onScreen
    exact ⟨⟨⟨live,table,ascii⟩,apps⟩,(quiet_shows shows).file call,console',performed,there⟩
  | changed call command result vfs calls _ _ part returned shows =>
    obtain ⟨live',outcome⟩ := table.returned returned
    obtain ⟨console',performed,there,_⟩ := performAll_shows table ascii shows onScreen
    have kept := ascii.outcome (fun c member => typed c (part.subset member)) outcome
    exact ⟨⟨⟨live',outcome.table table,kept⟩,apps⟩,(quiet_shows shows).file call,console',performed,there⟩

/-- What an interrupt that gives key does, up to its end: it edits the draft, and puts text on
the screen or passes the line on. -/
structure Pressed (m : Machine) (d : Draft UInt8) (key : Key UInt8) (shift extended : Bool)
    (m' : Machine) (calls : List Call) : Prop where
  sound : Sound m' (d.press lineSize historySize key)
  shift : m'.kernel.editor.shiftPressed = shift
  extended : m'.kernel.editor.extendedKey = extended
  ended : calls.filterMap ended = []
  executed : calls.filterMap executed = (d.entered key).toList
  edit : key ≠ .enter → calls = (typedBy key d).map .printChar ∧
    Console.putAll (typedBy key d) m.console = some m'.console ∧
    m'.kernel.shell = m.kernel.shell

theorem quiet_chars (text : Bytes) : Quiet (text.map .printChar) := by
  constructor <;> rw [List.filterMap_map] <;> exact List.filterMap_eq_nil_iff.mpr fun _ _ => rfl

theorem press_returned {scancode : UInt8} {m : Machine} {k : Editor.Kernel} {calls : List Call}
    {console : Console.State} (returned : Editor.handleScancode scancode m.kernel = some (k,calls))
    (performed : performAll (calls ++ [.endOfInterrupt 1]) m.console = some console) :
    press scancode m = some (⟨k,console⟩,calls ++ [.endOfInterrupt 1]) := by
  simp only [press,Editor.keyboardHandler,returned,Option.bind_eq_bind,Option.bind_some,pure,performed]

theorem performAll_end {calls : List Call} {s s' : Console.State}
    (performed : performAll calls s = some s') :
    performAll (calls ++ [.endOfInterrupt 1]) s = some s' := by
  rw [performAll_append,performed]
  rfl

theorem Sound.press_edit {m : Machine} {d : Draft UInt8} (sound : Sound m d) {scancode : UInt8}
    {key : Key UInt8} {shift extended : Bool} (edit : key ≠ .enter)
    (handled : Editor.Handled scancode m.kernel d key shift extended) : ∃ m' calls,
      press scancode m = some (m',calls ++ [.endOfInterrupt 1]) ∧
        Pressed m d key shift extended m' calls := by
  obtain ⟨e',returned,held,isShift,isExtended⟩ := handled.edit edit
  obtain ⟨console,put,onScreen,_⟩ := Console.putAll_onScreen sound.console (typedBy key d)
  have performed : performAll ((typedBy key d).map .printChar) m.console = some console := by
    rw [performAll_chars,put]
  have nothing : d.entered key = none := by
    cases key <;> first | rfl | exact absurd rfl edit
  refine ⟨⟨⟨m.kernel.shell,e'⟩,console⟩,(typedBy key d).map .printChar,?_,
    ⟨⟨sound.ready,onScreen,held⟩,isShift,isExtended,(quiet_chars _).1,?_,fun _ => ⟨rfl,put,rfl⟩⟩⟩
  · exact press_returned returned (performAll_end performed)
  · rw [nothing]
    exact (quiet_chars _).2

theorem Sound.press_enter {m : Machine} {d : Draft UInt8} (sound : Sound m d) {scancode : UInt8}
    {shift extended : Bool} (handled : Editor.Handled scancode m.kernel d .enter shift extended) :
    ∃ m' calls, press scancode m = some (m',calls ++ [.endOfInterrupt 1]) ∧
      Pressed m d .enter shift extended m' calls := by
  obtain ⟨returned,rfl,rfl⟩ := handled.enter rfl
  obtain ⟨live,table,ascii⟩ := sound.ready.files
  have newline_shows := Shell.shows_print live "\n"
  by_cases empty : d.line = []
  · obtain ⟨e',entered,held,isShift,isExtended⟩ := sound.editor.enter_empty empty
    have shows : ∀ c ∈ Shell.print "\n" :: Shell.prompt m.kernel.shell, Shows live c :=
      List.forall_mem_cons.mpr ⟨newline_shows,Shell.shows_prompt live _⟩
    obtain ⟨console,performed,onScreen,_⟩ := performAll_shows table ascii shows sound.console
    have quiet := quiet_shows shows
    have same : d.press lineSize historySize .enter = d := if_pos empty
    have nothing : d.entered .enter = none := if_pos empty
    refine ⟨_,_,press_returned (returned.trans entered) (performAll_end performed),
      ⟨⟨sound.ready,onScreen,by rwa [same]⟩,isShift,isExtended,quiet.1,?_,fun edit => absurd rfl edit⟩⟩
    rw [nothing]
    exact quiet.2
  · obtain ⟨cmd,line,runs⟩ := sound.editor.enter_filled empty
    have plain := sound.editor.kept.text
    have typed : ∀ c ∈ cmd.bytes, c < 0x80 := by
      rw [line]
      exact fun c member => (plain c member).2.2.2
    have short : Vfs.Short cmd := by
      have bound := sound.editor.kept.line
      rw [Vfs.Short,line]
      exact Nat.lt_of_le_of_lt bound (by decide)
    obtain ⟨shell,calls,ran,done⟩ :=
      Shell.executeCommand_executed table sound.ready.apps short
    obtain ⟨e',entered,held,isShift,isExtended⟩ := runs shell calls ran
    obtain ⟨one,first,on,_⟩ := perform_shows table ascii newline_shows sound.console
    obtain ⟨ready,quiet,console,rest,onScreen⟩ := Executed.run done table ascii typed sound.ready.apps on
    have performed : performAll (Shell.print "\n" :: .executeCommand cmd.pointer :: calls) m.console =
        some console := by
      simp only [performAll,first,Option.bind_eq_bind,Option.bind_some]
      exact rest
    have passed : d.entered .enter = some (upTo 0 cmd.pointer) := by
      rw [CString.pointer,upTo_append cmd.after cmd.noNul,line]
      exact if_neg empty
    refine ⟨_,_,press_returned (returned.trans entered) (performAll_end performed),
      ⟨⟨ready,onScreen,held⟩,isShift,isExtended,quiet.1,?_,fun edit => absurd rfl edit⟩⟩
    rw [passed]
    exact congrArg (upTo 0 cmd.pointer :: ·) quiet.2

theorem Sound.press {m : Machine} {d : Draft UInt8} (sound : Sound m d) (scancode : UInt8)
    {key : Key UInt8} {shift extended : Bool}
    (decoded : decode scancode m.kernel.editor.shiftPressed m.kernel.editor.extendedKey =
      (key,shift,extended)) : ∃ m' calls,
      Machine.press scancode m = some (m',calls ++ [.endOfInterrupt 1]) ∧
        Pressed m d key shift extended m' calls := by
  have handled := sound.editor.handleScancode scancode decoded
  by_cases enter : key = .enter
  · subst enter
    exact sound.press_enter handled
  · exact sound.press_edit enter handled

theorem executed_interrupt (calls : List Call) :
    (calls ++ [Call.endOfInterrupt 1]).filterMap executed = calls.filterMap executed := by
  rw [List.filterMap_append]
  exact List.append_nil _

/-- The keys of scancodes, under the modifiers shift and extended at first. -/
def keys : List UInt8 → Bool → Bool → List (Key UInt8)
  | [], _, _ => []
  | scancode :: scancodes, shift, extended =>
    let (key,shift,extended) := decode scancode shift extended
    key :: keys scancodes shift extended

theorem pressAll_cons {scancode : UInt8} {scancodes : List UInt8} {m one m' : Machine}
    {calls more : List Call} (first : press scancode m = some (one,calls))
    (rest : pressAll scancodes one = some (m',more)) :
    pressAll (scancode :: scancodes) m = some (m',calls ++ more) := by
  simp only [pressAll,first,rest,Option.bind_eq_bind,Option.bind_some]
  rfl

/-- A run is a run of the draft over the keys. -/
theorem Sound.pressAll {m : Machine} {d : Draft UInt8} (sound : Sound m d) (scancodes : List UInt8) :
    ∃ m' calls, Machine.pressAll scancodes m = some (m',calls) ∧
      Sound m' (typing lineSize historySize
        (keys scancodes m.kernel.editor.shiftPressed m.kernel.editor.extendedKey) d).1 ∧
      calls.filterMap executed = (typing lineSize historySize
        (keys scancodes m.kernel.editor.shiftPressed m.kernel.editor.extendedKey) d).2 := by
  induction scancodes generalizing m d with
  | nil => exact ⟨m,[],rfl,sound,rfl⟩
  | cons scancode scancodes ih =>
    obtain ⟨key,shift,extended,decoded⟩ : ∃ key shift extended,
        decode scancode m.kernel.editor.shiftPressed m.kernel.editor.extendedKey = (key,shift,extended) :=
      ⟨_,_,_,rfl⟩
    obtain ⟨one,calls,first,pressed⟩ := sound.press scancode decoded
    obtain ⟨m',more,rest,last,lines⟩ := ih pressed.sound
    rw [pressed.shift,pressed.extended] at last lines
    refine ⟨m',_,pressAll_cons first rest,?_,?_⟩
    · simp only [keys,decoded,typing]
      exact last
    · rw [List.filterMap_append,executed_interrupt,pressed.executed,lines]
      simp only [keys,decoded,typing]

/-! From the first prompt on. -/

theorem greeting_shows (live : List File) (shell : Shell.State) :
    ∀ call ∈ greeting shell, Shows live call := by
  refine List.forall_mem_append.mpr ⟨?_,Shell.shows_prompt live shell⟩
  simp [Shell.shows_print,Shell.shows_message]

theorem boot_sound (cpuid : Cpuid) (files : Vfs.FileSystem) (apps : App.AppManager EntryPoint)
    (console : Console.State) : ∃ m, boot cpuid files apps console = some m ∧ Sound m .start ∧
      m.kernel.editor = Editor.loaded := by
  obtain ⟨vfs,text,started⟩ : ∃ vfs text, Vfs.init files = (vfs,text) :=
    ⟨(Vfs.init files).1,(Vfs.init files).2,rfl⟩
  have table := Vfs.table_init files
  rw [started] at table
  have ascii : Ascii [] := by simp [Ascii]
  obtain ⟨cleared,first,on,_⟩ := Console.vgaClear_blank console
  have announced : Shows [] (.printString (some (text ++ [0]))) := by
    rintro bytes ⟨⟩
    simp
  obtain ⟨told,second,still,_⟩ := perform_shows table ascii announced on
  obtain ⟨apps',registered,registry⟩ := Shell.registerBuiltinApps_registry apps
  have shows : ∀ call ∈ Call.clearScreen :: greeting ⟨vfs,apps',I18n.loadedLanguage,cpuid⟩,
      Shows [] call := List.forall_mem_cons.mpr ⟨trivial,greeting_shows [] _⟩
  obtain ⟨last,third,onScreen,_⟩ := performAll_shows table ascii shows still
  refine ⟨⟨⟨⟨vfs,apps',I18n.loadedLanguage,cpuid⟩,Editor.loaded⟩,last⟩,?_,
    ⟨⟨⟨[],table,ascii⟩,registry⟩,onScreen,Editor.holds_loaded⟩,rfl⟩
  rw [boot,first,Option.bind_eq_bind,Option.bind_some,started]
  dsimp only
  rw [second,Option.bind_eq_bind,Option.bind_some,registered,Option.bind_some,third]
  rfl

/-- What holds of the variables of the editor between two interrupts. -/
structure LineInvariant (e : Editor.State) : Prop where
  index : 0 ≤ e.bufferIndex ∧ e.bufferIndex ≤ 255
  ended : fetch e.inputBuffer e.bufferIndex = some 0
  noNul : ∀ i, 0 ≤ i → i < e.bufferIndex → ∃ c, fetch e.inputBuffer i = some c ∧ c ≠ 0
  count : 0 ≤ e.historyCount ∧ e.historyCount ≤ 10
  history : ∀ i, 0 ≤ i → i < e.historyCount → ∃ entry, fetch e.history i = some entry ∧
    0 ∈ entry.toList ∧ upTo 0 entry.toList ≠ [] ∧ (upTo 0 entry.toList).length ≤ 255
  recalled : -1 ≤ e.historyIndex ∧ e.historyIndex < e.historyCount
  same : 0 ≤ e.historyIndex → ∃ entry, fetch e.history e.historyIndex = some entry ∧
    upTo 0 e.inputBuffer.toList = upTo 0 entry.toList

theorem upTo_begins {n : Nat} {buffer : Vector UInt8 n} {text : Bytes} (noNul : 0 ∉ text)
    (begins : text ++ [0] <+: buffer.toList) : 0 ∈ buffer.toList ∧ upTo 0 buffer.toList = text := by
  obtain ⟨rest,split⟩ := begins
  rw [List.append_assoc,List.singleton_append] at split
  rw [← split]
  exact ⟨by simp,upTo_append rest noNul⟩

theorem row_text {e : Editor.State} {d : Draft UInt8} (holds : Holds e d) {i : Nat}
    (inside : i < d.past.length) : ∃ entry, fetch e.history (i : Int) = some entry ∧
      0 ∈ entry.toList ∧ upTo 0 entry.toList = d.past[i] := by
  obtain ⟨entry,there,begins⟩ := holds.rows i inside
  obtain ⟨_,_,plain⟩ := holds.kept.past _ (List.getElem_mem inside)
  exact ⟨entry,by rw [fetch_nat,there],upTo_begins (Plain.noNul plain) begins⟩

theorem lineInvariant {e : Editor.State} {d : Draft UInt8} (holds : Holds e d) :
    LineInvariant e := by
  have noNul := Editor.Plain.noNul holds.kept.text
  have short := holds.kept.line
  have few := holds.kept.depth
  have index := holds.index
  have count := holds.count
  simp only [lineSize,Shell.bufferSize,historySize] at short few
  constructor
  · omega
  · rw [holds.index,fetch_nat]
    exact getElem?_behind holds.line
  · intro i lower before
    obtain ⟨j,rfl⟩ := Int.eq_ofNat_of_zero_le lower
    have inside : j < d.line.length := by omega
    obtain ⟨rest,split⟩ := holds.line
    refine ⟨d.line[j],?_,fun zero => noNul (zero ▸ List.getElem_mem inside)⟩
    rw [fetch_nat,← Vector.getElem?_toList,← split,List.append_assoc,
      List.getElem?_append_left inside,List.getElem?_eq_getElem inside]
  · omega
  · intro i lower before
    obtain ⟨j,rfl⟩ := Int.eq_ofNat_of_zero_le lower
    have inside : j < d.past.length := by omega
    obtain ⟨entry,there,ended,text⟩ := row_text holds inside
    obtain ⟨filled,bound,_⟩ := holds.kept.past _ (List.getElem_mem inside)
    exact ⟨entry,there,ended,by rwa [text],by rwa [text]⟩
  · rcases holds.recalled_cases with ⟨_,nothing⟩ | ⟨i,inside,_,here,_⟩ <;> omega
  · intro lower
    rcases holds.recalled_cases with ⟨_,nothing⟩ | ⟨i,inside,_,here,same⟩
    · omega
    · obtain ⟨entry,there,_,text⟩ := row_text holds inside
      exact ⟨entry,by rw [here,there],by rw [(upTo_begins noNul holds.line).2,text,same]⟩

/-- The line editor keeps its invariant, and every interrupt returns and is ended once. -/
theorem line_editor_invariant (cpuid : Cpuid) (files : Vfs.FileSystem)
    (apps : App.AppManager EntryPoint) (console : Console.State) :
    ∃ m₀, boot cpuid files apps console = some m₀ ∧ LineInvariant m₀.kernel.editor ∧
      ∀ scancodes, ∃ m calls, pressAll scancodes m₀ = some (m,calls) ∧
        LineInvariant m.kernel.editor ∧
        ∀ scancode, ∃ m' calls', press scancode m = some (m',calls') ∧
          calls'.filterMap ended = [1] := by
  obtain ⟨m₀,booted,sound,_⟩ := boot_sound cpuid files apps console
  refine ⟨m₀,booted,lineInvariant sound.editor,fun scancodes => ?_⟩
  obtain ⟨m,calls,ran,after,_⟩ := sound.pressAll scancodes
  refine ⟨m,calls,ran,lineInvariant after.editor,fun scancode => ?_⟩
  obtain ⟨m',calls',pressed,does⟩ := after.press scancode rfl
  refine ⟨m',_,pressed,?_⟩
  rw [List.filterMap_append,does.ended]
  rfl

end Xbtos.Machine
