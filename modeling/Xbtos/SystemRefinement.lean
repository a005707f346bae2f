import Xbtos.SessionRefinement
import Xbtos.TypedLines
import Xbtos.Semantics.System

/-! The kernel is the system: after any scancodes its screen, its line, its history, its files and
its language are those of the abstract system after the same scancodes. -/
namespace Xbtos.Machine
open Foundation.Buffer Strings Semantics Semantics.LineEditor Semantics.Terminal
open Shell (Call EntryPoint Cpuid Represents Prints marks marksAll)
open Editor (Holds decode typedBy lineSize historySize)
open Session (Mark chars drawAll)

/-! What calls draw. -/

theorem drawAll_chars (text : Bytes) (p : Page UInt8) :
    drawAll (chars text) p = text.foldl (fun p c => Console.type c p) p := List.foldl_map

theorem drawAll_append (first second : List Mark) (p : Page UInt8) :
    drawAll (first ++ second) p = drawAll second (drawAll first p) := List.foldl_append

theorem drawAll_clear (marks : List Mark) (p : Page UInt8) :
    drawAll (.clear :: marks) p = drawAll marks (Page.start Console.space) := rfl

theorem writeFrom_printed {text chars : Bytes} (printed : Strings.printString text = some chars)
    (s : Console.State) : Console.writeFrom text s = Console.putAll chars s := by
  induction text generalizing chars s with
  | nil => cases printed
  | cons c text ih =>
    rw [Strings.printString] at printed
    split_ifs at printed with ends
    · cases printed
      rw [Console.writeFrom,if_pos ends,Console.putAll]
    · obtain ⟨more,rest,same⟩ := Option.bind_eq_some_iff.mp printed
      cases same
      rw [Console.writeFrom,if_neg ends,Console.putAll]
      exact congrArg _ (funext fun one => ih rest one)

theorem shown_chars {p : Page UInt8} {s : Console.State} (shown : Console.Shown p s) (text : Bytes) :
    ∃ s', Console.putAll text s = some s' ∧ Console.Shown (drawAll (chars text) p) s' := by
  obtain ⟨s',put,_,last⟩ := shown.putAll text
  rw [drawAll_chars]
  exact ⟨s',put,last⟩

theorem perform_marks {p : Page UInt8} {s : Console.State} (shown : Console.Shown p s) {call : Call}
    {told : List Mark} (marked : marks call = some told) :
    ∃ s', perform call s = some s' ∧ Console.Shown (drawAll told p) s' := by
  cases call with
  | printChar c =>
    cases marked
    obtain ⟨s',placed,put⟩ := Console.vgaPutChar_put shown.window.onScreen c
    exact ⟨s',placed,shown.put put⟩
  | printString text =>
    obtain ⟨text,printed,rfl⟩ := Option.map_eq_some_iff.mp marked
    obtain ⟨s',put,last⟩ := shown_chars shown text
    exact ⟨s',(writeFrom_printed printed s).trans put,last⟩
  | printUtf8 text =>
    obtain ⟨text,read,rfl⟩ := Option.map_eq_some_iff.mp marked
    obtain ⟨s',put,last⟩ := shown_chars shown text
    exact ⟨s',(Console.vgaWriteUtf8_chars read s).trans put,last⟩
  | clearScreen =>
    cases marked
    obtain ⟨s',cleared,onScreen,color,home,blank⟩ := Console.vgaClear_blank s
    exact ⟨s',cleared,Console.shown_clear onScreen color home blank⟩
  | endOfInterrupt | executeCommand | file | entry =>
    cases marked
    exact ⟨s,rfl,shown⟩

theorem performAll_marks {p : Page UInt8} {s : Console.State} (shown : Console.Shown p s) {calls : List Call}
    {told : List Mark} (marked : marksAll calls = some told) :
    ∃ s', performAll calls s = some s' ∧ Console.Shown (drawAll told p) s' := by
  induction calls generalizing p s told with
  | nil =>
    cases marked
    exact ⟨s,rfl,shown⟩
  | cons call calls ih =>
    rw [Shell.marksAll_cons] at marked
    obtain ⟨first,here,rest⟩ := Option.bind_eq_some_iff.mp marked
    obtain ⟨later,there,rfl⟩ := Option.map_eq_some_iff.mp rest
    obtain ⟨one,performed,still⟩ := perform_marks shown here
    obtain ⟨s',done,last⟩ := ih still there
    rw [drawAll_append]
    exact ⟨s',by simp only [performAll,performed,Option.bind_eq_bind,Option.bind_some,done],last⟩

/-! One interrupt. -/

/-- The machine is in the state of the system. -/
structure Simulates (m : Machine) (t : System) : Prop where
  shell : Represents m.kernel.shell t.session
  editor : Holds m.kernel.editor t.draft
  shift : m.kernel.editor.shiftPressed = t.shift
  extended : m.kernel.editor.extendedKey = t.extended
  screen : Console.Shown t.page m.console

/-- The calls of an interrupt that entered a line, with the screen they leave. -/
theorem Simulates.drawn {m : Machine} {t : System} (sim : Simulates m t) {calls : List Call}
    {told : List Mark} (marked : marksAll calls = some told) : ∃ console,
      performAll (Shell.print "\n" :: calls ++ [.endOfInterrupt 1]) m.console = some console ∧
        Console.Shown (drawAll (.char Console.newline :: told) t.page) console := by
  have newline_told : marksAll (Shell.print "\n" :: calls) = some (.char Console.newline :: told) := by
    rw [Shell.marksAll_cons,marked]
    rfl
  obtain ⟨console,performed,shown⟩ := performAll_marks sim.screen newline_told
  exact ⟨console,performAll_end performed,shown⟩

theorem Simulates.enter_empty {m : Machine} {t : System} (sim : Simulates m t) {scancode : UInt8}
    (returned : Editor.handleScancode scancode m.kernel = Editor.handleEnter m.kernel)
    (empty : t.draft.line = []) : ∃ m' calls,
      press scancode m = some (m',calls) ∧ Simulates m' t.enter := by
  obtain ⟨e',entered,held,shift,extended⟩ := sim.editor.enter_empty empty
  have same : t.draft.enter historySize = t.draft := if_pos empty
  have answered : t.entered = (chars (Session.message .prompt t.session.language),t.session) :=
    if_pos empty
  obtain ⟨console,performed,shown⟩ := sim.drawn (Shell.prints_prompt m.kernel.shell)
  rw [← sim.shell.language] at shown
  refine ⟨_,_,press_returned (returned.trans entered) performed,?_⟩
  rw [System.enter,answered,same]
  exact ⟨sim.shell,held,shift.trans sim.shift,extended.trans sim.extended,shown⟩

theorem Simulates.enter_filled {m : Machine} {t : System} (sim : Simulates m t) {scancode : UInt8}
    (returned : Editor.handleScancode scancode m.kernel = Editor.handleEnter m.kernel)
    (filled : t.draft.line ≠ []) : ∃ m' calls,
      press scancode m = some (m',calls) ∧ Simulates m' t.enter := by
  obtain ⟨cmd,line,runs⟩ := sim.editor.enter_filled filled
  have kept := sim.editor.kept
  have typed : ∀ c ∈ cmd.bytes, c < 0x80 := by
    rw [line]
    exact fun c member => (kept.text c member).2.2.2
  have short : Vfs.Short cmd := by
    rw [Vfs.Short,line]
    exact Nat.lt_of_le_of_lt kept.line (by decide)
  obtain ⟨shell,calls,ran,told,represents⟩ := sim.shell.executeCommand short typed
  obtain ⟨e',entered,held,shift,extended⟩ := runs shell calls ran
  have answered : t.entered = Session.reply (Session.parse cmd.bytes) t.session := by
    rw [System.entered,if_neg filled,line]
  have whole : marksAll (.executeCommand cmd.pointer :: calls) = some t.entered.1 := by
    rw [Shell.marksAll_cons,told,answered]
    rfl
  obtain ⟨console,performed,shown⟩ := sim.drawn whole
  rw [← answered] at represents
  exact ⟨_,_,press_returned (returned.trans entered) performed,
    ⟨represents,held,shift.trans sim.shift,extended.trans sim.extended,shown⟩⟩

theorem Simulates.edited {m : Machine} {t : System} (sim : Simulates m t) {scancode : UInt8}
    {key : Key UInt8} {shift extended : Bool} (edit : key ≠ .enter)
    (handled : Editor.Handled scancode m.kernel t.draft key shift extended) : ∃ m' calls,
      press scancode m = some (m',calls) ∧ Simulates m' { t.edit key with shift, extended } := by
  obtain ⟨e',returned,held,isShift,isExtended⟩ := handled.edit edit
  obtain ⟨console,performed,shown⟩ := performAll_marks sim.screen (Shell.prints_chars (typedBy key t.draft))
  exact ⟨_,_,press_returned returned (performAll_end performed),
    ⟨sim.shell,held,isShift,isExtended,shown⟩⟩

/-- One interrupt of the keyboard is one step of the system. -/
theorem Simulates.press {m : Machine} {t : System} (sim : Simulates m t) (scancode : UInt8) :
    ∃ m' calls, Machine.press scancode m = some (m',calls) ∧ Simulates m' (t.press scancode) := by
  obtain ⟨key,shift,extended,decoded⟩ : ∃ key shift extended,
      decode scancode t.shift t.extended = (key,shift,extended) := ⟨_,_,_,rfl⟩
  have same := decoded
  rw [← sim.shift,← sim.extended] at same
  have handled := sim.editor.handleScancode scancode same
  simp only [System.press,decoded]
  cases key with
  | enter =>
    obtain ⟨returned,rfl,rfl⟩ := handled.enter rfl
    obtain ⟨m',calls,pressed,after⟩ : ∃ m' calls, Machine.press scancode m = some (m',calls) ∧
        Simulates m' t.enter := by
      by_cases empty : t.draft.line = []
      · exact sim.enter_empty returned empty
      · exact sim.enter_filled returned empty
    exact ⟨m',calls,pressed,⟨after.shell,after.editor,after.shift.trans sim.shift.symm,
      after.extended.trans sim.extended.symm,after.screen⟩⟩
  | nothing | char | erase | older | newer => exact sim.edited nofun handled

theorem Simulates.pressAll {m : Machine} {t : System} (sim : Simulates m t) (scancodes : List UInt8) :
    ∃ m' calls, Machine.pressAll scancodes m = some (m',calls) ∧ Simulates m' (t.pressAll scancodes) := by
  induction scancodes generalizing m t with
  | nil => exact ⟨m,[],rfl,sim⟩
  | cons scancode scancodes ih =>
    obtain ⟨one,calls,first,still⟩ := sim.press scancode
    obtain ⟨m',more,rest,last⟩ := ih still
    exact ⟨m',_,pressAll_cons first rest,last⟩

/-! From the first prompt on. -/

theorem prints_greeting (shell : Shell.State) :
    Prints (greeting shell) (System.greeting shell.language) := by
  have told := Shell.prints_print "128/128MB --- MEM  OK\n" (by decide)
    (Shell.prints_print "i386-X86  --- Heap OK\n" (by decide)
    (Shell.prints_print "HAL       --- Ready\n" (by decide)
    (Shell.prints_print "VFS       --- Ready\n" (by decide)
    (Shell.prints_message .welcome shell Shell.prints_nil))))
  have lines : literal "128/128MB --- MEM  OK\n" ++ (literal "i386-X86  --- Heap OK\n" ++
      literal "HAL       --- Ready\n") =
        literal "128/128MB --- MEM  OK\ni386-X86  --- Heap OK\nHAL       --- Ready\n" := by decide +kernel
  have whole := told.append (Shell.prints_prompt shell)
  rw [System.greeting,← lines,greeting]
  simpa only [List.append_assoc,List.append_nil] using whole

theorem boot_simulates (cpuid : Cpuid) (files : Vfs.FileSystem) (apps : App.AppManager EntryPoint)
    (console : Console.State) : ∃ m, boot cpuid files apps console = some m ∧
      Simulates m (.start (upTo 0 (Shell.vendor cpuid))) := by
  obtain ⟨vfs,text,started⟩ : ∃ vfs text, Vfs.init files = (vfs,text) := ⟨_,_,rfl⟩
  have table := Vfs.table_init files
  have announced : marks (.printString (some (text ++ [0]))) = some (chars text) := by
    cases started
    rfl
  rw [started] at table
  obtain ⟨cleared,first,on,color,home,blank⟩ := Console.vgaClear_blank console
  obtain ⟨told,second,still⟩ := perform_marks (Console.shown_clear on color home blank) announced
  obtain ⟨apps',registered,registry⟩ := Shell.registerBuiltinApps_registry apps
  have greeted : marksAll (Call.clearScreen :: greeting ⟨vfs,apps',I18n.loadedLanguage,cpuid⟩) =
      some (.clear :: chars (System.greeting I18n.loadedLanguage)) := by
    rw [Shell.marksAll_cons,prints_greeting]
    rfl
  obtain ⟨last,third,shown⟩ := performAll_marks still greeted
  rw [drawAll_clear] at shown
  refine ⟨⟨⟨⟨vfs,apps',I18n.loadedLanguage,cpuid⟩,Editor.loaded⟩,last⟩,?_,
    ⟨⟨⟨[],table,by simp [Ascii],rfl⟩,registry,rfl,rfl⟩,Editor.holds_loaded,rfl,rfl,shown⟩⟩
  rw [boot,first,Option.bind_eq_bind,Option.bind_some,started]
  dsimp only
  rw [second,Option.bind_eq_bind,Option.bind_some,registered,Option.bind_some,third]
  rfl

/-- What can be seen of the machine is what the system has. -/
structure Observed (m : Machine) (t : System) : Prop where
  screen : Console.Window t.page m.console
  line : upTo 0 m.kernel.editor.inputBuffer.toList = t.draft.line
  history : historyLines m.kernel.editor = t.draft.past
  language : m.kernel.shell.language = t.session.language
  read : ∀ path : CString, ∃ data, Vfs.read (some path.pointer) m.kernel.shell.vfs = some data ∧
    data.map (upTo 0) = Directory.content (Session.nameOf path.bytes) t.session.files
  listed : ∀ path, Vfs.list path m.kernel.shell.vfs = some (Session.answer .list t.session).1

theorem Simulates.observed {m : Machine} {t : System} (sim : Simulates m t) : Observed m t := by
  obtain ⟨live,table,_,same⟩ := sim.shell.files
  refine ⟨sim.screen.window,?_,historyLines_past sim.editor,sim.shell.language.symm,fun path => ?_,
    fun path => ?_⟩
  · exact (upTo_begins (Editor.Plain.noNul sim.editor.kept.text) sim.editor.line).2
  · obtain ⟨data,read,_,is_content⟩ := table.read (some path)
    exact ⟨data,read,is_content.trans (sim.shell.content path).symm⟩
  · rw [table.list_listing,← same]
    rfl

/-- After any scancodes the kernel is the system after them. -/
theorem kernel_is_system (cpuid : Cpuid) (files : Vfs.FileSystem) (apps : App.AppManager EntryPoint)
    (console : Console.State) : ∃ m₀, boot cpuid files apps console = some m₀ ∧
    ∀ scancodes, ∃ m calls, pressAll scancodes m₀ = some (m,calls) ∧
      Observed m (System.pressAll scancodes (.start (upTo 0 (Shell.vendor cpuid)))) := by
  obtain ⟨m₀,booted,sim⟩ := boot_simulates cpuid files apps console
  refine ⟨m₀,booted,fun scancodes => ?_⟩
  obtain ⟨m,calls,ran,after⟩ := sim.pressAll scancodes
  exact ⟨m,calls,ran,after.observed⟩

/-! The lines entered. -/

/-- The session and the draft, as functions of the keys alone. -/
theorem pressAll_lines (scancodes : List UInt8) (t : System) :
    (t.pressAll scancodes).draft =
        (typing lineSize historySize (keys scancodes t.shift t.extended) t.draft).1 ∧
      (t.pressAll scancodes).session = (Session.replyAll
        ((typing lineSize historySize (keys scancodes t.shift t.extended) t.draft).2.map Session.parse)
        t.session).2 := by
  induction scancodes generalizing t with
  | nil => exact ⟨rfl,rfl⟩
  | cons scancode scancodes ih =>
    obtain ⟨key,shift,extended,decoded⟩ : ∃ key shift extended,
        decode scancode t.shift t.extended = (key,shift,extended) := ⟨_,_,_,rfl⟩
    have step : t.press scancode = { t.key key with shift, extended } := by
      simp only [System.press,decoded]
    have draft : (t.key key).draft = t.draft.press lineSize historySize key := by
      cases key <;> rfl
    have session : (t.key key).session = (Session.replyAll
        ((t.draft.entered key).toList.map Session.parse) t.session).2 := by
      cases key with
      | enter =>
        simp only [System.key,System.enter,System.entered,Draft.entered]
        split_ifs <;> rfl
      | _ => rfl
    have rest := ih (t.press scancode)
    simp only [keys,decoded,typing,List.map_append,Session.replyAll_append]
    simp only [System.pressAll,List.foldl_cons,step,draft,session] at rest ⊢
    exact rest

/-- The files with their contents and the language depend on the lines that were run alone: the
language is the one that a line switched to last. -/
theorem session_of_lines (cpuid : Cpuid) (files : Vfs.FileSystem) (apps : App.AppManager EntryPoint)
    (console : Console.State) : ∃ m₀, boot cpuid files apps console = some m₀ ∧
    ∀ scancodes, ∃ m calls, pressAll scancodes m₀ = some (m,calls) ∧ ∃ after : Session.State,
      after = (Session.replyAll ((calls.filterMap executed).map Session.parse)
        ⟨[],I18n.loadedLanguage,upTo 0 (Shell.vendor cpuid)⟩).2 ∧
      m.kernel.shell.language = (((calls.filterMap executed).map Session.parse).filterMap
        Session.spoken).getLastD I18n.loadedLanguage ∧
      (∀ path : CString, ∃ data, Vfs.read (some path.pointer) m.kernel.shell.vfs = some data ∧
        data.map (upTo 0) = Directory.content (Session.nameOf path.bytes) after.files) ∧
      ∀ path, Vfs.list path m.kernel.shell.vfs = some (Session.answer .list after).1 := by
  obtain ⟨m₀,booted,sim⟩ := boot_simulates cpuid files apps console
  obtain ⟨again,same,sound,fresh⟩ := boot_sound cpuid files apps console
  rw [booted] at same
  cases same
  refine ⟨m₀,booted,fun scancodes => ?_⟩
  obtain ⟨m,calls,ran,after⟩ := sim.pressAll scancodes
  obtain ⟨again,others,repeated,_,lines⟩ := sound.pressAll scancodes
  rw [ran] at repeated
  cases repeated
  have session := (pressAll_lines scancodes (.start (upTo 0 (Shell.vendor cpuid)))).2
  have observed := after.observed
  rw [fresh] at lines
  have entered : calls.filterMap executed =
      (typing lineSize historySize (keys scancodes false false) .start).2 := lines
  refine ⟨m,calls,ran,_,rfl,?_,?_,?_⟩
  · rw [observed.language,session,Session.replyAll_language,entered]
    rfl
  · intro path
    obtain ⟨data,read,content⟩ := observed.read path
    rw [session] at content
    exact ⟨data,read,entered ▸ content⟩
  · intro path
    rw [observed.listed path,session,entered]
    rfl

end Xbtos.Machine
