import Xbtos.ShellLine
import Xbtos.ConsoleText
import Xbtos.AppRegistry
import Xbtos.VfsRefinement

/-! What executing a command can do: it shows something, switches the language, or makes
one call of the file system. Only four commands make calls that change files. -/
namespace Xbtos.Shell
open Foundation.Buffer Strings
open Vfs (FileSystem FileResult File Table Command pointerOf)
open I18n (Language MessageId)
open App (Registry Registration)

/-- A call that puts text on the screen, from memory that holds a terminator. The text may
also be the content of a file. -/
def Shows (live : List File) : Call → Prop
  | .printChar _ => True
  | .printString text => ∀ bytes ∈ text, 0 ∈ bytes
  | .printUtf8 text => (Console.utf8Chars 0 text).isSome ∨ ∃ file ∈ live, text = file.data.toList
  | .clearScreen => True
  | .entry _ _ => True
  | _ => False

/-- A call of the file system that changes files, with the command it is. -/
inductive Changes : FileCall → Command → FileResult → Prop
  | create (path : CString) (result : FileResult) :
      Changes (.create path.pointer result) (.create (some path)) result
  | write (path content : CString) (result : FileResult) :
      Changes (.write path.pointer content.pointer result) (.write (some path) (some content)) result
  | append (path content : CString) (result : FileResult) :
      Changes (.append path.pointer content.pointer result) (.append (some path) (some content)) result
  | remove (path : CString) (result : FileResult) :
      Changes (.remove path.pointer result) (.remove (some path)) result

def Asks : FileCall → Prop
  | .read _ _ => True
  | .stat _ _ => True
  | .list _ => True
  | _ => False

def writers : List String := ["touch ","rec ","append ","rm "]

/-- What a command brings to a file. -/
def brought : Command → Bytes
  | .write _ (some content) => content.bytes
  | .append _ (some content) => content.bytes
  | _ => []

inductive Executed (cmd : CString) (s : State) (live : List File) : State → List Call → Prop
  | shown (calls : List Call) (shows : ∀ c ∈ calls, Shows live c) : Executed cmd s live s calls
  | switched (language : Language) (calls : List Call) (shows : ∀ c ∈ calls, Shows live c) :
      Executed cmd s live { s with language } calls
  | asked (call : FileCall) (calls : List Call) (asks : Asks call)
      (shows : ∀ c ∈ calls, Shows live c) : Executed cmd s live s (.file call :: calls)
  | changed (call : FileCall) (command : Command) (result : FileResult) (vfs : FileSystem)
      (calls : List Call) (begins : ∃ word ∈ writers, literal word <+: cmd.bytes)
      (changes : Changes call command result) (part : brought command <:+ cmd.bytes)
      (returned : command.run s.vfs = some (result,vfs)) (shows : ∀ c ∈ calls, Shows live c) :
      Executed cmd s live { s with vfs } (.file call :: calls)

def Executes (cmd : CString) (s : State) (live : List File) (ran : Option (State × List Call)) : Prop :=
  ∃ s' calls, ran = some (s',calls) ∧ Executed cmd s live s' calls

/-! What is printed. -/

theorem messages_chars (language : Language) (id : MessageId) :
    (Console.utf8Chars 0 (I18n.text language id)).isSome = true := by
  cases language <;> cases id <;> decide +kernel

theorem shows_message (live : List File) (id : MessageId) (s : State) :
    Shows live (message id s) := .inl (messages_chars s.language id)

theorem shows_print (live : List File) (text : String) : Shows live (print text) := by
  rintro bytes ⟨⟩
  simp

theorem shows_prompt (live : List File) (s : State) : ∀ c ∈ prompt s, Shows live c := by
  simpa [prompt] using shows_message live .prompt s

theorem shows_report (live : List File) (done : MessageId) (result : FileResult) (s : State) :
    ∀ c ∈ report done result s, Shows live c := by
  cases result <;> simp [report,printFileResult,shows_message,shows_print]

theorem shows_done (live : List File) (done : MessageId) (result : FileResult) (s : State) :
    ∀ c ∈ report done result s ++ prompt s, Shows live c :=
  List.forall_mem_append.mpr ⟨shows_report live done result s,shows_prompt live s⟩

theorem shows_printUint (live : List File) (value : Nat) : ∀ c ∈ printUint value, Shows live c := by
  intro c member
  unfold printUint at member
  split_ifs at member
  · rw [List.mem_singleton.mp member]
    exact trivial
  · obtain ⟨digit,_,rfl⟩ := List.mem_map.mp member
    exact trivial

theorem vendor_terminated (cpuid : Cpuid) : 0 ∈ vendor cpuid := by simp [vendor]

theorem shows_runEntry (live : List File) (entry : EntryPoint) (manifest : App.AppManifest)
    (identifier : Bytes) :
    ∀ c ∈ runEntry (entry,App.contextOf manifest identifier), Shows live c := by
  cases entry
  have named : ∀ bytes ∈ App.pointerOf manifest.identifier, 0 ∈ bytes := by
    intro bytes member
    obtain ⟨name,_,rfl⟩ := Option.map_eq_some_iff.mp member
    simp [CString.pointer]
  have path : Shows live (.printString (some (App.containerOf identifier ++ [0]))) := by
    rintro bytes ⟨⟩
    simp
  have entered : Shows live (.entry .demoAppMain (App.contextOf manifest identifier)) := trivial
  simp only [runEntry,demoAppMain,List.forall_mem_cons,shows_print,true_and]
  exact ⟨entered,named,path,by simp⟩

/-! The commands. -/

theorem pointer_first (text : CString) : ∃ c, text.pointer[0]? = some c ∧ (c = 0 ↔ text.bytes = []) := by
  obtain ⟨bytes,after,noNul,fits⟩ := text
  cases bytes with
  | nil => exact ⟨0,rfl,by simp⟩
  | cons c bytes => exact ⟨c,rfl,by simpa using fun zero => noNul (by simp [zero])⟩

section
variable {s : State} {live : List File} {cmd args : CString}

/-- The arguments are the end of the command, behind the name of a command that changes files. -/
structure Arguments (cmd args : CString) : Prop where
  part : args.bytes <:+ cmd.bytes
  begins : ∃ word ∈ writers, literal word <+: cmd.bytes

theorem part_contentOf (args : CString) : (contentOf args).bytes <:+ args.bytes :=
  ((List.dropWhile_suffix _).trans (List.dropWhile_suffix _)).trans (List.dropWhile_suffix _)

theorem touch_pointer {result : FileResult} {vfs : FileSystem}
    (returned : (Command.create (some (skipped args))).run s.vfs = some (result,vfs)) :
    touch args.pointer s = some ({ s with vfs },
      .file (.create (skipped args).pointer result) :: (report .fileCreated result s ++ prompt s)) := by
  have created : Vfs.create (some (skipped args).pointer) s.vfs = some (result,vfs) := returned
  simp only [touch,skipSpaces_pointer,created,Option.bind_eq_bind,Option.bind_some]
  rfl

theorem rm_pointer {result : FileResult} {vfs : FileSystem}
    (returned : (Command.remove (some (skipped args))).run s.vfs = some (result,vfs)) :
    rm args.pointer s = some ({ s with vfs },
      .file (.remove (skipped args).pointer result) :: (report .fileDeleted result s ++ prompt s)) := by
  have removed : Vfs.remove (some (skipped args).pointer) s.vfs = some (result,vfs) := returned
  simp only [rm,skipSpaces_pointer,removed,Option.bind_eq_bind,Option.bind_some]
  rfl

theorem append_pointer {result : FileResult} {vfs : FileSystem}
    (returned : (Command.append (some (token (skipped args))) (some (contentOf args))).run s.vfs =
      some (result,vfs)) :
    append args.pointer s = some ({ s with vfs },
      .file (.append (token (skipped args)).pointer (contentOf args).pointer result) ::
        (report .fileWriteOk result s ++ prompt s)) := by
  have appended : Vfs.append (some (token (skipped args)).pointer) (some (contentOf args).pointer) s.vfs =
      some (result,vfs) := returned
  simp only [append,fileArguments_pointer,appended,Option.bind_eq_bind,Option.bind_some]
  rfl

theorem record_pointer {result : FileResult} {vfs : FileSystem}
    (named : (token (skipped args)).bytes ≠ []) (filled : (contentOf args).bytes ≠ [])
    (returned : (Command.write (some (token (skipped args))) (some (contentOf args))).run s.vfs =
      some (result,vfs)) :
    record args.pointer s = some ({ s with vfs },
      .file (.write (token (skipped args)).pointer (contentOf args).pointer result) ::
        (report .fileWriteOk result s ++ prompt s)) := by
  have written : Vfs.write (some (token (skipped args)).pointer) (some (contentOf args).pointer) s.vfs =
      some (result,vfs) := returned
  obtain ⟨a,first,emptyName⟩ := pointer_first (token (skipped args))
  obtain ⟨b,second,emptyContent⟩ := pointer_first (contentOf args)
  have usable : ¬(a = 0 ∨ b = 0) := by
    rw [emptyName,emptyContent]
    exact fun empty => empty.elim named filled
  simp only [record,fileArguments_pointer,first,second,usable,if_false,written,Option.bind_eq_bind,
    Option.bind_some]
  rfl

theorem record_usage (missing : (token (skipped args)).bytes = [] ∨ (contentOf args).bytes = []) :
    record args.pointer s = some (s,message .usageWrite s :: prompt s) := by
  obtain ⟨a,first,emptyName⟩ := pointer_first (token (skipped args))
  obtain ⟨b,second,emptyContent⟩ := pointer_first (contentOf args)
  rw [← emptyName,← emptyContent] at missing
  simp only [record,fileArguments_pointer,first,second,missing,if_true,Option.bind_eq_bind,
    Option.bind_some]
  rfl

theorem touch_executed (table : Table s.vfs live) (arguments : Arguments cmd args) :
    Executes cmd s live (touch args.pointer s) := by
  obtain ⟨result,vfs,returned,_⟩ :=
    table.command_meaning (.create (some (skipped args))) trivial
  exact ⟨_,_,touch_pointer returned,.changed _ _ result vfs _ arguments.begins
    (.create (skipped args) result) List.nil_suffix returned (shows_done live .fileCreated result s)⟩

theorem rm_executed (table : Table s.vfs live) (arguments : Arguments cmd args) :
    Executes cmd s live (rm args.pointer s) := by
  obtain ⟨result,vfs,returned,_⟩ :=
    table.command_meaning (.remove (some (skipped args))) trivial
  exact ⟨_,_,rm_pointer returned,.changed _ _ result vfs _ arguments.begins
    (.remove (skipped args) result) List.nil_suffix returned (shows_done live .fileDeleted result s)⟩

theorem record_executed (table : Table s.vfs live) (arguments : Arguments cmd args)
    (short : Vfs.Short (contentOf args)) : Executes cmd s live (record args.pointer s) := by
  by_cases missing : (token (skipped args)).bytes = [] ∨ (contentOf args).bytes = []
  · exact ⟨_,_,record_usage missing,.shown _
      (List.forall_mem_cons.mpr ⟨shows_message live _ s,shows_prompt live s⟩)⟩
  · rw [not_or] at missing
    obtain ⟨result,vfs,returned,_⟩ := table.command_meaning
      (.write (some (token (skipped args))) (some (contentOf args))) short
    exact ⟨_,_,record_pointer missing.1 missing.2 returned,.changed _ _ result vfs _ arguments.begins
      (.write (token (skipped args)) (contentOf args) result)
      ((part_contentOf args).trans arguments.part) returned (shows_done live .fileWriteOk result s)⟩

theorem append_executed (table : Table s.vfs live) (arguments : Arguments cmd args)
    (short : Vfs.Short (contentOf args)) : Executes cmd s live (append args.pointer s) := by
  obtain ⟨result,vfs,returned,_⟩ := table.command_meaning
    (.append (some (token (skipped args))) (some (contentOf args))) short
  exact ⟨_,_,append_pointer returned,.changed _ _ result vfs _ arguments.begins
    (.append (token (skipped args)) (contentOf args) result)
    ((part_contentOf args).trans arguments.part) returned (shows_done live .fileWriteOk result s)⟩

theorem read_live (table : Table s.vfs live) (path : CString) :
    ∃ content, Vfs.read (some path.pointer) s.vfs = some content ∧
      ∀ text ∈ content, ∃ file ∈ live, text = file.data.toList := by
  rcases table.find_content (some path) with ⟨missing,_⟩ | ⟨i,inside,found,_,_⟩
  · rw [pointerOf,Option.map_some] at missing
    exact ⟨none,by simp [Vfs.read,missing],by simp⟩
  · rw [pointerOf,Option.map_some] at found
    have slot := table.packed.slot inside
    exact ⟨some live[i].data.toList,by simp [Vfs.read,found,slot],
      by simpa using ⟨live[i],List.getElem_mem inside,rfl⟩⟩

theorem rdf_pointer (table : Table s.vfs live) {content : Option Bytes}
    (returned : Vfs.read (some (skipped args).pointer) s.vfs = some content) :
    ∃ calls, rdf args.pointer s = some (s,.file (.read (skipped args).pointer content) :: calls) ∧
      ∀ c ∈ calls, Shows live c := by
  cases content with
  | none =>
    refine ⟨message .fileNotFound s :: prompt s,?_,?_⟩
    · simp only [rdf,skipSpaces_pointer,returned,Option.bind_eq_bind,Option.bind_some]
      rfl
    · exact List.forall_mem_cons.mpr ⟨shows_message live _ s,shows_prompt live s⟩
  | some text =>
    obtain ⟨found,again,whole⟩ := read_live table (skipped args)
    rw [returned] at again
    cases again
    have text_shown : Shows live (.printUtf8 text) := .inr (whole text rfl)
    refine ⟨.printUtf8 text :: print "\n" :: prompt s,?_,?_⟩
    · simp only [rdf,skipSpaces_pointer,returned,Option.bind_eq_bind,Option.bind_some]
      rfl
    · simp only [List.forall_mem_cons,text_shown,shows_print,true_and]
      exact shows_prompt live s

theorem rdf_executed (table : Table s.vfs live) (args : CString) :
    Executes cmd s live (rdf args.pointer s) := by
  obtain ⟨content,returned,_⟩ := read_live table (skipped args)
  obtain ⟨calls,ran,shows⟩ := rdf_pointer table returned
  exact ⟨_,_,ran,.asked _ calls trivial shows⟩

theorem stat_pointer (table : Table s.vfs live) (args : CString) :
    ∃ result calls, stat args.pointer s = some (s,.file (.stat (skipped args).pointer result) :: calls) ∧
      ∀ c ∈ calls, Shows live c := by
  have path : pointerOf (some (skipped args)) = some (skipped args).pointer := rfl
  cases there : Semantics.FileMap.content (Vfs.norm (pointerOf (some (skipped args))))
      (Vfs.fileMap s.vfs) with
  | none =>
    have returned := table.stat_absent (some (skipped args)) unsetStat there
    rw [path] at returned
    refine ⟨.errNotFound,printFileResult .errNotFound s ++ prompt s,?_,
      shows_done live .fileCreated .errNotFound s⟩
    simp only [stat,skipSpaces_pointer,returned,Option.bind_eq_bind,Option.bind_some]
    rfl
  | some content =>
    obtain ⟨name,normal,returned⟩ := table.stat_present (some (skipped args)) unsetStat there
    rw [path] at returned
    have terminated : Shows live (.printString (some name.toList)) := by
      rintro bytes ⟨⟩
      have short := (Vfs.norm_valid normal).short
      exact mem_of_length_upTo (by rwa [name.length_toList])
    refine ⟨.ok,[print "Name: ",.printString (some name.toList),print "\nSize: "] ++
      printUint content.length ++ [print " bytes\n"] ++ prompt s,?_,?_⟩
    · simp only [stat,skipSpaces_pointer,returned,Option.bind_eq_bind,Option.bind_some]
      rfl
    · simp only [List.forall_mem_append,List.forall_mem_cons,shows_print,terminated,true_and]
      exact ⟨⟨⟨by simp,shows_printUint live _⟩,by simp⟩,shows_prompt live s⟩

theorem stat_executed (table : Table s.vfs live) (args : CString) :
    Executes cmd s live (stat args.pointer s) := by
  obtain ⟨result,calls,ran,shows⟩ := stat_pointer table args
  exact ⟨_,_,ran,.asked _ calls trivial shows⟩

theorem run_executed {regs : List (Registration EntryPoint)} (registry : Registry s.apps regs)
    (args : CString) : Executes cmd s live (run args.pointer s) := by
  cases present : App.registered regs (skipped args) with
  | none =>
    have launched := registry.launch_absent present
    refine ⟨_,_,?_,.shown ([print "App not found.\n"] ++ prompt s) ?_⟩
    · simp only [run,skipSpaces_pointer,launched,Option.bind_eq_bind,Option.bind_some]
      rfl
    · exact List.forall_mem_cons.mpr ⟨shows_print live _,shows_prompt live s⟩
  | some r =>
    obtain ⟨printed,terminated,launched⟩ := registry.launch_present present
    refine ⟨_,_,?_,.shown (printed.map .printString ++
      [(r.entry,App.contextOf r.manifest (skipped args).bytes)].flatMap runEntry ++ [] ++ prompt s) ?_⟩
    · simp only [run,skipSpaces_pointer,launched,Option.bind_eq_bind,Option.bind_some]
      rfl
    · simp only [List.forall_mem_append]
      refine ⟨⟨⟨fun c member => ?_,fun c member => ?_⟩,by simp⟩,shows_prompt live s⟩
      · obtain ⟨text,there,rfl⟩ := List.mem_map.mp member
        exact terminated text there
      · rw [List.flatMap_singleton] at member
        exact shows_runEntry live r.entry r.manifest _ c member

theorem setLanguageByName_pointer (name : CString) (language : Language) :
    ∃ known chosen, I18n.setLanguageByName (some name.pointer) language = some (known,chosen) := by
  simp (disch := decide) only [I18n.setLanguageByName,isWord_pointer,Option.bind_eq_bind,Option.bind_some]
  split_ifs <;> exact ⟨_,_,rfl⟩

theorem lang_executed (args : CString) :
    Executes cmd s live (lang args.pointer s) := by
  obtain ⟨known,chosen,named⟩ := setLanguageByName_pointer (skipped args) s.language
  refine ⟨_,_,?_,.switched chosen ((if known then
      if chosen = .zhCn then message .languageZh { s with language := chosen }
      else message .languageEn { s with language := chosen }
    else message .helpLang { s with language := chosen }) :: prompt { s with language := chosen }) ?_⟩
  · simp only [lang,skipSpaces_pointer,named,Option.bind_eq_bind,Option.bind_some]
    rfl
  · refine List.forall_mem_cons.mpr ⟨?_,shows_prompt live _⟩
    split_ifs <;> exact shows_message live _ _

/-! The dispatch. -/

theorem isWord_branch (cmd : CString) {word : String} (clean : 0 ∉ literal word)
    (yes no : Option (State × List Call)) :
    (do if ← I18n.isWord cmd.pointer word then yes else no) =
      if cmd.bytes = literal word then yes else no := by
  rw [isWord_pointer cmd clean,Option.bind_eq_bind,Option.bind_some]
  simp only [decide_eq_true_eq]

theorem startsWith_branch (cmd : CString) {word : Bytes} (clean : 0 ∉ word)
    (yes no : Option (State × List Call)) :
    (do if ← startsWith cmd.pointer (word ++ [0]) then yes else no) =
      if word <+: cmd.bytes then yes else no := by
  rw [startsWith_pointer cmd clean,Option.bind_eq_bind,Option.bind_some]
  simp only [decide_eq_true_eq]

theorem sysinfo_branch (cmd : CString) (yes no : Option (State × List Call)) :
    (do if (← I18n.isWord cmd.pointer "sysmit") || (← I18n.isWord cmd.pointer "sysinfo") then yes else no) =
      if cmd.bytes = literal "sysmit" ∨ cmd.bytes = literal "sysinfo" then yes else no := by
  rw [isWord_pointer cmd (by decide),isWord_pointer cmd (by decide)]
  simp only [Option.bind_eq_bind,Option.bind_some,Bool.or_eq_true,decide_eq_true_eq]

theorem arguments_from {cmd : CString} {word : Bytes} (n : Nat) (begins : word <+: cmd.bytes)
    (inside : n ≤ word.length) : cmd.pointer.drop n = (argsFrom n cmd).pointer :=
  drop_pointer (Nat.le_trans inside begins.length_le)

theorem Executes.ite {condition : Prop} [Decidable condition] {yes no : Option (State × List Call)}
    (first : condition → Executes cmd s live yes) (second : ¬condition → Executes cmd s live no) :
    Executes cmd s live (if condition then yes else no) := by
  by_cases holds : condition
  · rw [if_pos holds]
    exact first holds
  · rw [if_neg holds]
    exact second holds

theorem executes_shown {calls : List Call} (shows : ∀ c ∈ calls, Shows live c) :
    Executes cmd s live (some (s,calls)) := ⟨s,calls,rfl,.shown calls shows⟩

theorem lst_executed (table : Table s.vfs live) : Executes cmd s live (do
    let path := literal "/" ++ [0]
    let printed ← Vfs.list (some path) s.vfs
    return (s,.file (.list path) :: printed.map .printChar ++ prompt s)) := by
  obtain ⟨printed,listed⟩ : ∃ printed, Vfs.list (some (literal "/" ++ [0])) s.vfs = some printed :=
    ⟨_,table.list _⟩
  refine ⟨_,_,?_,.asked (.list (literal "/" ++ [0])) (printed.map .printChar ++ prompt s) trivial ?_⟩
  · simp only [listed,Option.bind_eq_bind,Option.bind_some]
    rfl
  · refine List.forall_mem_append.mpr ⟨fun c member => ?_,shows_prompt live s⟩
    obtain ⟨digit,_,rfl⟩ := List.mem_map.mp member
    exact trivial

theorem executeCommand_executed {regs : List (Registration EntryPoint)} (table : Table s.vfs live)
    (registry : Registry s.apps regs) (short : Vfs.Short cmd) :
    Executes cmd s live (executeCommand cmd.pointer s) := by
  have part : ∀ n, (argsFrom n cmd).bytes <:+ cmd.bytes := fun n => List.drop_suffix _ _
  have small : ∀ n, Vfs.Short (contentOf (argsFrom n cmd)) := fun n =>
    Nat.lt_of_le_of_lt ((part_contentOf _).trans (part n)).length_le short
  have cpu : Shows live (.printString (some (vendor s.cpuid))) := by
    rintro bytes ⟨⟩
    exact vendor_terminated s.cpuid
  have command : Shows live (.printString (some cmd.pointer)) := by
    rintro bytes ⟨⟩
    simp [CString.pointer]
  have cleared : Shows live .clearScreen := trivial
  unfold executeCommand
  rw [isWord_branch cmd (by decide)]
  refine Executes.ite (fun _ => executes_shown (by simp [prompt,shows_message,shows_print])) fun _ => ?_
  rw [isWord_branch cmd (by decide)]
  refine Executes.ite (fun _ => executes_shown (by simp [prompt,shows_message,cleared])) fun _ => ?_
  rw [isWord_branch cmd (by decide)]
  refine Executes.ite (fun _ => executes_shown (by simp [prompt,shows_message])) fun _ => ?_
  rw [sysinfo_branch]
  refine Executes.ite (fun _ => executes_shown (by simp [prompt,shows_message,shows_print,cpu])) fun _ => ?_
  rw [isWord_branch cmd (by decide)]
  refine Executes.ite (fun _ => lst_executed table) fun _ => ?_
  rw [startsWith_branch cmd (by decide)]
  refine Executes.ite (fun begins => ?_) fun _ => ?_
  · rw [arguments_from 5 begins (by decide)]
    exact touch_executed table ⟨part 5,_,by simp [writers],begins⟩
  rw [startsWith_branch cmd (by decide)]
  refine Executes.ite (fun begins => ?_) fun _ => ?_
  · rw [arguments_from 3 begins (by decide)]
    exact rdf_executed table _
  rw [startsWith_branch cmd (by decide)]
  refine Executes.ite (fun begins => ?_) fun _ => ?_
  · rw [arguments_from 3 begins (by decide)]
    exact record_executed table ⟨part 3,_,by simp [writers],begins⟩ (small 3)
  rw [startsWith_branch cmd (by decide)]
  refine Executes.ite (fun begins => ?_) fun _ => ?_
  · rw [arguments_from 6 begins (by decide)]
    exact append_executed table ⟨part 6,_,by simp [writers],begins⟩ (small 6)
  rw [startsWith_branch cmd (by decide)]
  refine Executes.ite (fun begins => ?_) fun _ => ?_
  · rw [arguments_from 2 begins (by decide)]
    exact rm_executed table ⟨part 2,_,by simp [writers],begins⟩
  rw [startsWith_branch cmd (by decide)]
  refine Executes.ite (fun begins => ?_) fun _ => ?_
  · rw [arguments_from 4 begins (by decide)]
    exact stat_executed table _
  rw [isWord_branch cmd (by decide)]
  refine Executes.ite (fun _ => executes_shown (by simp [prompt,shows_message])) fun _ => ?_
  rw [isWord_branch cmd (by decide)]
  refine Executes.ite (fun _ => executes_shown (by simp [prompt,shows_message,shows_print])) fun _ => ?_
  rw [startsWith_branch cmd (by decide)]
  refine Executes.ite (fun begins => ?_) fun _ => ?_
  · rw [arguments_from 3 begins (by decide)]
    exact run_executed registry _
  rw [startsWith_branch cmd (by decide)]
  refine Executes.ite (fun begins => ?_) fun _ => ?_
  · rw [arguments_from 4 begins (by decide)]
    exact lang_executed _
  exact executes_shown (by simp [prompt,shows_message,shows_print,command])

end

end Xbtos.Shell
