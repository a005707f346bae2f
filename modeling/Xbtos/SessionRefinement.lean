import Xbtos.MachineRun
import Xbtos.VfsDirectory
import Xbtos.ShellNames
import Xbtos.Semantics.Session

/-! The shell answers every line as a session does: what a command prints is the answer to its
request, and the files it leaves are those of the answer. -/
namespace Xbtos.Shell
open Foundation.Buffer Strings Semantics
open Vfs (FileSystem FileResult File Table Command listing norm pointerOf)
open I18n (Language MessageId)
open App (Registry)
open Session (Mark Request chars reply)

/-! What calls tell the terminal. -/

def marks : Call → Option (List Mark)
  | .printChar c => some [.char c]
  | .printString text => (Strings.printString (text.getD (literal "(null)" ++ [0]))).map chars
  | .printUtf8 text => (Console.utf8Chars 0 text).map chars
  | .clearScreen => some [.clear]
  | _ => some []

def marksAll : List Call → Option (List Mark)
  | [] => some []
  | call :: calls => do return (← marks call) ++ (← marksAll calls)

theorem marksAll_cons (call : Call) (calls : List Call) : marksAll (call :: calls) =
    (marks call).bind fun first => (marksAll calls).map (first ++ ·) := by
  rw [marksAll]
  cases marks call with
  | none => rfl
  | some first => cases marksAll calls <;> rfl

/-- Calls that put the text on the terminal. -/
def Prints (calls : List Call) (text : Bytes) : Prop := marksAll calls = some (chars text)

theorem chars_append (first second : Bytes) : chars (first ++ second) = chars first ++ chars second :=
  List.map_append

theorem prints_nil : Prints [] [] := rfl

theorem Prints.cons {call : Call} {calls : List Call} {text more : Bytes}
    (first : marks call = some (chars text)) (rest : Prints calls more) :
    Prints (call :: calls) (text ++ more) := by
  rw [Prints,marksAll_cons,first,rest,chars_append]
  rfl

theorem marksAll_append {first second : List Call} {told more : List Mark}
    (front : marksAll first = some told) (back : marksAll second = some more) :
    marksAll (first ++ second) = some (told ++ more) := by
  induction first generalizing told with
  | nil =>
    cases front
    exact back
  | cons call first ih =>
    rw [marksAll_cons] at front
    obtain ⟨one,here,rest⟩ := Option.bind_eq_some_iff.mp front
    obtain ⟨later,there,rfl⟩ := Option.map_eq_some_iff.mp rest
    rw [List.cons_append,marksAll_cons,here,Option.bind_some,ih there,Option.map_some,
      List.append_assoc]

theorem Prints.append {calls others : List Call} {text more : Bytes} (front : Prints calls text)
    (back : Prints others more) : Prints (calls ++ others) (text ++ more) := by
  rw [Prints,chars_append]
  exact marksAll_append front back

theorem prints_silent (call : Call) {calls : List Call} {text : Bytes} (silent : marks call = some [])
    (rest : Prints calls text) : Prints (call :: calls) text := .cons (show marks call = some (chars []) from silent) rest

theorem prints_string (text : CString) {calls : List Call} {more : Bytes} (rest : Prints calls more) :
    Prints (.printString (some text.pointer) :: calls) (text.bytes ++ more) :=
  .cons (congrArg (Option.map chars) (printString_text text.after text.noNul)) rest

theorem prints_print (text : String) (clean : 0 ∉ literal text) {calls : List Call} {more : Bytes}
    (rest : Prints calls more) : Prints (print text :: calls) (literal text ++ more) :=
  .cons (congrArg (Option.map chars) (printString_text [] clean)) rest

theorem messages_nonzero (language : Language) (id : MessageId) : ∀ c ∈ (match language with
    | .en => I18n.englishMessages id
    | .zhCn => I18n.chineseMessages id).toList, c ≠ '\x00' := by
  have checked : (match language with
      | .en => I18n.englishMessages id
      | .zhCn => I18n.chineseMessages id).toList.all (· != '\x00') = true := by
    cases language <;> cases id <;> decide +kernel
  exact fun c here => bne_iff_ne.mp (List.all_eq_true.mp checked c here)

theorem prints_message (id : MessageId) (s : State) {calls : List Call} {more : Bytes}
    (rest : Prints calls more) :
    Prints (message id s :: calls) (Session.message id s.language ++ more) := by
  have read := Console.utf8Chars_text (messages_nonzero s.language id) []
  have text : I18n.text s.language id = (match s.language with
      | .en => I18n.englishMessages id
      | .zhCn => I18n.chineseMessages id).toList.flatMap String.utf8EncodeChar ++ [0] := by
    cases s.language <;> rfl
  refine .cons ?_ rest
  rw [message,marks,text,read]
  rfl

theorem prints_prompt (s : State) : Prints (prompt s) (Session.message .prompt s.language) := by
  have one := prints_message .prompt s prints_nil
  rwa [List.append_nil] at one

theorem prints_chars (text : Bytes) : Prints (text.map .printChar) text := by
  induction text with
  | nil => rfl
  | cons c text ih => exact .cons (show marks (.printChar c) = some (chars [c]) from rfl) ih

theorem prints_printUint {value : Nat} (fits : value < 10^12) :
    Prints (printUint value) (Vfs.decimal value) := by
  unfold printUint Vfs.decimal
  split_ifs
  · rfl
  · rw [Vfs.reverseDigits_digits fits,List.nil_append]
    exact prints_chars _

theorem prints_report (done : MessageId) (result : FileResult) (s : State) :
    Prints (report done result s) (Session.outcome done s.language result) := by
  rw [← List.append_nil (Session.outcome done s.language result)]
  cases result with
  | ok => exact prints_message done s prints_nil
  | errNotFound => exact prints_message .fileNotFound s prints_nil
  | errExists | errFull | errInvalidName | errTooLarge => exact prints_print _ (by decide) prints_nil

/-! What the session is of. -/

/-- The shell has the files, the language and the processor of the session. -/
structure Represents (s : State) (a : Session.State) : Prop where
  files : ∃ live, Table s.vfs live ∧ Machine.Ascii live ∧ a.files = listing live
  apps : Registry s.apps [demoRegistration]
  language : a.language = s.language
  vendor : a.vendor = upTo 0 (vendor s.cpuid)

/-- A command that tells the terminal told, and leaves a shell of the session a'. -/
def Tells (ran : Option (State × List Call)) (told : List Mark × Session.State) : Prop :=
  ∃ s' calls, ran = some (s',calls) ∧ marksAll calls = some told.1 ∧ Represents s' told.2

theorem norm_nameOf (path : CString) : norm (some path.pointer) = Session.nameOf path.bytes := by
  have clean : 0 ∉ path.bytes.dropWhile Vfs.isPathSeparator := fun member =>
    path.noNul ((List.dropWhile_sublist _).mem member)
  unfold Session.nameOf
  dsimp only
  split_ifs with accepted
  · obtain ⟨nonempty,short,plain,noDot⟩ := accepted
    have noSeparator := fun c here => Bool.eq_false_iff.mpr (List.any_eq_false.mp plain c here)
    exact norm_valid_text path.after path.noNul ⟨nonempty,short,clean,noSeparator,noDot⟩
  · refine norm_invalid_text path.after path.noNul fun valid => accepted ?_
    have plain := List.any_eq_false.mpr fun c here => Bool.eq_false_iff.mp (valid.noSeparator c here)
    exact ⟨valid.nonempty,valid.short,plain,valid.noDot⟩

section
variable {s : State} {a : Session.State}

/-- A command that prints text and a prompt, and leaves the shell as it was. -/
theorem Represents.tells (rep : Represents s a) {calls : List Call} {text : Bytes}
    (printed : Prints calls text) :
    Tells (some (s,calls ++ prompt s)) (chars (text ++ Session.message .prompt a.language),a) := by
  refine ⟨s,_,rfl,?_,rep⟩
  rw [rep.language]
  exact printed.append (prints_prompt s)

/-- A command that makes one call of the file system and reports how it ended. -/
theorem Represents.changed (rep : Represents s a) (command : Command) (short : command.Short)
    (typed : ∀ c ∈ brought command, c < 0x80) (done : MessageId) :
    ∃ result vfs, command.run s.vfs = some (result,vfs) ∧ ∀ call,
      Tells (some ({ s with vfs },.file call :: (report done result s ++ prompt s)))
        (chars ((Session.changed done command.listed a).1 ++
          Session.message .prompt (Session.changed done command.listed a).2.language),
          (Session.changed done command.listed a).2) := by
  obtain ⟨live,table,ascii,same⟩ := rep.files
  rcases table.outcome command with ⟨long,_,_⟩ | ⟨result,vfs,live',returned,outcome⟩
  · exact absurd short long
  · have listed := outcome.listed table
    rw [← same] at listed
    refine ⟨result,vfs,returned,fun call => ⟨_,_,rfl,?_,?_⟩⟩
    · have told := (prints_report done result s).append (prints_prompt s)
      simp only [Session.changed,listed,rep.language]
      exact prints_silent (.file call) rfl told
    · simp only [Session.changed,listed]
      exact ⟨⟨live',outcome.table table,ascii.outcome typed outcome,rfl⟩,rep.apps,rep.language,
        rep.vendor⟩

/-! The commands that have arguments. -/

theorem Represents.touch (rep : Represents s a) (args : CString) :
    Tells (touch args.pointer s) (reply (.create (skipped args).bytes) a) := by
  obtain ⟨result,vfs,returned,tells⟩ := rep.changed (.create (some (skipped args)))
    trivial (by simp [brought]) .fileCreated
  have listed : Command.listed (.create (some (skipped args))) =
      Directory.create Vfs.maxFiles (Session.nameOf (skipped args).bytes) := by
    rw [← norm_nameOf]
    rfl
  rw [listed] at tells
  rw [touch_pointer returned]
  exact tells _

theorem Represents.rm (rep : Represents s a) (args : CString) :
    Tells (rm args.pointer s) (reply (.remove (skipped args).bytes) a) := by
  obtain ⟨result,vfs,returned,tells⟩ := rep.changed (.remove (some (skipped args)))
    trivial (by simp [brought]) .fileDeleted
  have listed : Command.listed (.remove (some (skipped args))) =
      Directory.remove (Session.nameOf (skipped args).bytes) := by
    rw [← norm_nameOf]
    rfl
  rw [listed] at tells
  rw [rm_pointer returned]
  exact tells _

theorem Represents.append (rep : Represents s a) {args : CString}
    (short : Vfs.Short (contentOf args)) (typed : ∀ c ∈ (contentOf args).bytes, c < 0x80) :
    Tells (append args.pointer s)
      (reply (.append (token (skipped args)).bytes (contentOf args).bytes) a) := by
  obtain ⟨result,vfs,returned,tells⟩ := rep.changed (.append (some (token (skipped args))) (some (contentOf args))) short typed .fileWriteOk
  have listed : Command.listed (.append (some (token (skipped args))) (some (contentOf args))) =
      Directory.update Vfs.maxFiles Vfs.fileDataSize (fun old => old ++ (contentOf args).bytes)
        (Session.nameOf (token (skipped args)).bytes) := by
    rw [← norm_nameOf]
    rfl
  rw [listed] at tells
  rw [append_pointer returned]
  exact tells _

theorem Represents.record (rep : Represents s a) {args : CString}
    (short : Vfs.Short (contentOf args)) (typed : ∀ c ∈ (contentOf args).bytes, c < 0x80) :
    Tells (record args.pointer s)
      (reply (.store (token (skipped args)).bytes (contentOf args).bytes) a) := by
  by_cases missing : (token (skipped args)).bytes = [] ∨ (contentOf args).bytes = []
  · have told := prints_message .usageWrite s prints_nil
    rw [record_usage missing]
    rw [List.append_nil,← rep.language] at told
    simp only [reply,Session.answer,missing,if_true,reduceCtorEq,if_false]
    exact rep.tells told
  · obtain ⟨result,vfs,returned,tells⟩ := rep.changed (.write (some (token (skipped args))) (some (contentOf args))) short typed .fileWriteOk
    have listed : Command.listed (.write (some (token (skipped args))) (some (contentOf args))) =
        Directory.update Vfs.maxFiles Vfs.fileDataSize (fun _ => (contentOf args).bytes)
          (Session.nameOf (token (skipped args)).bytes) := by
      rw [← norm_nameOf]
      rfl
    rw [listed] at tells
    have filled := not_or.mp missing
    rw [record_pointer filled.1 filled.2 returned]
    simp only [reply,Session.answer,missing,if_false,reduceCtorEq]
    exact tells _

/-! Reading. -/

theorem Represents.content (rep : Represents s a) (path : CString) :
    Directory.content (Session.nameOf path.bytes) a.files =
      FileMap.content (norm (pointerOf (some path))) (Vfs.fileMap s.vfs) := by
  obtain ⟨live,table,_,same⟩ := rep.files
  rw [same,table.listing_content,← norm_nameOf]
  rfl

theorem Represents.rdf (rep : Represents s a) (args : CString) :
    Tells (rdf args.pointer s) (reply (.read (skipped args).bytes) a) := by
  obtain ⟨live,table,ascii,_⟩ := rep.files
  have content := rep.content (skipped args)
  have path : pointerOf (some (skipped args)) = some (skipped args).pointer := rfl
  rcases table.find_content (some (skipped args)) with ⟨missing,absent⟩ | ⟨i,inside,found,_,present⟩
  · rw [path] at missing
    have read : Vfs.read (some (skipped args).pointer) s.vfs = some none := by simp [Vfs.read,missing]
    have told := prints_silent (.file (.read (skipped args).pointer none)) rfl
      (prints_message .fileNotFound s prints_nil)
    rw [absent] at content
    rw [List.append_nil,← rep.language] at told
    have ran : Shell.rdf args.pointer s = some (s,
        [.file (.read (skipped args).pointer none),message .fileNotFound s] ++ prompt s) := by
      simp only [Shell.rdf,skipSpaces_pointer,read,Option.bind_eq_bind,Option.bind_some]
      rfl
    simp only [ran,reply,Session.answer,content,reduceCtorEq,if_false]
    exact rep.tells told
  · rw [path] at found
    have slot := table.packed.slot inside
    have good := table.good live[i] (List.getElem_mem inside)
    have read : Vfs.read (some (skipped args).pointer) s.vfs = some (some live[i].data.toList) := by
      simp [Vfs.read,found,slot]
    obtain ⟨rest,split⟩ := upTo_split good.ended
    have plain : ∀ c ∈ Vfs.contentOf live[i], c ≠ 0 ∧ c < 0x80 := fun c member =>
      ⟨fun zero => notMem_upTo (0 : UInt8) live[i].data.toList (zero ▸ member),
        ascii live[i] (List.getElem_mem inside) c member⟩
    have shown : Console.utf8Chars 0 live[i].data.toList = some (Vfs.contentOf live[i]) := by
      rw [split]
      exact Console.utf8Chars_ascii rest plain
    have told := prints_silent (.file (.read (skipped args).pointer (some live[i].data.toList))) rfl
      (Prints.cons (show marks (.printUtf8 live[i].data.toList) = _ from congrArg (Option.map chars) shown)
        (prints_print "\n" (by decide) prints_nil))
    rw [List.append_nil] at told
    rw [present] at content
    have ran : Shell.rdf args.pointer s = some (s,
        [.file (.read (skipped args).pointer (some live[i].data.toList)),
          .printUtf8 live[i].data.toList,print "\n"] ++ prompt s) := by
      simp only [Shell.rdf,skipSpaces_pointer,read,Option.bind_eq_bind,Option.bind_some]
      rfl
    simp only [ran,reply,Session.answer,content,reduceCtorEq,if_false]
    exact rep.tells told

theorem prints_named {name : Bytes} (terminated : 0 ∈ name) {calls : List Call} {more : Bytes}
    (rest : Prints calls more) : Prints (.printString (some name) :: calls) (upTo 0 name ++ more) := by
  obtain ⟨after,split⟩ := upTo_split terminated
  have shown : Strings.printString name = some (upTo 0 name) := by
    conv_lhs => rw [split]
    exact printString_text after (notMem_upTo 0 name)
  exact .cons (congrArg (Option.map chars) shown) rest

theorem content_small {vfs : FileSystem} {live : List File} (table : Table vfs live) {path : CString}
    {text : Bytes} (there : FileMap.content (norm (pointerOf (some path))) (Vfs.fileMap vfs) = some text) :
    text.length < Vfs.fileDataSize := by
  rcases table.find_content (some path) with ⟨_,absent⟩ | ⟨i,inside,_,_,present⟩
  · rw [there] at absent
    cases absent
  · rw [there] at present
    cases present
    have good := table.good live[i] (List.getElem_mem inside)
    rw [← good.size]
    exact good.small

theorem Represents.stat (rep : Represents s a) (args : CString) :
    Tells (stat args.pointer s) (reply (.describe (skipped args).bytes) a) := by
  obtain ⟨live,table,_,_⟩ := rep.files
  have content := rep.content (skipped args)
  have path : pointerOf (some (skipped args)) = some (skipped args).pointer := rfl
  cases there : FileMap.content (norm (pointerOf (some (skipped args)))) (Vfs.fileMap s.vfs) with
  | none =>
    have returned := table.stat_absent (some (skipped args)) unsetStat there
    rw [path] at returned
    have told := prints_silent (.file (.stat (skipped args).pointer .errNotFound)) rfl
      (prints_message .fileNotFound s prints_nil)
    rw [there] at content
    rw [List.append_nil,← rep.language] at told
    have ran : Shell.stat args.pointer s = some (s,
        [.file (.stat (skipped args).pointer .errNotFound),message .fileNotFound s] ++ prompt s) := by
      simp only [Shell.stat,skipSpaces_pointer,returned,Option.bind_eq_bind,Option.bind_some]
      rfl
    have answered : Session.described (skipped args).bytes a =
        Session.message .fileNotFound a.language := by
      rw [Session.described,content]
      cases Session.nameOf (skipped args).bytes <;> rfl
    simp only [ran,reply,Session.answer,answered,reduceCtorEq,if_false]
    exact rep.tells told
  | some text =>
    obtain ⟨name,normal,returned⟩ := table.stat_present (some (skipped args)) unsetStat there
    rw [path] at returned normal
    rw [there] at content
    rw [norm_nameOf] at normal
    have terminated : 0 ∈ name.toList := by
      have short := (Vfs.norm_valid (show norm (pointerOf (some (skipped args))) = _ by
        rw [path,norm_nameOf]
        exact normal)).short
      exact mem_of_length_upTo (by rwa [name.length_toList])
    have small : text.length < 10^12 := Nat.lt_trans (content_small table there) (by decide)
    have told := prints_silent (.file (.stat (skipped args).pointer .ok)) rfl
      (prints_print "Name: " (by decide) (prints_named terminated
        (prints_print "\nSize: " (by decide) ((prints_printUint small).append
          (prints_print " bytes\n" (by decide) prints_nil)))))
    have ran : Shell.stat args.pointer s = some (s,.file (.stat (skipped args).pointer .ok) ::
        (print "Name: " :: .printString (some name.toList) :: print "\nSize: " ::
          (printUint text.length ++ [print " bytes\n"])) ++ prompt s) := by
      simp only [Shell.stat,skipSpaces_pointer,returned,Option.bind_eq_bind,Option.bind_some]
      simp
    have answered : Session.described (skipped args).bytes a = literal "Name: " ++
        (upTo 0 name.toList ++ (literal "\nSize: " ++ (Vfs.decimal text.length ++
          (literal " bytes\n" ++ [])))) := by
      rw [Session.described,content,normal]
      simp
    simp only [ran,reply,Session.answer,answered,reduceCtorEq,if_false]
    exact rep.tells told

/-! Applications and languages. -/

theorem registered_demo (identifier : CString) : App.registered [demoRegistration] identifier =
    if identifier.bytes = literal "com.xbtos.demo" then some demoRegistration else none := by
  have name : demoRegistration.name = literal "com.xbtos.demo" := rfl
  rw [App.registered,List.find?_cons,name]
  by_cases same : identifier.bytes = literal "com.xbtos.demo"
  · rw [if_pos same,decide_eq_true same.symm]
  · rw [if_neg same,decide_eq_false (Ne.symm same)]
    rfl

theorem launch_demo {m : App.AppManager EntryPoint} (registry : Registry m [demoRegistration])
    {identifier : CString} (same : identifier.bytes = literal "com.xbtos.demo") :
    App.launch (some identifier.pointer) m = some ⟨.ok,
      [some (literal "Launching app: " ++ [0]),some (literal "XBTOS Demo" ++ [0]),
        some (literal "\nSandbox: " ++ [0]),some (literal "/Applications/com/xbtos/demo.app" ++ [0]),
        some (literal "\n" ++ [0])],
      [(.demoAppMain,App.contextOf demo (literal "com.xbtos.demo"))]⟩ := by
  rcases registry.search identifier with ⟨absent,_⟩ | ⟨i,inside,here,found⟩
  · rw [registered_demo,if_pos same] at absent
    cases absent
  · have first : i = 0 := Nat.lt_one_iff.mp inside
    subst first
    have slot := registry.slot inside
    have container : App.containerOf (literal "com.xbtos.demo") =
        literal "/Applications/com/xbtos/demo.app" := by decide
    simp only [App.launch,found,slot,App.buildContainerPath_text,same,container,Option.bind_eq_bind,
      Option.bind_some]
    rw [App.contextOf,container]
    rfl

def demoContext : App.AppContext := App.contextOf demo (literal "com.xbtos.demo")

/-- What the launch of the demo application calls. -/
def demoLaunch : List Call :=
  [print "Launching app: ",print "XBTOS Demo",print "\nSandbox: ",
    print "/Applications/com/xbtos/demo.app",print "\n",.entry .demoAppMain demoContext,
    print "Hello from sandboxed app.\n",print "App ID: ",print "com.xbtos.demo",
    print "\nContainer: ",print "/Applications/com/xbtos/demo.app",print "\n"]

theorem prints_demoLaunch : Prints demoLaunch (Session.launched (literal "com.xbtos.demo")) := by
  have called := prints_print "Hello from sandboxed app.\n" (by decide) (prints_print "App ID: "
    (by decide) (prints_print "com.xbtos.demo" (by decide) (prints_print "\nContainer: " (by decide)
    (prints_print "/Applications/com/xbtos/demo.app" (by decide)
    (prints_print "\n" (by decide) prints_nil)))))
  have told := prints_print "Launching app: " (by decide) (prints_print "XBTOS Demo" (by decide)
    (prints_print "\nSandbox: " (by decide) (prints_print "/Applications/com/xbtos/demo.app" (by decide)
    (prints_print "\n" (by decide) (prints_silent (.entry .demoAppMain demoContext) rfl called)))))
  have text : literal "Launching app: " ++ (literal "XBTOS Demo" ++ (literal "\nSandbox: " ++
      (literal "/Applications/com/xbtos/demo.app" ++ (literal "\n" ++
      (literal "Hello from sandboxed app.\n" ++ (literal "App ID: " ++ (literal "com.xbtos.demo" ++
      (literal "\nContainer: " ++ (literal "/Applications/com/xbtos/demo.app" ++
      (literal "\n" ++ [])))))))))) = Session.launched (literal "com.xbtos.demo") := by decide +kernel
  rw [← text]
  exact told

theorem Represents.run (rep : Represents s a) (args : CString) :
    Tells (run args.pointer s) (reply (.launch (skipped args).bytes) a) := by
  by_cases same : (skipped args).bytes = literal "com.xbtos.demo"
  · have launched := launch_demo rep.apps same
    have container : App.containerOf (literal "com.xbtos.demo") =
        literal "/Applications/com/xbtos/demo.app" := by decide
    have ran : Shell.run args.pointer s = some (s,demoLaunch ++ prompt s) := by
      simp only [Shell.run,skipSpaces_pointer,launched,Option.bind_eq_bind,Option.bind_some,runEntry,
        demoAppMain,App.contextOf,container,List.flatMap_cons,List.flatMap_nil,demoLaunch,demoContext]
      rfl
    simp only [ran,reply,Session.answer,same,reduceCtorEq,if_false]
    exact rep.tells prints_demoLaunch
  · have absent : App.registered [demoRegistration] (skipped args) = none := by
      rw [registered_demo,if_neg same]
    have launched := rep.apps.launch_absent absent
    have told := prints_print "App not found.\n" (by decide) prints_nil
    have ran : Shell.run args.pointer s = some (s,[print "App not found.\n"] ++ prompt s) := by
      simp only [Shell.run,skipSpaces_pointer,launched,Option.bind_eq_bind,Option.bind_some]
      rfl
    simp only [ran,reply,Session.answer,Session.launched,same,reduceCtorEq,if_false]
    rw [List.append_nil] at told
    exact rep.tells told

theorem setLanguageByName_languageOf (name : CString) (language : Language) :
    I18n.setLanguageByName (some name.pointer) language =
      some ((Session.languageOf name.bytes).isSome,(Session.languageOf name.bytes).getD language) := by
  simp (disch := decide) only [I18n.setLanguageByName,isWord_pointer,Option.bind_eq_bind,
    Option.bind_some,decide_eq_true_eq]
  have zh : name.bytes ∈ [literal "zh",literal "cn",literal "zh-cn"] ↔ name.bytes = literal "zh" ∨
      name.bytes = literal "cn" ∨ name.bytes = literal "zh-cn" := by simp
  have en : name.bytes ∈ [literal "en",literal "us"] ↔
      name.bytes = literal "en" ∨ name.bytes = literal "us" := by simp
  simp only [Session.languageOf,zh,en,ite_or]
  split_ifs <;> rfl

theorem Represents.lang (rep : Represents s a) (args : CString) :
    Tells (lang args.pointer s) (reply (.speak (skipped args).bytes) a) := by
  have named := setLanguageByName_languageOf (skipped args) s.language
  cases known : Session.languageOf (skipped args).bytes with
  | none =>
    rw [known] at named
    have told := prints_message .helpLang s prints_nil
    have ran : Shell.lang args.pointer s = some (s,[message .helpLang s] ++ prompt s) := by
      simp only [Shell.lang,skipSpaces_pointer,named,Option.bind_eq_bind,Option.bind_some]
      rfl
    rw [List.append_nil,← rep.language] at told
    simp only [ran,reply,Session.answer,known,reduceCtorEq,if_false]
    exact rep.tells told
  | some language =>
    rw [known] at named
    have switched : Represents { s with language } { a with language } :=
      ⟨rep.files,rep.apps,rfl,rep.vendor⟩
    have told := prints_message (if language = .zhCn then .languageZh else .languageEn)
      { s with language } prints_nil
    have ran : Shell.lang args.pointer s = some ({ s with language },
        [message (if language = .zhCn then .languageZh else .languageEn) { s with language }] ++
          prompt { s with language }) := by
      simp only [Shell.lang,skipSpaces_pointer,named,Option.bind_eq_bind,Option.bind_some]
      cases language <;> rfl
    rw [List.append_nil] at told
    simp only [ran,reply,Session.answer,known,reduceCtorEq,if_false]
    exact switched.tells told

/-! The language of lines. -/

theorem parse_applied {cmd : CString} {name : Bytes} (noSpace : space ∉ name)
    (begins : name ++ [space] <+: cmd.bytes) : Session.parse cmd.bytes =
      Session.applied name (skipped (argsFrom name.length cmd)).bytes cmd.bytes := by
  obtain ⟨rest,is⟩ := begins
  rw [List.append_assoc,List.singleton_append] at is
  have args : (argsFrom name.length cmd).bytes = space :: rest := by
    simp only [argsFrom,tail,← is,List.drop_left]
  have argument : (skipped (argsFrom name.length cmd)).bytes = rest.dropWhile (· = space) := by
    show (argsFrom name.length cmd).bytes.dropWhile (· = space) = _
    rw [args,List.dropWhile_cons_of_pos (by simp)]
  have front : cmd.bytes.takeWhile (· ≠ Console.space) = name := by
    rw [← is]
    exact (takeWhile_token noSpace rest).1
  have back : cmd.bytes.dropWhile (· ≠ Console.space) = space :: rest := by
    rw [← is]
    exact (takeWhile_token noSpace rest).2
  rw [argument,Session.parse,back,front]
  rfl

/-- The names of the commands that take an argument. -/
def applicable : List String := ["touch","rdf","rec","append","rm","stat","run","lang"]

def wordsAlone : List String := ["help","clear","about","sysmit","sysinfo","lst","dirs","apps"]

theorem parse_other {line : Bytes} (noWord : ∀ word ∈ wordsAlone, line ≠ literal word)
    (noName : ∀ name ∈ applicable, ¬literal name ++ [space] <+: line) :
    Session.parse line = .other line := by
  have split : line.takeWhile (· ≠ Console.space) ++ line.dropWhile (· ≠ Console.space) = line :=
    List.takeWhile_append_dropWhile
  rw [Session.parse]
  cases behind : line.dropWhile (· ≠ Console.space) with
  | nil =>
    simp only [wordsAlone,List.forall_mem_cons] at noWord
    obtain ⟨a,b,c,d,e,f,g,h,_⟩ := noWord
    simp only [Session.single,List.mem_cons,List.not_mem_nil,a,b,c,d,e,f,g,h,or_self,if_false]
  | cons first rest =>
    have blank : first = Console.space := by
      have stops := List.head?_dropWhile_not (fun c => decide (c ≠ Console.space)) line
      rw [behind] at stops
      simpa using stops
    have apart : ∀ name ∈ applicable, line.takeWhile (· ≠ Console.space) ≠ literal name := by
      intro name member same
      rw [behind,blank,same] at split
      apply noName name member
      refine ⟨rest,?_⟩
      rw [List.append_assoc]
      exact split
    simp only [applicable,List.forall_mem_cons] at apart
    obtain ⟨a,b,c,d,e,f,g,h,_⟩ := apart
    simp only [Session.applied,a,b,c,d,e,f,g,h,if_false]

/-! The dispatch. -/

theorem Tells.ite {condition : Prop} [Decidable condition] {yes no : Option (State × List Call)}
    {told : List Mark × Session.State} (first : condition → Tells yes told)
    (second : ¬condition → Tells no told) : Tells (if condition then yes else no) told := by
  by_cases holds : condition
  · rw [if_pos holds]
    exact first holds
  · rw [if_neg holds]
    exact second holds

theorem Represents.lst (rep : Represents s a) : Tells (do
    let path := literal "/" ++ [0]
    let printed ← Vfs.list (some path) s.vfs
    return (s,.file (.list path) :: printed.map .printChar ++ prompt s)) (reply .list a) := by
  obtain ⟨live,table,_,same⟩ := rep.files
  have listed := table.list_listing (some (literal "/" ++ [0]))
  have told := prints_silent (.file (.list (literal "/" ++ [0]))) rfl (prints_chars
    (if a.files = [] then literal " (empty)\n"
      else (a.files.map fun e => Vfs.listLine e.1 e.2).flatten))
  rw [← same] at listed
  simp only [listed,Option.bind_eq_bind,Option.bind_some,reply,Session.answer,reduceCtorEq,if_false]
  exact rep.tells told

/-- A line that only prints. -/
theorem Represents.prints (rep : Represents s a) {line : Bytes} (request : Request)
    {calls : List Call} {text : Bytes} (parsed : Session.parse line = request)
    (other : request ≠ .clear) (answered : Session.answer request a = (text,a))
    (printed : Prints calls text) :
    Tells (some (s,calls ++ prompt s)) (reply (Session.parse line) a) := by
  simp only [parsed,reply,other,answered,if_false]
  exact rep.tells printed

theorem Represents.help (rep : Represents s a) {line : Bytes} (is : line = literal "help") :
    Tells (some (s,[message .helpHeader s,message .helpCore s,message .helpFiles s,message .helpLang s,
      print " apps run <app-id>\n"] ++ prompt s)) (reply (Session.parse line) a) := by
  have told := prints_message .helpHeader s (prints_message .helpCore s (prints_message .helpFiles s
    (prints_message .helpLang s (prints_print " apps run <app-id>\n" (by decide) prints_nil))))
  refine rep.prints .help (by rw [is]; decide) nofun ?_ told
  simp only [Session.answer,rep.language,List.append_assoc,List.append_nil]

theorem Represents.clear (rep : Represents s a) {line : Bytes} (is : line = literal "clear") :
    Tells (some (s,[.clearScreen,message .welcome s] ++ prompt s)) (reply (Session.parse line) a) := by
  have parsed : Session.parse line = .clear := by rw [is]; decide
  obtain ⟨s',calls,ran,told,kept⟩ := rep.tells (prints_message .welcome s prints_nil)
  cases ran
  refine ⟨s,_,rfl,?_,by rw [parsed]; exact rep⟩
  rw [List.cons_append,marksAll_cons,told,parsed,List.append_nil,← rep.language]
  rfl

theorem Represents.about (rep : Represents s a) {line : Bytes} (is : line = literal "about") :
    Tells (some (s,message .about s :: prompt s)) (reply (Session.parse line) a) := by
  refine rep.prints .about (by rw [is]; decide) nofun ?_
    (prints_message .about s prints_nil)
  simp only [Session.answer,rep.language,List.append_nil]

theorem Represents.system (rep : Represents s a) {line : Bytes}
    (is : line = literal "sysmit" ∨ line = literal "sysinfo") :
    Tells (some (s,[message .sysinfoHeader s,
      print "OS: XBTOS-LC Alpha 1029\nArchitecture: x86 protected mode\nCPU Vendor: ",
        .printString (some (Shell.vendor s.cpuid)),print "\n"] ++ prompt s)) (reply (Session.parse line) a) := by
  have told := prints_message .sysinfoHeader s (prints_print
    "OS: XBTOS-LC Alpha 1029\nArchitecture: x86 protected mode\nCPU Vendor: " (by decide)
    (prints_named (vendor_terminated s.cpuid) (prints_print "\n" (by decide) prints_nil)))
  refine rep.prints .system (by rcases is with rfl | rfl <;> decide) nofun ?_ told
  simp only [Session.answer,rep.language,rep.vendor,List.append_assoc,List.append_nil]

theorem Represents.dirs (rep : Represents s a) {line : Bytes} (is : line = literal "dirs") :
    Tells (some (s,message .currentPath s :: prompt s)) (reply (Session.parse line) a) := by
  refine rep.prints .path (by rw [is]; decide) nofun ?_
    (prints_message .currentPath s prints_nil)
  simp only [Session.answer,rep.language,List.append_nil]

theorem Represents.installed (rep : Represents s a) {line : Bytes} (is : line = literal "apps") :
    Tells (some (s,[print "Installed apps:\n",print " - com.xbtos.demo\n"] ++ prompt s))
      (reply (Session.parse line) a) :=
  rep.prints .apps (by rw [is]; decide) nofun rfl
    (prints_print _ (by decide) (prints_print _ (by decide) prints_nil))

theorem Represents.unknown (rep : Represents s a) {cmd : CString}
    (noWord : ∀ word ∈ wordsAlone, cmd.bytes ≠ literal word)
    (noName : ∀ name ∈ applicable, ¬literal name ++ [space] <+: cmd.bytes) :
    Tells (some (s,[message .unknownCommand s,.printString (some cmd.pointer),print "\n"] ++ prompt s))
      (reply (Session.parse cmd.bytes) a) := by
  have told := prints_message .unknownCommand s (prints_string cmd
    (prints_print "\n" (by decide) prints_nil))
  refine rep.prints (.other cmd.bytes) (parse_other noWord noName) nofun ?_ told
  simp only [Session.answer,rep.language,List.append_assoc,List.append_nil]

/-- A command whose name begins the line. -/
theorem applied_branch (word : String) {cmd : CString} {n : Nat} {request : Bytes → Request}
    {command : Bytes → State → Option (State × List Call)} (length : (literal word).length = n)
    (noSpace : space ∉ literal word) (begins : literal word ++ [space] <+: cmd.bytes)
    (applied : ∀ argument line, Session.applied (literal word) argument line = request argument)
    (tells : Tells (command (argsFrom n cmd).pointer s) (reply (request (skipped (argsFrom n cmd)).bytes) a)) :
    Tells (command (cmd.pointer.drop n) s) (reply (Session.parse cmd.bytes) a) := by
  subst length
  rw [arguments_from _ begins (by simp),parse_applied noSpace begins,applied]
  exact tells

theorem Represents.executeCommand (rep : Represents s a) {cmd : CString} (short : Vfs.Short cmd)
    (typed : ∀ c ∈ cmd.bytes, c < 0x80) :
    Tells (executeCommand cmd.pointer s) (reply (Session.parse cmd.bytes) a) := by
  have small : ∀ n, Vfs.Short (contentOf (argsFrom n cmd)) := fun n => short_contentOf n short
  have plain : ∀ n, ∀ c ∈ (contentOf (argsFrom n cmd)).bytes, c < 0x80 := fun n c member =>
    typed c (((part_contentOf _).trans (List.drop_suffix n _)).subset member)
  unfold Shell.executeCommand
  rw [isWord_branch cmd (by decide)]
  refine Tells.ite rep.help fun noHelp => ?_
  rw [isWord_branch cmd (by decide)]
  refine Tells.ite rep.clear fun noClear => ?_
  rw [isWord_branch cmd (by decide)]
  refine Tells.ite rep.about fun noAbout => ?_
  rw [sysinfo_branch]
  refine Tells.ite rep.system fun noSystem => ?_
  rw [isWord_branch cmd (by decide)]
  refine Tells.ite (fun is => ?_) fun noList => ?_
  · have parsed : Session.parse cmd.bytes = .list := by rw [is]; decide
    rw [parsed]
    exact rep.lst
  rw [startsWith_branch cmd (by decide)]
  refine Tells.ite (fun begins => ?_) fun noTouch => ?_
  · exact applied_branch "touch" rfl (by decide) begins (fun _ _ => rfl) (rep.touch _)
  rw [startsWith_branch cmd (by decide)]
  refine Tells.ite (fun begins => ?_) fun noRdf => ?_
  · exact applied_branch "rdf" rfl (by decide) begins (fun _ _ => rfl) (rep.rdf _)
  rw [startsWith_branch cmd (by decide)]
  refine Tells.ite (fun begins => ?_) fun noRec => ?_
  · rw [arguments_from 3 begins (by decide),@parse_applied cmd (literal "rec") (by decide) begins]
    exact rep.record (small 3) (plain 3)
  rw [startsWith_branch cmd (by decide)]
  refine Tells.ite (fun begins => ?_) fun noAppend => ?_
  · rw [arguments_from 6 begins (by decide),@parse_applied cmd (literal "append") (by decide) begins]
    exact rep.append (small 6) (plain 6)
  rw [startsWith_branch cmd (by decide)]
  refine Tells.ite (fun begins => ?_) fun noRm => ?_
  · exact applied_branch "rm" rfl (by decide) begins (fun _ _ => rfl) (rep.rm _)
  rw [startsWith_branch cmd (by decide)]
  refine Tells.ite (fun begins => ?_) fun noStat => ?_
  · exact applied_branch "stat" rfl (by decide) begins (fun _ _ => rfl) (rep.stat _)
  rw [isWord_branch cmd (by decide)]
  refine Tells.ite rep.dirs fun noDirs => ?_
  rw [isWord_branch cmd (by decide)]
  refine Tells.ite rep.installed fun noApps => ?_
  rw [startsWith_branch cmd (by decide)]
  refine Tells.ite (fun begins => ?_) fun noRun => ?_
  · exact applied_branch "run" rfl (by decide) begins (fun _ _ => rfl) (rep.run _)
  rw [startsWith_branch cmd (by decide)]
  refine Tells.ite (fun begins => ?_) fun noLang => ?_
  · exact applied_branch "lang" rfl (by decide) begins (fun _ _ => rfl) (rep.lang _)
  rw [not_or] at noSystem
  refine rep.unknown ?_ ?_
  · simp only [wordsAlone,List.forall_mem_cons]
    exact ⟨noHelp,noClear,noAbout,noSystem.1,noSystem.2,noList,noDirs,noApps,by simp⟩
  · simp only [applicable,List.forall_mem_cons]
    exact ⟨noTouch,noRdf,noRec,noAppend,noRm,noStat,noRun,noLang,by simp⟩

end

end Xbtos.Shell
