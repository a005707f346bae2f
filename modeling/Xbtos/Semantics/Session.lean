import Xbtos.VfsRefinement
import Xbtos.ConsoleUtf8
import Xbtos.I18n
import Xbtos.Semantics.Directory

/-! What the shell is for, stated on whole lines: a line is a request, a request is answered out
of a directory of files and a language, and an answer is what a terminal is told. -/
namespace Xbtos.Semantics.Session
open Strings
open Vfs (FileResult maxFiles fileDataSize fileNameSize isPathSeparator dot listLine decimal)
open I18n (Language MessageId)
open Console (space shownAs)
open Directory (Entries)
open Foundation.EntryMap

inductive Mark
  | char (c : UInt8)
  | clear
deriving DecidableEq

inductive Request
  | help | clear | about | system | list | path | apps
  | create (path : Bytes)
  | read (path : Bytes)
  | store (path content : Bytes)
  | append (path content : Bytes)
  | remove (path : Bytes)
  | describe (path : Bytes)
  | launch (identifier : Bytes)
  | speak (language : Bytes)
  | other (line : Bytes)
deriving DecidableEq

structure State where
  files : Entries Bytes UInt8
  language : Language
  vendor : Bytes

/-! The language of lines. -/

/-- A line of one word. -/
def single (line : Bytes) : Request :=
  if line = literal "help" then .help
  else if line = literal "clear" then .clear
  else if line = literal "about" then .about
  else if line ∈ [literal "sysmit",literal "sysinfo"] then .system
  else if line = literal "lst" then .list
  else if line = literal "dirs" then .path
  else if line = literal "apps" then .apps
  else .other line

/-- The first word of an argument, as far as it fits a file name, and the text behind it. -/
def pair (request : Bytes → Bytes → Request) (argument : Bytes) : Request :=
  request ((argument.takeWhile (· ≠ space)).take (fileNameSize - 1))
    ((argument.dropWhile (· ≠ space)).dropWhile (· = space))

/-- A line that begins with a word and a space. -/
def applied (word argument line : Bytes) : Request :=
  if word = literal "touch" then .create argument
  else if word = literal "rdf" then .read argument
  else if word = literal "rec" then pair .store argument
  else if word = literal "append" then pair .append argument
  else if word = literal "rm" then .remove argument
  else if word = literal "stat" then .describe argument
  else if word = literal "run" then .launch argument
  else if word = literal "lang" then .speak argument
  else .other line

def parse (line : Bytes) : Request :=
  match line.dropWhile (· ≠ space) with
  | [] => single line
  | _ :: rest => applied (line.takeWhile (· ≠ space)) (rest.dropWhile (· = space)) line

/-! The answers. -/

/-- The name of the file a path stands for. -/
def nameOf (path : Bytes) : Option Bytes :=
  let name := path.dropWhile isPathSeparator
  if name ≠ [] ∧ name.length < fileNameSize ∧ name.any isPathSeparator = false ∧
    name.head? ≠ some dot then some name else none

def message (id : MessageId) (language : Language) : Bytes :=
  (match language with
    | .en => I18n.englishMessages id
    | .zhCn => I18n.chineseMessages id).toList.map shownAs

def outcome (done : MessageId) (language : Language) : FileResult → Bytes
  | .ok => message done language
  | .errNotFound => message .fileNotFound language
  | .errExists => literal "File already exists.\n"
  | .errFull => literal "File table is full.\n"
  | .errInvalidName => literal "Invalid file name.\n"
  | .errTooLarge => literal "File content is too large.\n"

def changed (done : MessageId) (change : Entries Bytes UInt8 → FileResult × Entries Bytes UInt8)
    (s : State) : Bytes × State :=
  let (result,files) := change s.files
  (outcome done s.language result,{ s with files })

def described (path : Bytes) (s : State) : Bytes :=
  match nameOf path, Directory.content (nameOf path) s.files with
  | some name, some content => literal "Name: " ++ name ++ literal "\nSize: " ++
      decimal content.length ++ literal " bytes\n"
  | _, _ => message .fileNotFound s.language

def languageOf (name : Bytes) : Option Language :=
  if name ∈ [literal "zh",literal "cn",literal "zh-cn"] then some .zhCn
  else if name ∈ [literal "en",literal "us"] then some .en
  else none

def launched (identifier : Bytes) : Bytes :=
  if identifier = literal "com.xbtos.demo" then
    literal "Launching app: XBTOS Demo\nSandbox: /Applications/com/xbtos/demo.app\n" ++
      literal "Hello from sandboxed app.\nApp ID: com.xbtos.demo\n" ++
      literal "Container: /Applications/com/xbtos/demo.app\n"
  else literal "App not found.\n"

/-- What is printed for a request, and the state afterwards. -/
def answer : Request → State → Bytes × State
  | .help, s => (message .helpHeader s.language ++ message .helpCore s.language ++
      message .helpFiles s.language ++ message .helpLang s.language ++
      literal " apps run <app-id>\n",s)
  | .clear, s => (message .welcome s.language,s)
  | .about, s => (message .about s.language,s)
  | .system, s => (message .sysinfoHeader s.language ++
      literal "OS: XBTOS-LC Alpha 1029\nArchitecture: x86 protected mode\nCPU Vendor: " ++ s.vendor ++
      literal "\n",s)
  | .list, s => (if s.files = [] then literal " (empty)\n"
      else (s.files.map fun e => listLine e.1 e.2).flatten,s)
  | .path, s => (message .currentPath s.language,s)
  | .apps, s => (literal "Installed apps:\n - com.xbtos.demo\n",s)
  | .create path, s => changed .fileCreated (Directory.create maxFiles (nameOf path)) s
  | .read path, s => (match Directory.content (nameOf path) s.files with
      | some content => content ++ literal "\n"
      | none => message .fileNotFound s.language,s)
  | .store path content, s =>
    if path = [] ∨ content = [] then (message .usageWrite s.language,s)
    else changed .fileWriteOk
      (Directory.update maxFiles fileDataSize (fun _ => content) (nameOf path)) s
  | .append path content, s => changed .fileWriteOk
      (Directory.update maxFiles fileDataSize (fun old => old ++ content) (nameOf path)) s
  | .remove path, s => changed .fileDeleted (Directory.remove (nameOf path)) s
  | .describe path, s => (described path s,s)
  | .launch identifier, s => (launched identifier,s)
  | .speak name, s => match languageOf name with
      | some language => (message (if language = .zhCn then .languageZh else .languageEn) language,
          { s with language })
      | none => (message .helpLang s.language,s)
  | .other line, s => (message .unknownCommand s.language ++ line ++ literal "\n",s)

def chars (text : Bytes) : List Mark := text.map .char

/-- What the terminal is told for a request, a prompt included, and the state afterwards. -/
def reply (request : Request) (s : State) : List Mark × State :=
  let (text,s') := answer request s
  let marks := chars (text ++ message .prompt s'.language)
  (if request = .clear then .clear :: marks else marks,s')

example : parse (literal "rec  a/b  c d ") = .store (literal "a/b") (literal "c d ") ∧
    parse (literal "help ") = .other (literal "help ") := by decide

/-- The requests in turn, with all that the terminal is told. -/
def replyAll : List Request → State → List Mark × State
  | [], s => ([],s)
  | request :: requests, s =>
    let (told,s) := reply request s
    let (more,s) := replyAll requests s
    (told ++ more,s)

/-! What a request leaves alone. -/

/-- The file that a request may change. -/
def target : Request → Option Bytes
  | .create path => nameOf path
  | .store path _ => nameOf path
  | .append path _ => nameOf path
  | .remove path => nameOf path
  | _ => none

/-- The language that a request switches to. -/
def spoken : Request → Option Language
  | .speak name => languageOf name
  | _ => none

theorem reply_state (request : Request) (s : State) : (reply request s).2 = (answer request s).2 := rfl

/-- The change that a request makes to the directory, and what it says when that is done. -/
def change : Request → Option (MessageId × (Entries Bytes UInt8 → FileResult × Entries Bytes UInt8))
  | .create path => some (.fileCreated,Directory.create maxFiles (nameOf path))
  | .store path content =>
    if path = [] ∨ content = [] then none
    else some (.fileWriteOk,Directory.update maxFiles fileDataSize (fun _ => content) (nameOf path))
  | .append path content => some (.fileWriteOk,
      Directory.update maxFiles fileDataSize (fun old => old ++ content) (nameOf path))
  | .remove path => some (.fileDeleted,Directory.remove (nameOf path))
  | _ => none

theorem answer_files (request : Request) (s : State) : (answer request s).2.files =
    match change request with
    | some (_,step) => (step s.files).2
    | none => s.files := by
  cases request with
  | store path content =>
    simp only [answer,change]
    split_ifs <;> rfl
  | speak name =>
    simp only [answer,change]
    cases languageOf name <;> rfl
  | _ => rfl

theorem distinct_answer {s : State} (distinct : Distinct Prod.fst s.files) (request : Request) :
    Distinct Prod.fst (answer request s).2.files := by
  rw [answer_files]
  cases request with
  | create path => exact Directory.distinct_create distinct _ _
  | store path content =>
    simp only [change]
    split_ifs
    · exact distinct
    · exact Directory.distinct_update distinct _ _ _ _
  | append path content => exact Directory.distinct_update distinct _ _ _ _
  | remove path => exact Directory.distinct_remove distinct _
  | _ => exact distinct

theorem answer_others {s : State} (distinct : Distinct Prod.fst s.files) {request : Request}
    {name : Bytes} (apart : target request ≠ some name) :
    Directory.content (some name) (answer request s).2.files =
      Directory.content (some name) s.files := by
  rw [answer_files]
  cases request with
  | create path => exact Directory.create_others distinct _ apart
  | store path content =>
    simp only [change]
    split_ifs
    · rfl
    · exact Directory.update_others distinct _ _ _ apart
  | append path content => exact Directory.update_others distinct _ _ _ apart
  | remove path => exact Directory.remove_others distinct apart
  | _ => rfl

/-- In Chinese the messages for a written and for a missing file look the same, but no update
ends with a missing file. -/
theorem outcome_written {language : Language} {result : FileResult} (found : result ≠ .errNotFound)
    (same : outcome .fileWriteOk language result = message .fileWriteOk language) : result = .ok := by
  revert found same
  cases language <;> cases result <;> decide +kernel

theorem usage_apart (language : Language) :
    message .usageWrite language ≠ message .fileWriteOk language := by
  cases language <;> decide +kernel

theorem stored_content {s : State} (distinct : Distinct Prod.fst s.files) {path content : Bytes}
    (written : (answer (.store path content) s).1 = message .fileWriteOk s.language) :
    Directory.content (nameOf path) (answer (.store path content) s).2.files = some content := by
  simp only [answer] at written ⊢
  split_ifs at written ⊢ with missing
  · exact absurd written (usage_apart s.language)
  · have done := outcome_written (Directory.update_found _ _ _ _ _) written
    obtain ⟨_,there⟩ := Directory.update_content distinct done
    exact there

theorem message_prompt (language : Language) : message .prompt language = literal "XBTOS-LC> " := by
  cases language <;> decide +kernel

/-- What is seen of the answer to a removal. -/
theorem removed_answer {s : State} {path name : Bytes} (named : nameOf path = some name) :
    (answer (.remove path) s).1 = match s.language with
      | .zhCn => literal "??????\n"
      | .en => if (Directory.content (some name) s.files).isSome then literal "File deleted.\n"
        else literal "File not found.\n" := by
  have result := Directory.remove_result name s.files
  have answered : (answer (.remove path) s).1 =
      outcome .fileDeleted s.language (Directory.remove (some name) s.files).1 := by
    rw [← named]
    rfl
  rw [answered,result]
  cases s.language <;> split_ifs <;> decide +kernel

theorem answer_language (request : Request) (s : State) :
    (answer request s).2.language = (spoken request).getD s.language := by
  cases request with
  | store path content =>
    simp only [answer]
    split_ifs <;> rfl
  | speak name =>
    simp only [answer,spoken]
    cases languageOf name <;> rfl
  | _ => rfl

/-! Runs. -/

theorem replyAll_append (first second : List Request) (s : State) :
    (replyAll (first ++ second) s).2 = (replyAll second (replyAll first s).2).2 := by
  induction first generalizing s with
  | nil => rfl
  | cons request first ih => exact ih (reply request s).2

theorem replyAll_others {s : State} (distinct : Distinct Prod.fst s.files) {requests : List Request}
    {name : Bytes} (apart : ∀ request ∈ requests, target request ≠ some name) :
    Directory.content (some name) (replyAll requests s).2.files =
      Directory.content (some name) s.files := by
  induction requests generalizing s with
  | nil => rfl
  | cons request requests ih =>
    rw [List.forall_mem_cons] at apart
    exact (ih (distinct_answer distinct request) apart.2).trans (answer_others distinct apart.1)

theorem replyAll_language (requests : List Request) (s : State) :
    (replyAll requests s).2.language = (requests.filterMap spoken).getLastD s.language := by
  induction requests generalizing s with
  | nil => rfl
  | cons request requests ih =>
    have rest := ih (reply request s).2
    rw [reply_state,answer_language] at rest
    cases chosen : spoken request with
    | none =>
      rw [chosen] at rest
      rw [List.filterMap_cons_none chosen]
      exact rest
    | some language =>
      rw [chosen] at rest
      rw [List.filterMap_cons_some chosen,List.getLastD_cons]
      exact rest

/-- What was stored is read, however many requests for other files come in between. -/
theorem read_stored {s : State} (distinct : Distinct Prod.fst s.files) {path content other name : Bytes}
    (between : List Request) (named : nameOf path = some name) (same : nameOf other = some name)
    (apart : ∀ request ∈ between, target request ≠ some name)
    (written : (answer (.store path content) s).1 = message .fileWriteOk s.language) :
    (answer (.read other) (replyAll between (answer (.store path content) s).2).2).1 =
      content ++ literal "\n" := by
  have there := stored_content distinct written
  have kept := replyAll_others (distinct_answer distinct (.store path content)) apart
  rw [named] at there
  rw [there] at kept
  simp only [answer,same] at kept ⊢
  rw [kept]

end Xbtos.Semantics.Session
