import Xbtos.SystemRefinement

/-! Whole sessions: any lines, one after the other. The files and the language depend on the lines
entered alone, and a text that was acknowledged stays until a line changes its file. -/
namespace Xbtos.Shell
open Foundation.Buffer Foundation.EntryMap Strings Semantics
open Vfs (FileSystem)
open App (AppManager)
open Session (Request chars replyAll)

/-- A line that the editor can hold. -/
structure TypedLine where
  text : CString
  short : text.bytes.length < bufferSize
  ascii : ∀ c ∈ text.bytes, c < 0x80

def TypedLine.of (text : String) (noNul : 0 ∉ literal text) (short : (literal text).length < bufferSize)
    (ascii : (literal text).all (· < 0x80) = true) : TypedLine :=
  ⟨⟨literal text,[],noNul,Nat.lt_trans short (by decide)⟩,short,
    fun c here => of_decide_eq_true (List.all_eq_true.mp ascii c here)⟩

def TypedLine.request (line : TypedLine) : Request := Session.parse line.text.bytes

/-- The shell as kernel_main starts it. -/
def start (cpuid : Cpuid) (files : FileSystem) (apps : AppManager EntryPoint) : Option State := do
  return ⟨(Vfs.init files).1,← registerBuiltinApps (App.init apps),I18n.loadedLanguage,cpuid⟩

def executeAll : List TypedLine → State → Option (State × List Call)
  | [], s => some (s,[])
  | line :: lines, s => do
    let (s,calls) ← executeCommand line.text.pointer s
    let (s,more) ← executeAll lines s
    return (s,calls ++ more)

section
variable {s : State} {a : Session.State}

theorem Represents.distinct (rep : Represents s a) : Distinct Prod.fst a.files := by
  obtain ⟨live,table,_,same⟩ := rep.files
  rw [same]
  exact table.listing_distinct

theorem Represents.execute (rep : Represents s a) (line : TypedLine) :
    Tells (Shell.executeCommand line.text.pointer s) (Session.reply line.request a) :=
  rep.executeCommand (Nat.lt_trans line.short (by decide)) line.ascii

theorem Represents.executeAll (rep : Represents s a) (lines : List TypedLine) :
    Tells (Shell.executeAll lines s) (replyAll (lines.map TypedLine.request) a) := by
  induction lines generalizing s a with
  | nil => exact ⟨s,[],rfl,rfl,rep⟩
  | cons line lines ih =>
    obtain ⟨one,calls,first,told,still⟩ := rep.execute line
    obtain ⟨s',more,rest,after,last⟩ := ih still
    refine ⟨s',calls ++ more,?_,marksAll_append told after,last⟩
    simp only [Shell.executeAll,first,rest,Option.bind_eq_bind,Option.bind_some]
    rfl

end

theorem start_represents (cpuid : Cpuid) (files : FileSystem) (apps : AppManager EntryPoint) :
    ∃ s, start cpuid files apps = some s ∧
      Represents s ⟨[],I18n.loadedLanguage,upTo 0 (vendor cpuid)⟩ := by
  obtain ⟨apps',registered,registry⟩ := registerBuiltinApps_registry apps
  refine ⟨⟨(Vfs.init files).1,apps',I18n.loadedLanguage,cpuid⟩,?_,
    ⟨[],Vfs.table_init files,by simp [Machine.Ascii],rfl⟩,registry,rfl,rfl⟩
  rw [start,registered]
  rfl

/-- Every line is answered as the session answers its request, however many came before. -/
theorem lines_answered (cpuid : Cpuid) (files : FileSystem) (apps : AppManager EntryPoint) :
    ∃ s, start cpuid files apps = some s ∧ ∀ lines, ∃ s' calls, executeAll lines s = some (s',calls) ∧
      marksAll calls = some (replyAll (lines.map TypedLine.request)
        ⟨[],I18n.loadedLanguage,upTo 0 (vendor cpuid)⟩).1 := by
  obtain ⟨s,started,rep⟩ := start_represents cpuid files apps
  refine ⟨s,started,fun lines => ?_⟩
  obtain ⟨s',calls,ran,told,_⟩ := rep.executeAll lines
  exact ⟨s',calls,ran,told⟩

theorem printed_iff {calls : List Call} {request : Request} {a : Session.State} {text : Bytes}
    (told : marksAll calls = some (Session.reply request a).1) (other : request ≠ .clear) :
    Prints calls text ↔ (Session.answer request a).1 ++
      Session.message .prompt (Session.answer request a).2.language = text := by
  have whole : (Session.reply request a).1 = chars ((Session.answer request a).1 ++
      Session.message .prompt (Session.answer request a).2.language) := if_neg other
  have injective : Function.Injective chars := List.map_injective_iff.mpr fun _ _ => Session.Mark.char.inj
  rw [Prints,told,whole,Option.some_inj,injective.eq_iff]

/-- From a state on, a line that stores a text is followed by lines between and by one that reads. -/
structure StaysWritten (s : State) (between : List TypedLine) (writing reading : TypedLine)
    (content : Bytes) : Prop where
  run : ∃ s₁ written s₂ others s₃ answered,
    executeCommand writing.text.pointer s = some (s₁,written) ∧
    executeAll between s₁ = some (s₂,others) ∧
    executeCommand reading.text.pointer s₂ = some (s₃,answered) ∧
    (Prints written (Session.message .fileWriteOk s.language ++ Session.message .prompt s.language) →
      Prints answered (content ++ literal "\n" ++ Session.message .prompt s₂.language))

theorem Represents.staysWritten {s : State} {a : Session.State} (rep : Represents s a)
    {between : List TypedLine} {writing reading : TypedLine} {path content other name : Bytes}
    (store : writing.request = .store path content) (read : reading.request = .read other)
    (named : Session.nameOf path = some name) (same : Session.nameOf other = some name)
    (apart : ∀ line ∈ between, Session.target line.request ≠ some name) :
    StaysWritten s between writing reading content := by
  obtain ⟨s₁,written,first,told,rep₁⟩ := rep.execute writing
  obtain ⟨s₂,others,second,_,rep₂⟩ := rep₁.executeAll between
  obtain ⟨s₃,answered,third,shown,_⟩ := rep₂.execute reading
  refine ⟨s₁,written,s₂,others,s₃,answered,first,second,third,fun acknowledged => ?_⟩
  have language := Session.answer_language (.store path content) a
  rw [store] at told rep₂ shown
  rw [read] at shown
  rw [printed_iff told (by simp),language] at acknowledged
  simp only [Session.spoken,Option.getD_none,← rep.language,List.append_cancel_right_eq] at acknowledged
  have stored := Session.read_stored rep.distinct (between.map TypedLine.request) named same
    (List.forall_mem_map.mpr apart) acknowledged
  rw [Session.reply_state] at rep₂ shown
  rw [printed_iff shown (by simp),stored,← rep₂.language]
  rfl

/-- A text that the screen called written is what is read later, whatever lines come in between,
as long as none of them changes its file. -/
theorem written_text_stays (cpuid : Cpuid) (files : FileSystem) (apps : AppManager EntryPoint) :
    ∃ s, start cpuid files apps = some s ∧ ∀ before, ∃ s₁ calls, executeAll before s = some (s₁,calls) ∧
      ∀ (between : List TypedLine) (writing reading : TypedLine) (path content other name : Bytes),
        writing.request = .store path content → reading.request = .read other →
        Session.nameOf path = some name → Session.nameOf other = some name →
        (∀ line ∈ between, Session.target line.request ≠ some name) →
        StaysWritten s₁ between writing reading content := by
  obtain ⟨s,started,rep⟩ := start_represents cpuid files apps
  refine ⟨s,started,fun before => ?_⟩
  obtain ⟨s₁,calls,ran,_,rep₁⟩ := rep.executeAll before
  exact ⟨s₁,calls,ran,fun _ _ _ _ _ _ _ store read named same apart =>
    rep₁.staysWritten store read named same apart⟩

def storeLine : TypedLine := .of "rec a text" (by decide) (by decide) (by decide)
def otherLine : TypedLine := .of "rm b" (by decide) (by decide) (by decide)
def readLine : TypedLine := .of "rdf /a" (by decide) (by decide) (by decide)

theorem written_text_stays_sample : ∃ s, start ⟨0,0,0⟩ Vfs.blankSystem blankApps = some s ∧
    StaysWritten s [otherLine] storeLine readLine (literal "text") := by
  obtain ⟨s,started,stays⟩ := written_text_stays ⟨0,0,0⟩ Vfs.blankSystem blankApps
  obtain ⟨s₁,calls,ran,stays⟩ := stays []
  cases ran
  exact ⟨s,started,stays [otherLine] storeLine readLine (literal "a") (literal "text") (literal "/a")
    (literal "a") (by decide) (by decide) (by decide) (by decide) (by decide)⟩

/-- What rm says. In Chinese every character is shown as a question mark, so it says the same of
a file that was there and of one that was not. -/
theorem removal_answer (cpuid : Cpuid) (files : FileSystem) (apps : AppManager EntryPoint) :
    ∃ s, start cpuid files apps = some s ∧ ∀ before, ∃ s₁ calls, executeAll before s = some (s₁,calls) ∧
      ∀ (line : TypedLine) (path name : Bytes), line.request = .remove path →
        Session.nameOf path = some name → ∃ s₂ answered,
          executeCommand line.text.pointer s₁ = some (s₂,answered) ∧
          Prints answered ((match s₁.language with
            | .zhCn => literal "??????\n"
            | .en => if ((Vfs.fileMap s₁.vfs).lookup name).isSome then literal "File deleted.\n"
              else literal "File not found.\n") ++ literal "XBTOS-LC> ") := by
  obtain ⟨s,started,rep⟩ := start_represents cpuid files apps
  refine ⟨s,started,fun before => ?_⟩
  obtain ⟨s₁,calls,ran,_,rep₁⟩ := rep.executeAll before
  refine ⟨s₁,calls,ran,fun line path name request named => ?_⟩
  obtain ⟨s₂,answered,done,told,_⟩ := rep₁.execute line
  refine ⟨s₂,answered,done,?_⟩
  obtain ⟨live,table,_,same⟩ := rep₁.files
  have there := table.listing_content (some name)
  rw [← same] at there
  rw [request] at told
  rw [printed_iff told (by simp),Session.removed_answer named,Session.message_prompt,there,rep₁.language]
  rfl

def englishLine : TypedLine := .of "lang en" (by decide) (by decide) (by decide)
def touchLine : TypedLine := .of "touch b" (by decide) (by decide) (by decide)

/-- In English a file is made and removed. -/
theorem removal_answer_sample : ∃ s s₁ calls s₂ answered,
    start ⟨0,0,0⟩ Vfs.blankSystem blankApps = some s ∧
    executeAll [englishLine,touchLine] s = some (s₁,calls) ∧
    executeCommand otherLine.text.pointer s₁ = some (s₂,answered) ∧
    Prints answered (literal "File deleted.\nXBTOS-LC> ") := by
  obtain ⟨s,started,answers⟩ := removal_answer ⟨0,0,0⟩ Vfs.blankSystem blankApps
  obtain ⟨t,again,rep⟩ := start_represents ⟨0,0,0⟩ Vfs.blankSystem blankApps
  obtain rfl : s = t := Option.some.inj (started.symm.trans again)
  obtain ⟨s₁,calls,ran,answers⟩ := answers [englishLine,touchLine]
  obtain ⟨_,_,twice,_,rep₁⟩ := rep.executeAll [englishLine,touchLine]
  cases ran.symm.trans twice
  obtain ⟨s₂,answered,done,prints⟩ :=
    answers otherLine (literal "b") (literal "b") (by decide) (by decide)
  have english : s₁.language = .en := rep₁.language.symm.trans (by decide)
  have present : ((Vfs.fileMap s₁.vfs).lookup (literal "b")).isSome = true := by
    obtain ⟨live,table,_,same⟩ := rep₁.files
    have there := table.listing_content (some (literal "b"))
    rw [← same] at there
    exact (congrArg Option.isSome there).symm.trans (by decide)
  simp only [english,present,if_true] at prints
  exact ⟨s,s₁,calls,s₂,answered,started,ran,done,prints⟩

end Xbtos.Shell
