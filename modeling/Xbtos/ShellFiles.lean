import Xbtos.ShellOutcome
import Xbtos.VfsAtomic

/-! A command changes files only under one of the four names of writers, under one file name
at most, and not at all when it fails. The line of the editor is too short for the file that
write and append leave behind when a content is too large. -/
namespace Xbtos.Shell
open Foundation.Buffer Strings
open Vfs (FileSystem FileResult File Table Command Reaches fileMap)
open App (AppManager Registry Registration)

/-- What the call returned, where it returns a FileResult. -/
def FileCall.result : FileCall → Option FileResult
  | .create _ result => some result
  | .write _ _ result => some result
  | .append _ _ result => some result
  | .remove _ result => some result
  | .read _ _ => none
  | .stat _ result => some result
  | .list _ => none

/-- What a command that made these calls may have done to the files. -/
structure Careful (line : CString) (s s' : State) (calls : List Call) : Prop where
  one : ∀ call other, .file call ∈ calls → .file other ∈ calls → call = other
  writer : fileMap s'.vfs ≠ fileMap s.vfs → ∃ word ∈ writers, literal word <+: line.bytes
  others : ∃ name, ∀ other, other ≠ name →
    (fileMap s'.vfs).lookup other = (fileMap s.vfs).lookup other
  failed : ∀ call, .file call ∈ calls → call.result ≠ some .ok → fileMap s'.vfs = fileMap s.vfs
  unasked : (∀ call, .file call ∉ calls) → fileMap s'.vfs = fileMap s.vfs

theorem Changes.result {call : FileCall} {command : Command} {result : FileResult}
    (changes : Changes call command result) : call.result = some result := by
  cases changes <;> rfl

theorem notMem_shown {live : List File} {calls : List Call} (shows : ∀ c ∈ calls, Shows live c)
    (call : FileCall) : .file call ∉ calls := fun member => shows _ member

theorem not_leavesEmptyFile {s : FileSystem} {command : Command}
    (small : (brought command).length < Vfs.fileDataSize) : ¬Vfs.LeavesEmptyFile s command := by
  intro late
  cases command with
  | create => exact late
  | write path content =>
    cases content with
    | none => exact late
    | some => exact Nat.not_le.mpr small late.1
  | append path content =>
    cases content with
    | none => exact late
    | some => exact Nat.not_le.mpr small late.1
  | remove => exact late

theorem careful_unchanged {line : CString} {s s' : State} {calls : List Call}
    (same : s'.vfs = s.vfs)
    (one : ∀ call other, .file call ∈ calls → .file other ∈ calls → call = other) :
    Careful line s s' calls :=
  ⟨one,fun changed => absurd (by rw [same]) changed,⟨[],fun _ _ => by rw [same]⟩,
    fun _ _ _ => by rw [same],fun _ => by rw [same]⟩

theorem one_file {live : List File} {calls : List Call} (call : FileCall)
    (shows : ∀ c ∈ calls, Shows live c) :
    ∀ first second, .file first ∈ Call.file call :: calls → .file second ∈ Call.file call :: calls →
      first = second := by
  have only : ∀ other, .file other ∈ Call.file call :: calls → other = call := by
    intro other member
    rcases List.mem_cons.mp member with same | later
    · exact Call.file.inj same
    · exact absurd later (notMem_shown shows other)
  intro first second here there
  rw [only first here,only second there]

theorem Executed.careful {line : CString} {s s' : State} {live : List File} {calls : List Call}
    (executed : Executed line s live s' calls) (table : Table s.vfs live)
    (short : line.bytes.length < bufferSize) : Careful line s s' calls := by
  cases executed with
  | shown _ shows => exact careful_unchanged rfl fun call _ here => absurd here (notMem_shown shows call)
  | switched _ _ shows =>
    exact careful_unchanged rfl fun call _ here => absurd here (notMem_shown shows call)
  | asked call calls _ shows => exact careful_unchanged rfl (one_file call shows)
  | changed call command result vfs calls begins changes part returned shows =>
    have small : (brought command).length < Vfs.fileDataSize :=
      Nat.lt_trans (Nat.lt_of_le_of_lt part.length_le short) (by decide)
    obtain ⟨live',outcome⟩ := table.returned returned
    refine ⟨one_file call shows,fun _ => begins,?_,fun other member failed => ?_,fun no => ?_⟩
    · cases normal : Vfs.norm (Vfs.pointerOf command.path) with
      | none => exact ⟨[],fun other _ => table.others returned (by rw [normal]; simp)⟩
      | some name =>
        refine ⟨name,fun other apart => table.others returned fun same => ?_⟩
        rw [normal] at same
        exact apart (Option.some.inj same).symm
    · rw [one_file call shows other call member List.mem_cons_self,changes.result] at failed
      have refused : result ≠ .ok := fun ok => failed (congrArg some ok)
      rw [(outcome.failed table refused).resolve_right (not_leavesEmptyFile small)]
    · exact absurd List.mem_cons_self (no call)

/-! The application of kernel_main. -/

def demoRegistration : Registration EntryPoint := ⟨demo,demoIdentifier,.demoAppMain,rfl⟩

theorem registerBuiltinApps_registry (m : AppManager EntryPoint) :
    ∃ apps, registerBuiltinApps (App.init m) = some apps ∧ Registry apps [demoRegistration] := by
  rcases (App.registry_init m).register demoRegistration with ⟨full,_⟩ | ⟨known,_⟩ | ⟨_,_,apps,added,registry⟩
  · exact absurd full (by decide)
  · simp at known
  · refine ⟨apps,?_,registry⟩
    have registered : App.registerApp (some demo) (some .demoAppMain) (App.init m) = some (.ok,apps) := added
    simp only [registerBuiltinApps,registered,Option.bind_eq_bind,Option.bind_some]
    rfl

theorem failing_command_changes_nothing {m : AppManager EntryPoint} {s : State} {line : CString}
    (run : Reaches s.vfs) (apps : registerBuiltinApps (App.init m) = some s.apps)
    (short : line.bytes.length < bufferSize) :
    ∃ s' calls, executeCommand line.pointer s = some (s',calls) ∧ Careful line s s' calls := by
  obtain ⟨live,table⟩ := run.table
  obtain ⟨apps',registered,registry⟩ := registerBuiltinApps_registry m
  rw [apps] at registered
  cases registered
  have small : Vfs.Short line := Nat.lt_trans short (by decide)
  obtain ⟨s',calls,returned,executed⟩ := executeCommand_executed table registry small
  exact ⟨s',calls,returned,executed.careful table short⟩

def blankApps : AppManager EntryPoint := ⟨Vector.replicate App.maxApps App.zeroBundle,0⟩

def sampleLine : CString := ⟨literal "rm ../a",[],by decide,by decide⟩

theorem failing_command_changes_nothing_rm : ∃ s s' calls, s.vfs.fileCount = 1 ∧
    executeCommand sampleLine.pointer s = some (s',calls) ∧ Careful sampleLine s s' calls := by
  obtain ⟨vfs,count,run⟩ := Vfs.reaches_written
  obtain ⟨apps,registered,_⟩ := registerBuiltinApps_registry blankApps
  obtain ⟨s',calls,returned,careful⟩ := failing_command_changes_nothing
    (s := ⟨vfs,apps,.en,⟨0,0,0⟩⟩) run registered (show sampleLine.bytes.length < bufferSize by decide)
  exact ⟨_,s',calls,count,returned,careful⟩

end Xbtos.Shell
