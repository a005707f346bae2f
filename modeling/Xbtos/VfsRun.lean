import Xbtos.VfsTable
import Mathlib.Logic.Relation

/-! Runs of the file system, and what each command does to the live files. A command
with undefined behaviour takes no step. -/
namespace Xbtos.Vfs
open Foundation.Buffer Foundation.PackedTable Foundation.EntryMap Strings

inductive Command
  | create (path : Option CString)
  | write (path content : Option CString)
  | append (path content : Option CString)
  | remove (path : Option CString)

def Command.run : Command → FileSystem → Option (FileResult × FileSystem)
  | .create path, s => Vfs.create (pointerOf path) s
  | .write path content, s => Vfs.write (pointerOf path) (pointerOf content) s
  | .append path content, s => Vfs.append (pointerOf path) (pointerOf content) s
  | .remove path, s => Vfs.remove (pointerOf path) s

def Command.path : Command → Option CString
  | .create path => path
  | .write path _ => path
  | .append path _ => path
  | .remove path => path

/-- The states after FileSystem::init and any commands, whatever they returned. -/
inductive Reaches : FileSystem → Prop
  | init (s : FileSystem) : Reaches (init s).1
  | step (s : FileSystem) (command : Command) (result : FileResult) (s' : FileSystem)
      (before : Reaches s) (returned : command.run s = some (result,s')) : Reaches s'

/-! What a command does, by the name its path has. -/

inductive Created (s : FileSystem) (live : List File) :
    Option Bytes → FileResult → FileSystem → List File → Prop
  | invalid : Created s live none .errInvalidName s live
  | taken (name : Bytes) (taken : name ∈ live.map nameOf) :
      Created s live (some name) .errExists s live
  | full (name : Bytes) (absent : name ∉ live.map nameOf) (full : live.length = maxFiles) :
      Created s live (some name) .errFull s live
  | new (name : Bytes) (s' : FileSystem) (file : File) (absent : name ∉ live.map nameOf)
      (free : live.length < maxFiles) (table : Table s' (live ++ [file]))
      (named : nameOf file = name) (empty : contentOf file = []) :
      Created s live (some name) .ok s' (live ++ [file])

/-- write and append, where change takes the old content to the new. -/
inductive Updated (change : Bytes → Bytes) (s : FileSystem) (live : List File) :
    Option Bytes → FileResult → FileSystem → List File → Prop
  | invalid : Updated change s live none .errInvalidName s live
  | full (name : Bytes) (absent : name ∉ live.map nameOf) (full : live.length = maxFiles) :
      Updated change s live (some name) .errFull s live
  | edited (i : Nat) (inside : i < live.length) (s' : FileSystem) (file : File)
      (fits : (change (contentOf live[i])).length < fileDataSize)
      (table : Table s' (live.set i file)) (named : nameOf file = nameOf live[i])
      (content : contentOf file = change (contentOf live[i])) :
      Updated change s live (some (nameOf live[i])) .ok s' (live.set i file)
  | tooLarge (i : Nat) (inside : i < live.length)
      (large : fileDataSize ≤ (change (contentOf live[i])).length) :
      Updated change s live (some (nameOf live[i])) .errTooLarge s live
  | made (name : Bytes) (s' : FileSystem) (file : File) (absent : name ∉ live.map nameOf)
      (free : live.length < maxFiles) (fits : (change []).length < fileDataSize)
      (table : Table s' (live ++ [file])) (named : nameOf file = name)
      (content : contentOf file = change []) :
      Updated change s live (some name) .ok s' (live ++ [file])
  | madeEmpty (name : Bytes) (s' : FileSystem) (file : File) (absent : name ∉ live.map nameOf)
      (free : live.length < maxFiles) (large : fileDataSize ≤ (change []).length)
      (table : Table s' (live ++ [file])) (named : nameOf file = name)
      (empty : contentOf file = []) :
      Updated change s live (some name) .errTooLarge s' (live ++ [file])

inductive Removed (s : FileSystem) (live : List File) :
    Option Bytes → FileResult → FileSystem → List File → Prop
  | invalid : Removed s live none .errInvalidName s live
  | missing (name : Bytes) (absent : name ∉ live.map nameOf) :
      Removed s live (some name) .errNotFound s live
  | removed (i : Nat) (inside : i < live.length) (s' : FileSystem)
      (table : Table s' (swapRemove live i inside)) :
      Removed s live (some (nameOf live[i])) .ok s' (swapRemove live i inside)

theorem Table.find_cases {s : FileSystem} {live : List File} (table : Table s live)
    (path : Option CString) :
    (norm (pointerOf path) = none ∧ find (pointerOf path) s = some none) ∨
    (∃ i, ∃ inside : i < live.length, norm (pointerOf path) = some (nameOf live[i]) ∧
      find (pointerOf path) s = some (some i)) ∨
    ∃ name, norm (pointerOf path) = some name ∧ name ∉ live.map nameOf ∧
      find (pointerOf path) s = some none := by
  rcases normalizeName_cases path with ⟨bad,out,normal⟩ | ⟨name,valid,good,normal⟩
  · exact .inl ⟨bad,find_invalid s normal⟩
  · rw [find_ok s normal,good]
    rcases table.search valid.noNul with ⟨i,inside,same,found⟩ | ⟨absent,missing⟩
    · exact .inr (.inl ⟨i,inside,by rw [same],found⟩)
    · exact .inr (.inr ⟨name,rfl,absent,missing⟩)

theorem Table.create_outcome {s : FileSystem} {live : List File} (table : Table s live)
    (path : Option CString) :
    ∃ result s' live', create (pointerOf path) s = some (result,s') ∧
      Created s live (norm (pointerOf path)) result s' live' := by
  rcases normalizeName_cases path with ⟨bad,out,normal⟩ | ⟨name,valid,good,normal⟩
  · rw [bad]
    exact ⟨_,_,_,create_invalid s normal,.invalid⟩
  · rw [good]
    by_cases taken : name ∈ live.map nameOf
    · exact ⟨_,_,_,table.create_taken valid normal taken,.taken name taken⟩
    · rcases Nat.eq_or_lt_of_le table.packed.room with full | free
      · exact ⟨_,_,_,table.create_full valid normal taken full,.full name taken full⟩
      · obtain ⟨s',file,created,changed,named,empty⟩ := table.create_new valid normal taken free
        exact ⟨_,_,_,created,.new name s' file taken free changed named empty⟩

/-- What write and append share: find the file, or create it and find it again. -/
def onFile (path : Option Bytes) (edit : Nat → FileSystem → Option (FileResult × FileSystem))
    (s : FileSystem) : Option (FileResult × FileSystem) := do
  match ← find path s with
  | some slot => edit slot s
  | none =>
    let (created,s) ← create path s
    if created ≠ .ok then return (created,s)
    match ← find path s with
    | some slot => edit slot s
    | none => return (.errNotFound,s)

theorem append_onFile (path : Option Bytes) (content : Bytes) (s : FileSystem) :
    append path (some content) s = onFile path (fun slot => appendSlot slot content) s := rfl

/-- write lets FILE_ERR_EXISTS pass, which create does not return for an absent file. -/
theorem Table.write_onFile {s : FileSystem} {live : List File} (table : Table s live)
    (path : Option CString) (content : Option Bytes) :
    write (pointerOf path) content s =
      onFile (pointerOf path) (fun slot => writeSlot slot (content.getD [0])) s := by
  obtain ⟨result,s',live',made,outcome⟩ := table.create_outcome path
  unfold write onFile
  rcases table.find_cases path with ⟨bad,missing⟩ | ⟨i,inside,_,found⟩ | ⟨name,good,absent,missing⟩
  · rw [bad] at outcome
    cases outcome
    simp [missing,made]
  · simp [found]
  · rw [good] at outcome
    have strange : result ≠ .errExists := by
      rintro rfl
      cases outcome with
      | taken _ taken => exact absent taken
    simp only [missing,made,Option.bind_eq_bind,Option.bind_some]
    exact if_congr (and_iff_left strange) rfl rfl

theorem Table.find_new {s : FileSystem} {live : List File} {file : File}
    (table : Table s (live ++ [file])) {path : Option CString}
    (good : norm (pointerOf path) = some (nameOf file)) (absent : nameOf file ∉ live.map nameOf) :
    find (pointerOf path) s = some (some live.length) := by
  rcases table.find_cases path with ⟨bad,_⟩ | ⟨i,inside,same,found⟩ | ⟨name,same,missing,_⟩
  · rw [good] at bad
    cases bad
  · have last : i = live.length := by
      rcases Nat.lt_or_ge i live.length with early | late
      · rw [List.getElem_append_left early,good] at same
        have member : nameOf live[i] ∈ live.map nameOf :=
          List.mem_map_of_mem (List.getElem_mem early)
        exact absurd (Option.some.inj same ▸ member) absent
      · rw [List.length_append,List.length_singleton] at inside
        omega
    rw [found,last]
  · rw [good] at same
    exact absurd (by simp [← Option.some.inj same]) missing

theorem Table.onFile_outcome {s : FileSystem} {live : List File} (table : Table s live)
    {edit : Nat → FileSystem → Option (FileResult × FileSystem)} {short : Prop}
    (path : Option CString) (change : Bytes → Bytes)
    (edits : ∀ s live, Table s live → ∀ i, ∀ inside : i < live.length,
      Edits s live i inside (change (contentOf live[i])) short (edit i s)) :
    (¬short ∧ (∃ name ∈ live.map nameOf, norm (pointerOf path) = some name) ∧
      onFile (pointerOf path) edit s = none) ∨
    ∃ result s' live', onFile (pointerOf path) edit s = some (result,s') ∧
      Updated change s live (norm (pointerOf path)) result s' live' := by
  obtain ⟨created,s₁,live₁,made,outcome⟩ := table.create_outcome path
  unfold onFile
  rcases table.find_cases path with ⟨bad,missing⟩ | ⟨i,inside,good,found⟩ | ⟨name,good,absent,missing⟩
  · rw [bad] at outcome ⊢
    cases outcome
    exact .inr ⟨_,_,_,by simp [missing,made],.invalid⟩
  · simp only [found,good,Option.bind_eq_bind,Option.bind_some]
    obtain ⟨fits,tooLarge⟩ := edits s live table i inside
    rcases Nat.lt_or_ge (change (contentOf live[i])).length fileDataSize with small | large
    · obtain ⟨s',file,edited,changed,named,content⟩ := fits small
      exact .inr ⟨_,_,_,edited,.edited i inside s' file small changed named content⟩
    · rcases tooLarge large with refused | ⟨long,_,overflow⟩
      · exact .inr ⟨_,_,_,refused,.tooLarge i inside large⟩
      · have present : nameOf live[i] ∈ live.map nameOf :=
          List.mem_map_of_mem (List.getElem_mem inside)
        exact .inl ⟨long,⟨_,present,rfl⟩,overflow⟩
  · rw [good] at outcome ⊢
    cases outcome with
    | taken _ taken => exact absurd taken absent
    | full _ _ full => exact .inr ⟨_,_,_,by simp [missing,made],.full name absent full⟩
    | new _ _ file _ free changed named empty =>
      subst named
      have added : live.length < (live ++ [file]).length := by simp
      have last : (live ++ [file])[live.length] = file := by simp
      simp only [missing,made,changed.find_new good absent,ne_eq,not_true,if_false,
        Option.bind_eq_bind,Option.bind_some]
      obtain ⟨fits,tooLarge⟩ := edits s₁ _ changed live.length added
      rw [last,empty] at fits tooLarge
      rcases Nat.lt_or_ge (change []).length fileDataSize with small | large
      · obtain ⟨s',other,edited,table',named,content⟩ := fits small
        rw [List.set_append_right _ _ (Nat.le_refl _),Nat.sub_self,List.set_cons_zero] at table'
        exact .inr ⟨_,_,_,edited,.made _ s' other absent free small table' named content⟩
      · rcases tooLarge large with refused | ⟨_,full,_⟩
        · exact .inr ⟨_,_,_,refused,.madeEmpty _ s₁ file absent free large changed rfl empty⟩
        · exact absurd rfl full

theorem Table.remove_outcome {s : FileSystem} {live : List File} (table : Table s live)
    (path : Option CString) :
    ∃ result s' live', remove (pointerOf path) s = some (result,s') ∧
      Removed s live (norm (pointerOf path)) result s' live' := by
  rcases normalizeName_cases path with ⟨bad,out,normal⟩ | ⟨name,valid,good,normal⟩
  · rw [bad]
    exact ⟨_,_,_,by simp [remove,normal],.invalid⟩
  · rw [good]
    rcases table.search valid.noNul with ⟨i,inside,same,found⟩ | ⟨absent,missing⟩
    · subst same
      obtain ⟨s',removed,changed⟩ := table.removeSlot inside
      exact ⟨_,_,_,by simp [remove,normal,found,removed],.removed i inside s' changed⟩
    · exact ⟨_,_,_,by simp [remove,normal,missing],.missing name absent⟩

/-- The content write stores; a null pointer stands for the empty string. -/
def contentOrEmpty : Option CString → CString
  | none => ⟨[],[],by simp,by decide⟩
  | some content => content

theorem pointerOf_getD (content : Option CString) :
    (pointerOf content).getD [0] = (contentOrEmpty content).pointer := by
  cases content <;> rfl

/-- The contents of a command are short enough for their lengths not to wrap around. -/
def Command.Short : Command → Prop
  | .write _ (some content) => Vfs.Short content
  | .append _ (some content) => Vfs.Short content
  | _ => True

inductive Outcome (s : FileSystem) (live : List File) :
    Command → FileResult → FileSystem → List File → Prop
  | create (path : Option CString) (result : FileResult) (s' : FileSystem) (live' : List File)
      (outcome : Created s live (norm (pointerOf path)) result s' live') :
      Outcome s live (.create path) result s' live'
  | write (path content : Option CString) (result : FileResult) (s' : FileSystem)
      (live' : List File) (outcome : Updated (fun _ => (contentOrEmpty content).bytes) s live
        (norm (pointerOf path)) result s' live') :
      Outcome s live (.write path content) result s' live'
  | appendNull (path : Option CString) : Outcome s live (.append path none) .ok s live
  | append (path : Option CString) (content : CString) (result : FileResult) (s' : FileSystem)
      (live' : List File) (outcome : Updated (fun old => old ++ content.bytes) s live
        (norm (pointerOf path)) result s' live') :
      Outcome s live (.append path (some content)) result s' live'
  | remove (path : Option CString) (result : FileResult) (s' : FileSystem) (live' : List File)
      (outcome : Removed s live (norm (pointerOf path)) result s' live') :
      Outcome s live (.remove path) result s' live'

/-- Every command has one of its outcomes. Without one it was given a content so long
that its length wraps around the size of an existing file. -/
theorem Table.outcome {s : FileSystem} {live : List File} (table : Table s live)
    (command : Command) :
    (¬command.Short ∧ (∃ name ∈ live.map nameOf, norm (pointerOf command.path) = some name) ∧
      command.run s = none) ∨
    ∃ result s' live', command.run s = some (result,s') ∧
      Outcome s live command result s' live' := by
  cases command with
  | create path =>
    obtain ⟨result,s',live',returned,outcome⟩ := table.create_outcome path
    exact .inr ⟨_,_,_,returned,.create _ _ _ _ outcome⟩
  | write path content =>
    have run : (Command.write path content).run s = onFile (pointerOf path)
        (fun slot => writeSlot slot (contentOrEmpty content).pointer) s := by
      rw [← pointerOf_getD]
      exact table.write_onFile path (pointerOf content)
    rw [run]
    rcases table.onFile_outcome path (fun _ => (contentOrEmpty content).bytes)
      (fun s live table i inside => table.edits_writeSlot inside (contentOrEmpty content)) with
      ⟨long,present,overflow⟩ | ⟨result,s',live',returned,outcome⟩
    · refine .inl ⟨?_,present,overflow⟩
      cases content with
      | none => exact absurd (show 0 < 2^32 - fileDataSize by decide) long
      | some content => exact long
    · exact .inr ⟨_,_,_,returned,.write _ _ _ _ _ outcome⟩
  | append path content =>
    cases content with
    | none => exact .inr ⟨_,_,_,rfl,.appendNull path⟩
    | some content =>
      have run : (Command.append path (some content)).run s = onFile (pointerOf path)
          (fun slot => appendSlot slot content.pointer) s :=
        append_onFile (pointerOf path) content.pointer s
      rw [run]
      rcases table.onFile_outcome path (fun old => old ++ content.bytes)
        (fun s live table i inside => table.edits_appendSlot inside content) with
        missing | ⟨result,s',live',returned,outcome⟩
      · exact .inl missing
      · exact .inr ⟨_,_,_,returned,.append _ _ _ _ _ outcome⟩
  | remove path =>
    obtain ⟨result,s',live',returned,outcome⟩ := table.remove_outcome path
    exact .inr ⟨_,_,_,returned,.remove _ _ _ _ outcome⟩

theorem Created.table {s s' : FileSystem} {live live' : List File} {name : Option Bytes}
    {result : FileResult} (outcome : Created s live name result s' live') (table : Table s live) :
    Table s' live' := by
  cases outcome with
  | new _ _ _ _ _ changed => exact changed
  | _ => exact table

theorem Updated.table {change : Bytes → Bytes} {s s' : FileSystem} {live live' : List File}
    {name : Option Bytes} {result : FileResult}
    (outcome : Updated change s live name result s' live') (table : Table s live) :
    Table s' live' := by
  cases outcome with
  | edited _ _ _ _ _ changed => exact changed
  | made _ _ _ _ _ _ changed => exact changed
  | madeEmpty _ _ _ _ _ _ changed => exact changed
  | _ => exact table

theorem Removed.table {s s' : FileSystem} {live live' : List File} {name : Option Bytes}
    {result : FileResult} (outcome : Removed s live name result s' live') (table : Table s live) :
    Table s' live' := by
  cases outcome with
  | removed _ _ _ changed => exact changed
  | _ => exact table

theorem Outcome.table {s s' : FileSystem} {live live' : List File} {command : Command}
    {result : FileResult} (outcome : Outcome s live command result s' live')
    (table : Table s live) : Table s' live' := by
  cases outcome with
  | create _ _ _ _ outcome => exact outcome.table table
  | write _ _ _ _ _ outcome => exact outcome.table table
  | appendNull => exact table
  | append _ _ _ _ _ outcome => exact outcome.table table
  | remove _ _ _ _ outcome => exact outcome.table table

theorem Table.returned {s s' : FileSystem} {live : List File} (table : Table s live)
    {command : Command} {result : FileResult} (returned : command.run s = some (result,s')) :
    ∃ live', Outcome s live command result s' live' := by
  rcases table.outcome command with ⟨_,_,overflow⟩ | ⟨_,_,live',run,outcome⟩
  · rw [returned] at overflow
    cases overflow
  · rw [returned] at run
    cases run
    exact ⟨live',outcome⟩

theorem Reaches.table {s : FileSystem} (run : Reaches s) : ∃ live, Table s live := by
  induction run with
  | init s => exact ⟨[],table_init s⟩
  | step s command result s' _ returned ih =>
    obtain ⟨live,table⟩ := ih
    obtain ⟨live',outcome⟩ := table.returned returned
    exact ⟨live',outcome.table table⟩

/-! A concrete run. -/

def blankSystem : FileSystem := ⟨Vector.replicate maxFiles zeroFile,0,Vector.replicate pathSize 0⟩

def pathA : CString := ⟨literal "/a",[],by decide,by decide⟩

theorem reaches_written : ∃ s, s.fileCount = 1 ∧ Reaches s := by
  have written : ((Command.write (some pathA) (some pathA)).run (init blankSystem).1).map
      (fun r => (r.1,r.2.fileCount)) = some (.ok,1) := by decide +kernel
  obtain ⟨⟨result,s⟩,returned,count⟩ := Option.map_eq_some_iff.mp written
  exact ⟨s,congrArg Prod.snd count,.step _ _ result s (.init _) returned⟩

end Xbtos.Vfs
