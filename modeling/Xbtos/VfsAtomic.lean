import Xbtos.VfsRefinement

/-! Which failing commands leave the file system as it was. write and append create an
absent file before they look at the length of the content, so a content that is too
large leaves an empty file behind. create and remove, and write and append to an
existing file, change nothing when they fail. -/
namespace Xbtos.Vfs
open Foundation.Buffer Foundation.PackedTable Foundation.EntryMap Strings

def sizeMap (s : FileSystem) : Finmap fun _ : Bytes => Nat :=
  mapOf nameOf File.size ((s.files.toList.take s.fileCount).filter fun file => file.isUsed)

structure Unchanged (s s' : FileSystem) : Prop where
  contents : fileMap s' = fileMap s
  sizes : sizeMap s' = sizeMap s
  count : s'.fileCount = s.fileCount

/-- A write or append of a content that is too large to a valid name that is not in the
table, while the table has room. -/
def LeavesEmptyFile (s : FileSystem) : Command → Prop
  | .write path (some content) => fileDataSize ≤ content.bytes.length ∧
      s.fileCount < maxFiles ∧ ∃ name ∉ fileMap s, norm (pointerOf path) = some name
  | .append path (some content) => fileDataSize ≤ content.bytes.length ∧
      s.fileCount < maxFiles ∧ ∃ name ∉ fileMap s, norm (pointerOf path) = some name
  | _ => False

theorem notMem_fileMap {s : FileSystem} {live : List File} (table : Table s live) {name : Bytes} :
    name ∉ fileMap s ↔ name ∉ live.map nameOf := by
  rw [table.fileMap,mem_mapOf]

theorem Created.failed {s s' : FileSystem} {live live' : List File} {name : Option Bytes}
    {result : FileResult} (outcome : Created s live name result s' live') (failed : result ≠ .ok) :
    s' = s := by
  cases outcome with
  | new => exact absurd rfl failed
  | _ => rfl

theorem Removed.failed {s s' : FileSystem} {live live' : List File} {name : Option Bytes}
    {result : FileResult} (outcome : Removed s live name result s' live') (failed : result ≠ .ok) :
    s' = s := by
  cases outcome with
  | removed => exact absurd rfl failed
  | _ => rfl

theorem Updated.failed {change : Bytes → Bytes} {s s' : FileSystem} {live live' : List File}
    {name : Option Bytes} {result : FileResult}
    (outcome : Updated change s live name result s' live') (table : Table s live)
    (failed : result ≠ .ok) :
    s' = s ∨ fileDataSize ≤ (change []).length ∧ s.fileCount < maxFiles ∧
      ∃ n ∉ fileMap s, name = some n := by
  cases outcome with
  | edited => exact absurd rfl failed
  | made => exact absurd rfl failed
  | madeEmpty n _ _ absent free large =>
    exact .inr ⟨large,by rwa [table.count],n,(notMem_fileMap table).mpr absent,rfl⟩
  | _ => exact .inl rfl

theorem Outcome.failed {s s' : FileSystem} {live live' : List File} {command : Command}
    {result : FileResult} (outcome : Outcome s live command result s' live')
    (table : Table s live) (failed : result ≠ .ok) : s' = s ∨ LeavesEmptyFile s command := by
  cases outcome with
  | create _ _ _ _ outcome => exact .inl (outcome.failed failed)
  | write path content _ _ _ outcome =>
    cases content with
    | none =>
      have short : ¬fileDataSize ≤ ([] : Bytes).length := by decide
      exact .inl ((outcome.failed table failed).resolve_right fun made => short made.1)
    | some content => exact outcome.failed table failed
  | appendNull => exact .inl rfl
  | append _ _ _ _ _ outcome => exact outcome.failed table failed
  | remove _ _ _ _ outcome => exact .inl (outcome.failed failed)

theorem Updated.left {change : Bytes → Bytes} {s s' : FileSystem} {live live' : List File}
    {name : Option Bytes} {result : FileResult}
    (outcome : Updated change s live name result s' live') (table : Table s live)
    (large : fileDataSize ≤ (change []).length) (free : s.fileCount < maxFiles)
    (absent : ∃ n ∉ fileMap s, name = some n) :
    result = .errTooLarge ∧ s'.fileCount = s.fileCount + 1 := by
  obtain ⟨n,missing,same⟩ := absent
  rw [notMem_fileMap table] at missing
  rw [table.count] at free
  cases outcome with
  | invalid => cases same
  | full _ _ full => omega
  | edited i inside =>
    cases same
    exact absurd (List.mem_map_of_mem (List.getElem_mem inside)) missing
  | tooLarge i inside =>
    cases same
    exact absurd (List.mem_map_of_mem (List.getElem_mem inside)) missing
  | made _ _ _ _ _ fits => omega
  | madeEmpty _ _ _ _ _ _ changed =>
    refine ⟨rfl,?_⟩
    rw [changed.count,table.count,List.length_append,List.length_singleton]

theorem Outcome.left {s s' : FileSystem} {live live' : List File} {command : Command}
    {result : FileResult} (outcome : Outcome s live command result s' live')
    (table : Table s live) (late : LeavesEmptyFile s command) :
    result = .errTooLarge ∧ s'.fileCount = s.fileCount + 1 := by
  cases outcome with
  | create => cases late
  | write path content _ _ _ outcome =>
    cases content with
    | none => cases late
    | some content => exact outcome.left table late.1 late.2.1 late.2.2
  | appendNull => cases late
  | append _ _ _ _ _ outcome => exact outcome.left table late.1 late.2.1 late.2.2
  | remove => cases late

theorem LeavesEmptyFile.absent {s : FileSystem} {command : Command}
    (late : LeavesEmptyFile s command) :
    ∃ name ∉ fileMap s, norm (pointerOf command.path) = some name := by
  cases command with
  | create => cases late
  | write _ content =>
    cases content with
    | none => cases late
    | some => exact late.2.2
  | append _ content =>
    cases content with
    | none => cases late
    | some => exact late.2.2
  | remove => cases late

/-- In a reachable state a command is atomic on error exactly when it does not leave an
empty file. -/
theorem atomic_iff {s : FileSystem} (run : Reaches s) (command : Command) :
    (∀ result s', command.run s = some (result,s') → result ≠ .ok → Unchanged s s') ↔
      ¬LeavesEmptyFile s command := by
  obtain ⟨live,table⟩ := run.table
  constructor
  · intro atomic late
    rcases table.outcome command with ⟨_,⟨name,present,good⟩,_⟩ | ⟨result,s',live',returned,outcome⟩
    · obtain ⟨other,absent,same⟩ := late.absent
      rw [good] at same
      cases same
      exact (notMem_fileMap table).mp absent present
    · obtain ⟨failed,more⟩ := outcome.left table late
      have same := (atomic result s' returned (by rw [failed]; decide)).count
      omega
  · intro early result s' returned failed
    obtain ⟨live',outcome⟩ := table.returned returned
    obtain rfl := (outcome.failed table failed).resolve_right early
    exact ⟨rfl,rfl,rfl⟩

def tooLong : CString :=
  ⟨List.replicate fileDataSize 120,[],by simp [List.mem_replicate],by
    rw [List.length_replicate]; decide⟩

/-- A text that is too long is not written to a file that there is, and nothing changes. -/
theorem atomic_write_after_write : ∃ s s', s.fileCount = 1 ∧
    (Command.write (some pathA) (some tooLong)).run s = some (.errTooLarge,s') ∧ Unchanged s s' := by
  have written : ((Command.write (some pathA) (some pathA)).run (init blankSystem).1).bind (fun r =>
      ((Command.write (some pathA) (some tooLong)).run r.2).map fun t =>
        (r.2.fileCount,((fileMap r.2).lookup (literal "a")).isSome,t.1)) =
      some (1,true,.errTooLarge) := by decide +kernel
  obtain ⟨⟨result,s⟩,first,shape⟩ := Option.bind_eq_some_iff.mp written
  obtain ⟨⟨refused,s'⟩,second,shape⟩ := Option.map_eq_some_iff.mp shape
  obtain ⟨count,shape⟩ := Prod.mk.inj shape
  obtain ⟨present,rfl⟩ := Prod.mk.inj shape
  refine ⟨s,s',count,second,?_⟩
  have early : ¬LeavesEmptyFile s (.write (some pathA) (some tooLong)) := by
    rintro ⟨_,_,name,absent,named⟩
    have same : norm (pointerOf (some pathA)) = some (literal "a") := by decide
    rw [same] at named
    cases named
    exact absent (AList.lookup_isSome.mp present)
  exact (atomic_iff (.step _ _ result s (.init _) first) _).mpr early _ s' second (by decide)

/-- The first write to a fresh file system fails and leaves a file. -/
theorem too_large_leaves_file : Reaches (init blankSystem).1 ∧
    ∃ s', (Command.write (some pathA) (some tooLong)).run (init blankSystem).1 =
      some (.errTooLarge,s') ∧ ¬Unchanged (init blankSystem).1 s' := by
  have written : ((Command.write (some pathA) (some tooLong)).run (init blankSystem).1).map
      (fun r => (r.1,r.2.fileCount)) = some (.errTooLarge,1) := by decide +kernel
  obtain ⟨⟨result,s'⟩,returned,shape⟩ := Option.map_eq_some_iff.mp written
  obtain ⟨rfl,count⟩ := Prod.mk.inj shape
  refine ⟨.init _,s',returned,fun unchanged => ?_⟩
  have same : s'.fileCount = 0 := unchanged.count
  have one : s'.fileCount = 1 := count
  omega

end Xbtos.Vfs
