import Xbtos.VfsRun
import Xbtos.Semantics.FileMap
import Mathlib.Data.Nat.Digits.Lemmas

/-! The file system refines a bounded finite map: the table in any reachable state is
such a map, and every operation does to it what it does to the map. -/
namespace Xbtos.Vfs
open Foundation.Buffer Foundation.PackedTable Foundation.EntryMap Strings Semantics

/-- The map from names to contents held in the table. -/
def fileMap (s : FileSystem) : FileMap.Files Bytes UInt8 :=
  mapOf nameOf contentOf ((s.files.toList.take s.fileCount).filter fun file => file.isUsed)

def Command.meaning : Command → FileMap.Files Bytes UInt8 →
    FileResult × FileMap.Files Bytes UInt8
  | .create path, M => FileMap.create maxFiles (norm (pointerOf path)) M
  | .write path content, M => FileMap.update maxFiles fileDataSize
      (fun _ => (contentOrEmpty content).bytes) (norm (pointerOf path)) M
  | .append _ none, M => (.ok,M)
  | .append path (some content), M => FileMap.update maxFiles fileDataSize
      (fun old => old ++ content.bytes) (norm (pointerOf path)) M
  | .remove path, M => FileMap.remove (norm (pointerOf path)) M

theorem Table.fileMap {s : FileSystem} {live : List File} (table : Table s live) :
    fileMap s = mapOf nameOf contentOf live := by
  have front : s.files.toList.take s.fileCount = live := by
    rw [table.packed.layout,table.count]
    exact List.take_left
  have used : live.filter (fun file => file.isUsed) = live :=
    List.filter_eq_self.mpr fun file member => (table.good file member).used
  rw [Vfs.fileMap,front,used]

theorem Table.lookup {s : FileSystem} {live : List File} (table : Table s live) {i : Nat}
    (inside : i < live.length) :
    (mapOf nameOf contentOf live).lookup (nameOf live[i]) = some (contentOf live[i]) :=
  (lookup_mapOf table.distinct).mpr ⟨live[i],List.getElem_mem inside,rfl,rfl⟩

theorem lookup_absent {live : List File} {name : Bytes} (absent : name ∉ live.map nameOf) :
    (mapOf nameOf contentOf live).lookup name = none :=
  Finmap.lookup_eq_none.mpr fun member => absent (mem_mapOf.mp member)

/-! Every outcome is the one of the map. -/

theorem Table.create_absent {s : FileSystem} {live : List File} (table : Table s live)
    {name : Bytes} (absent : name ∉ live.map nameOf) (free : live.length < maxFiles) :
    FileMap.create maxFiles (some name) (mapOf nameOf contentOf live) =
      (.ok,(mapOf nameOf contentOf live).insert name []) := by
  have missing : name ∉ mapOf nameOf contentOf live := fun member => absent (mem_mapOf.mp member)
  have room : (mapOf nameOf contentOf live).keys.card ≠ maxFiles := by
    rw [card_mapOf contentOf table.distinct]
    exact Nat.ne_of_lt free
  simp only [FileMap.create,missing,if_false,room]

theorem Created.meaning {s s' : FileSystem} {live live' : List File} {name : Option Bytes}
    {result : FileResult} (outcome : Created s live name result s' live') (table : Table s live) :
    FileMap.create maxFiles name (mapOf nameOf contentOf live) =
      (result,mapOf nameOf contentOf live') := by
  cases outcome with
  | invalid => rfl
  | taken name taken => exact if_pos (mem_mapOf.mpr taken)
  | full name absent full =>
    have missing : name ∉ mapOf nameOf contentOf live := fun member => absent (mem_mapOf.mp member)
    simp only [FileMap.create,missing,if_false,card_mapOf contentOf table.distinct,full,if_true]
  | new name _ file absent free _ named empty =>
    subst named
    rw [table.create_absent absent free,mapOf_push contentOf table.distinct absent,empty]

theorem Updated.meaning {change : Bytes → Bytes} {s s' : FileSystem} {live live' : List File}
    {name : Option Bytes} {result : FileResult}
    (outcome : Updated change s live name result s' live') (table : Table s live) :
    FileMap.update maxFiles fileDataSize change name (mapOf nameOf contentOf live) =
      (result,mapOf nameOf contentOf live') := by
  cases outcome with
  | invalid => rfl
  | full name absent full =>
    have created := (Created.full (s := s) name absent full).meaning table
    simp only [FileMap.update,lookup_absent absent,created]
  | edited i inside _ file fits _ named content =>
    have small : ¬fileDataSize ≤ (change (contentOf live[i])).length := Nat.not_le.mpr fits
    simp only [FileMap.update,table.lookup inside,FileMap.place,small,if_false,
      mapOf_set contentOf table.distinct inside named,named,content]
  | tooLarge i inside large =>
    simp only [FileMap.update,table.lookup inside,FileMap.place,large,if_true]
  | made name _ file absent free fits changed named content =>
    subst named
    have small : ¬fileDataSize ≤ (change []).length := Nat.not_le.mpr fits
    simp only [FileMap.update,lookup_absent absent,table.create_absent absent free,FileMap.place,
      small,if_false,Finmap.insert_insert,mapOf_push contentOf table.distinct absent,content]
  | madeEmpty name _ file absent free large changed named empty =>
    have created := (Created.new name s' file absent free changed named empty).meaning table
    simp only [FileMap.update,lookup_absent absent,created,FileMap.place,large,if_true]

theorem Removed.meaning {s s' : FileSystem} {live live' : List File} {name : Option Bytes}
    {result : FileResult} (outcome : Removed s live name result s' live') (table : Table s live) :
    FileMap.remove name (mapOf nameOf contentOf live) = (result,mapOf nameOf contentOf live') := by
  cases outcome with
  | invalid => rfl
  | missing name absent => exact if_neg fun member => absent (mem_mapOf.mp member)
  | removed i inside _ changed =>
    have present : nameOf live[i] ∈ mapOf nameOf contentOf live :=
      mem_mapOf.mpr (List.mem_map_of_mem (List.getElem_mem inside))
    have same := mapOf_perm contentOf changed.distinct (swapRemove_perm inside)
    simp only [FileMap.remove,present,if_true,same,mapOf_eraseIdx contentOf table.distinct inside]

theorem Outcome.meaning {s s' : FileSystem} {live live' : List File} {command : Command}
    {result : FileResult} (outcome : Outcome s live command result s' live')
    (table : Table s live) :
    command.meaning (Vfs.fileMap s) = (result,Vfs.fileMap s') := by
  rw [table.fileMap,(outcome.table table).fileMap]
  cases outcome with
  | create _ _ _ _ outcome => exact outcome.meaning table
  | write _ _ _ _ _ outcome => exact outcome.meaning table
  | appendNull => rfl
  | append _ _ _ _ _ outcome => exact outcome.meaning table
  | remove _ _ _ _ outcome => exact outcome.meaning table

theorem meaning_others (command : Command) {name : Bytes}
    (other : norm (pointerOf command.path) ≠ some name) (M : FileMap.Files Bytes UInt8) :
    (command.meaning M).2.lookup name = M.lookup name := by
  cases command with
  | create => exact FileMap.create_others _ other M
  | write => exact FileMap.update_others _ _ _ other M
  | append _ content =>
    cases content with
    | none => rfl
    | some => exact FileMap.update_others _ _ _ other M
  | remove => exact FileMap.remove_others other M

/-! The operations that only look. -/

def decimal (size : Nat) : Bytes :=
  if size = 0 then [48] else ((Nat.digits 10 size).map fun d => UInt8.ofNat (48 + d)).reverse

def listLine (name content : Bytes) : Bytes :=
  literal " - " ++ name ++ literal "  " ++ decimal content.length ++ literal " bytes\n"

theorem reverseDigits_digits {r size : Nat} (fits : size < 10^r) (reversed : Bytes) :
    reverseDigits r size reversed =
      reversed ++ (Nat.digits 10 size).map fun d => UInt8.ofNat (48 + d) := by
  induction r generalizing size reversed with
  | zero =>
    have zero : size = 0 := by simpa using fits
    simp [zero,reverseDigits]
  | succ r ih =>
    rw [reverseDigits]
    by_cases positive : 0 < size
    · have shorter : size / 10 < 10^r := by
        rw [Nat.pow_succ] at fits
        omega
      rw [if_pos positive,ih shorter,Nat.digits_def' (by decide) positive]
      simp
    · have zero : size = 0 := by omega
      simp [zero]

theorem sizeText_decimal {size : Nat} (fits : size < 10^11) :
    sizeText size = some (decimal size ++ [0]) := by
  unfold sizeText decimal
  by_cases zero : size = 0
  · rw [if_pos zero,if_pos zero]
    rfl
  · have few : (Nat.digits 10 size).length ≤ 11 :=
      (Nat.digits_length_le_iff (by decide) size).mpr fits
    have places : size < 10^12 := by omega
    have digits := reverseDigits_digits places []
    rw [List.nil_append] at digits
    rw [if_neg zero,if_neg zero,digits,pushAll_inside _ (by simp; omega),Option.bind_eq_bind,
      Option.bind_some,List.nil_append]
    exact push_inside 0 (by simp; omega)

theorem noNul_decimal (size : Nat) : 0 ∉ decimal size := by
  unfold decimal
  split
  next => decide
  next =>
    rw [List.mem_reverse,List.mem_map]
    rintro ⟨d,member,zero⟩
    have small : d < 10 := Nat.digits_lt_base (by decide) member
    have value := congrArg UInt8.toNat zero
    rw [UInt8.toNat_ofNat'] at value
    simp at value
    omega

theorem GoodFile.listFile {file : File} (good : GoodFile file) :
    Vfs.listFile file = some (listLine (nameOf file) (contentOf file)) := by
  obtain ⟨rest,split⟩ := upTo_split good.named
  have named : printString file.name.toList = some (nameOf file) := by
    rw [split]
    exact printString_text rest (notMem_upTo 0 _)
  have small := good.small
  have short : file.size < 10^11 := by
    simp only [fileDataSize] at small
    omega
  have text := sizeText_decimal short
  have printed := printString_text [] (noNul_decimal file.size)
  rw [listLine,← good.size]
  simp only [Vfs.listFile,named,text,printed,Option.bind_eq_bind,Option.bind_some]
  rfl

theorem Table.listFrom {s : FileSystem} {live : List File} (table : Table s live) {r i : Nat}
    (left : i + r = live.length) (found : Bool) (output : Bytes) :
    Vfs.listFrom s r i found output = some (found || decide (i < live.length),
      output ++ ((live.drop i).map fun file => listLine (nameOf file) (contentOf file)).flatten) := by
  induction r generalizing i found output with
  | zero =>
    have done : live.drop i = [] := List.drop_eq_nil_of_le (by omega)
    have past : ¬i < live.length := by omega
    simp [Vfs.listFrom,done,past]
  | succ r ih =>
    have inside : i < live.length := by omega
    have slot := table.packed.slot inside
    have good := table.good live[i] (List.getElem_mem inside)
    simp only [Vfs.listFrom,slot,good.used,good.listFile,if_true,Option.bind_eq_bind,Option.bind_some]
    rw [ih (by omega),List.drop_eq_getElem_cons inside,List.map_cons,List.flatten_cons,
      ← List.append_assoc,Bool.true_or,decide_eq_true inside,Bool.or_true]

theorem Table.list {s : FileSystem} {live : List File} (table : Table s live) (path : Option Bytes) :
    Vfs.list path s = some (if live = [] then literal " (empty)\n"
      else (live.map fun file => listLine (nameOf file) (contentOf file)).flatten) := by
  have looped := table.listFrom (show 0 + s.fileCount = live.length by rw [table.count]; omega)
    false []
  rw [List.drop_zero,List.nil_append] at looped
  cases live with
  | nil => simp [Vfs.list,looped]
  | cons => simp [Vfs.list,looped]

theorem Table.find_content {s : FileSystem} {live : List File} (table : Table s live)
    (path : Option CString) :
    (find (pointerOf path) s = some none ∧
      FileMap.content (norm (pointerOf path)) (Vfs.fileMap s) = none) ∨
    ∃ i, ∃ inside : i < live.length, find (pointerOf path) s = some (some i) ∧
      norm (pointerOf path) = some (nameOf live[i]) ∧
      FileMap.content (norm (pointerOf path)) (Vfs.fileMap s) = some (contentOf live[i]) := by
  rw [table.fileMap]
  rcases table.find_cases path with ⟨bad,missing⟩ | ⟨i,inside,good,found⟩ | ⟨name,good,absent,missing⟩
  · rw [bad]
    exact .inl ⟨missing,rfl⟩
  · rw [good]
    exact .inr ⟨i,inside,found,rfl,table.lookup inside⟩
  · rw [good]
    exact .inl ⟨missing,lookup_absent absent⟩

theorem GoodFile.copyName {file : File} (good : GoodFile file) :
    ∃ name : Vector UInt8 fileNameSize,
      kstrcpy (Vector.replicate fileNameSize 0) 0 file.name.toList = some name ∧
        upTo 0 name.toList = nameOf file := by
  obtain ⟨rest,split⟩ := upTo_split good.named
  have noNul := notMem_upTo (0 : UInt8) file.name.toList
  have fits : 0 + (nameOf file ++ [0]).length ≤ fileNameSize := by
    have short := good.valid.short
    rw [List.length_append,List.length_singleton]
    omega
  obtain ⟨name,stored,layout⟩ := storeAll_inside (Vector.replicate fileNameSize 0) _ fits
  refine ⟨name,?_,?_⟩
  · rw [split]
    exact (kstrcpy_text _ 0 rest noNul).trans stored
  · rw [layout,List.take_zero,List.nil_append,List.append_assoc,List.singleton_append]
    exact upTo_append _ noNul

theorem Table.read {s : FileSystem} {live : List File} (table : Table s live)
    (path : Option CString) :
    ∃ data, Vfs.read (pointerOf path) s = some data ∧ (∀ bytes ∈ data, 0 ∈ bytes) ∧
      data.map (upTo 0) = FileMap.content (norm (pointerOf path)) (Vfs.fileMap s) := by
  rcases table.find_content path with ⟨missing,absent⟩ | ⟨i,inside,found,_,present⟩
  · exact ⟨none,by simp [Vfs.read,missing],by simp,absent.symm⟩
  · have slot := table.packed.slot inside
    have good := table.good live[i] (List.getElem_mem inside)
    exact ⟨some live[i].data.toList,by simp [Vfs.read,found,slot],by simpa using good.ended,
      present.symm⟩

theorem Table.fileExists {s : FileSystem} {live : List File} (table : Table s live)
    (path : Option CString) :
    Vfs.fileExists (pointerOf path) s =
      some (FileMap.content (norm (pointerOf path)) (Vfs.fileMap s)).isSome := by
  rcases table.find_content path with ⟨missing,absent⟩ | ⟨i,inside,found,_,present⟩
  · simp [Vfs.fileExists,missing,absent]
  · simp [Vfs.fileExists,found,present]

theorem Table.stat_absent {s : FileSystem} {live : List File} (table : Table s live)
    (path : Option CString) (out : FileStat)
    (absent : FileMap.content (norm (pointerOf path)) (Vfs.fileMap s) = none) :
    stat (pointerOf path) (some out) s = some (.errNotFound,some out) := by
  rcases table.find_content path with ⟨missing,_⟩ | ⟨_,_,_,_,present⟩
  · simp [stat,missing]
  · rw [absent] at present
    cases present

theorem Table.stat_present {s : FileSystem} {live : List File} (table : Table s live)
    (path : Option CString) (out : FileStat) {content : Bytes}
    (there : FileMap.content (norm (pointerOf path)) (Vfs.fileMap s) = some content) :
    ∃ name, norm (pointerOf path) = some (upTo 0 name.toList) ∧
      stat (pointerOf path) (some out) s = some (.ok,some ⟨name,content.length,false⟩) := by
  rcases table.find_content path with ⟨_,absent⟩ | ⟨i,inside,found,normal,present⟩
  · rw [there] at absent
    cases absent
  · rw [there] at present
    cases present
    have slot := table.packed.slot inside
    have good := table.good live[i] (List.getElem_mem inside)
    obtain ⟨name,copied,same⟩ := good.copyName
    exact ⟨name,by rw [same,normal],by simp [stat,found,slot,copied,good.size]⟩

theorem Table.list_entries {s : FileSystem} {live : List File} (table : Table s live)
    (path : Option Bytes) :
    ∃ entries : List (Bytes × Bytes), Distinct Prod.fst entries ∧
      mapOf Prod.fst Prod.snd entries = Vfs.fileMap s ∧
      Vfs.list path s = some (if entries = [] then literal " (empty)\n"
        else (entries.map fun e => listLine e.1 e.2).flatten) := by
  refine ⟨live.map fun file => (nameOf file,contentOf file),?_,?_,?_⟩
  · rw [Distinct,List.map_map]
    exact table.distinct
  · rw [table.fileMap,mapOf,List.map_map]
    rfl
  · rw [table.list,List.map_map]
    simp only [List.map_eq_nil_iff]
    rfl

theorem Table.command_meaning {s : FileSystem} {live : List File} (table : Table s live)
    (command : Command) (short : command.Short) :
    ∃ result s', command.run s = some (result,s') ∧
      command.meaning (Vfs.fileMap s) = (result,Vfs.fileMap s') := by
  rcases table.outcome command with ⟨long,_,_⟩ | ⟨result,s',live',returned,outcome⟩
  · exact absurd short long
  · exact ⟨result,s',returned,outcome.meaning table⟩

theorem Table.others {s s' : FileSystem} {live : List File} (table : Table s live)
    {command : Command} {result : FileResult} (returned : command.run s = some (result,s'))
    {name : Bytes} (other : norm (pointerOf command.path) ≠ some name) :
    (Vfs.fileMap s').lookup name = (Vfs.fileMap s).lookup name := by
  obtain ⟨live',outcome⟩ := table.returned returned
  have kept := meaning_others command other (Vfs.fileMap s)
  rwa [outcome.meaning table] at kept

/-- What a caller of the file system sees of a state is what the map holds. -/
structure RefinesMap (s : FileSystem) : Prop where
  command : ∀ command : Command, command.Short → ∃ result s', command.run s = some (result,s') ∧
    command.meaning (fileMap s) = (result,fileMap s')
  others : ∀ (command : Command) (result : FileResult) (s' : FileSystem),
    command.run s = some (result,s') → ∀ name, norm (pointerOf command.path) ≠ some name →
    (fileMap s').lookup name = (fileMap s).lookup name
  read : ∀ path, ∃ data, read (pointerOf path) s = some data ∧ (∀ bytes ∈ data, 0 ∈ bytes) ∧
    data.map (upTo 0) = FileMap.content (norm (pointerOf path)) (fileMap s)
  fileExists : ∀ path, fileExists (pointerOf path) s =
    some (FileMap.content (norm (pointerOf path)) (fileMap s)).isSome
  statNull : ∀ path, stat (pointerOf path) none s = some (.errInvalidName,none)
  statAbsent : ∀ path out, FileMap.content (norm (pointerOf path)) (fileMap s) = none →
    stat (pointerOf path) (some out) s = some (.errNotFound,some out)
  statPresent : ∀ path out content,
    FileMap.content (norm (pointerOf path)) (fileMap s) = some content →
    ∃ name, norm (pointerOf path) = some (upTo 0 name.toList) ∧
      stat (pointerOf path) (some out) s = some (.ok,some ⟨name,content.length,false⟩)
  list : ∀ path, ∃ entries : List (Bytes × Bytes), Distinct Prod.fst entries ∧
    mapOf Prod.fst Prod.snd entries = fileMap s ∧
    list path s = some (if entries = [] then literal " (empty)\n"
      else (entries.map fun e => listLine e.1 e.2).flatten)

theorem refines_map {s : FileSystem} (run : Reaches s) : RefinesMap s := by
  obtain ⟨live,table⟩ := run.table
  exact {
    command := table.command_meaning
    others := fun _ _ _ returned _ other => table.others returned other
    read := table.read
    fileExists := table.fileExists
    statNull := fun _ => rfl
    statAbsent := table.stat_absent
    statPresent := fun path out _ there => table.stat_present path out there
    list := table.list_entries }

theorem refines_map_after_write : ∃ s, s.fileCount = 1 ∧ RefinesMap s := by
  obtain ⟨s,count,run⟩ := reaches_written
  exact ⟨s,count,refines_map run⟩

end Xbtos.Vfs
