import Xbtos.VfsRun

/-! The representation invariant of the file table, slot by slot and byte by byte. -/
namespace Xbtos.Vfs
open Foundation.Buffer Foundation.PackedTable Foundation.EntryMap Strings

structure NameForm (name : Vector UInt8 fileNameSize) : Prop where
  ended : ∃ len, ∃ inside : len < fileNameSize, 1 ≤ len ∧ len ≤ 31 ∧ name[len] = 0 ∧
    ∀ k, ∀ before : k < len, name[k] ≠ 0 ∧ name[k] ≠ slash ∧ name[k] ≠ backslash
  noDot : name[0] ≠ dot

structure DataForm (file : File) : Prop where
  ended : ∃ inside : file.size < fileDataSize, file.data[file.size] = 0 ∧
    ∀ k, ∀ before : k < file.size, file.data[k] ≠ 0
  length : kstrlen (some file.data.toList) = some file.size

structure WellFormed (s : FileSystem) : Prop where
  count : s.fileCount ≤ maxFiles
  used : ∀ i, ∀ inside : i < maxFiles, i < s.fileCount → s.files[i].isUsed = true
  blank : ∀ i, ∀ inside : i < maxFiles, s.fileCount ≤ i → s.files[i] = zeroFile
  distinct : ∀ i j, ∀ inside : i < maxFiles, ∀ within : j < maxFiles,
    s.files[i].isUsed = true → s.files[j].isUsed = true →
    nameOf s.files[i] = nameOf s.files[j] → i = j
  name : ∀ i, ∀ inside : i < maxFiles, s.files[i].isUsed = true → NameForm s.files[i].name
  data : ∀ i, ∀ inside : i < maxFiles, s.files[i].isUsed = true → DataForm s.files[i]

theorem separators {c : UInt8} (plain : isPathSeparator c = false) : c ≠ slash ∧ c ≠ backslash := by
  simpa [isPathSeparator] using plain

theorem GoodFile.nameForm {file : File} (good : GoodFile file) : NameForm file.name := by
  obtain ⟨rest,split⟩ := upTo_split good.named
  have valid : ValidName (upTo 0 file.name.toList) := good.valid
  have short := valid.short
  have positive : 0 < (upTo 0 file.name.toList).length := List.length_pos_of_ne_nil valid.nonempty
  generalize upTo 0 file.name.toList = text at *
  obtain ⟨inside,ended,same⟩ := getElem_split split
  refine ⟨⟨text.length,inside,positive,by simp only [fileNameSize] at short; omega,ended,?_⟩,?_⟩
  · intro k before
    have member : text[k] ∈ text := List.getElem_mem before
    rw [same k before]
    exact ⟨fun zero => valid.noNul (zero ▸ member),separators (valid.noSeparator _ member)⟩
  · intro dotted
    rw [same 0 positive] at dotted
    apply valid.noDot
    rw [List.head?_eq_getElem?,List.getElem?_eq_getElem positive,dotted]

theorem GoodFile.dataForm {file : File} (good : GoodFile file) : DataForm file := by
  obtain ⟨rest,split⟩ := upTo_split good.ended
  have noNul := notMem_upTo (0 : UInt8) file.data.toList
  have size : file.size = (upTo 0 file.data.toList).length := good.size
  generalize upTo 0 file.data.toList = text at *
  obtain ⟨inside,ended,same⟩ := getElem_split split
  constructor
  · refine ⟨by omega,by simpa only [size] using ended,fun k before => ?_⟩
    rw [same k (by omega)]
    exact fun zero => noNul (zero ▸ List.getElem_mem (by omega))
  · have fits : 0 + text.length < 2^32 := by
      simp only [fileDataSize] at inside
      omega
    rw [kstrlen,split,countBytes_text rest noNul fits,Nat.zero_add,size]

theorem Table.wellFormed {s : FileSystem} {live : List File} (table : Table s live) :
    WellFormed s := by
  have bound : s.fileCount ≤ maxFiles := by
    rw [table.count]
    exact table.packed.room
  have slot : ∀ i, ∀ inside : i < maxFiles, ∀ early : i < live.length, s.files[i] = live[i] := by
    intro i inside early
    have found := table.packed.slot early
    rw [Vector.getElem?_eq_getElem inside] at found
    exact Option.some.inj found
  have blank : ∀ i, ∀ inside : i < maxFiles, s.fileCount ≤ i → s.files[i] = zeroFile := by
    intro i inside late
    exact table.packed.blankSlot inside (by rwa [← table.count])
  have early : ∀ i, ∀ inside : i < maxFiles, s.files[i].isUsed = true → i < live.length := by
    intro i inside used
    rw [← table.count]
    by_contra late
    rw [blank i inside (Nat.not_lt.mp late)] at used
    cases used
  have good : ∀ i, ∀ inside : i < maxFiles, s.files[i].isUsed = true → GoodFile s.files[i] := by
    intro i inside used
    rw [slot i inside (early i inside used)]
    exact table.good _ (List.getElem_mem _)
  refine ⟨bound,?_,blank,?_,fun i inside used => (good i inside used).nameForm,
    fun i inside used => (good i inside used).dataForm⟩
  · intro i inside low
    rw [table.count] at low
    rw [slot i inside low]
    exact (table.good _ (List.getElem_mem low)).used
  · intro i j inside within usedFirst usedSecond same
    have first := early i inside usedFirst
    have second := early j within usedSecond
    rw [slot i inside first,slot j within second] at same
    have inFirst : i < (live.map nameOf).length := by simpa using first
    have inSecond : j < (live.map nameOf).length := by simpa using second
    have names : (live.map nameOf)[i] = (live.map nameOf)[j] := by simpa using same
    exact (List.Nodup.getElem_inj_iff table.distinct).mp names

/-- No command changes the current path. -/
theorem pwd_root {s : FileSystem} (run : Reaches s) : upTo 0 (pwd s) = [slash] := by
  obtain ⟨live,table⟩ := run.table
  exact table.root

/-- Every reachable state is well formed, and in it every command with contents short
enough is defined. -/
theorem table_wellFormed {s : FileSystem} (run : Reaches s) : WellFormed s ∧
    ∀ command : Command, command.Short → ∃ result s', command.run s = some (result,s') := by
  obtain ⟨live,table⟩ := run.table
  refine ⟨table.wellFormed,fun command short => ?_⟩
  rcases table.outcome command with ⟨long,_,_⟩ | ⟨result,s',_,returned,_⟩
  · exact absurd short long
  · exact ⟨result,s',returned⟩

theorem wellFormed_after_write : ∃ s, s.fileCount = 1 ∧ WellFormed s ∧
    ∀ command : Command, command.Short → ∃ result s', command.run s = some (result,s') := by
  obtain ⟨s,count,run⟩ := reaches_written
  exact ⟨s,count,table_wellFormed run⟩

end Xbtos.Vfs
