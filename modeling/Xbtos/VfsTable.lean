import Xbtos.VfsName
import Xbtos.Foundation.PackedTable
import Xbtos.Foundation.EntryMap

/-! What the operations of the file system do to its table of files. Every operation
that fails leaves the file system as it was, but for the file write and append create
before they see that the content is too large. -/
namespace Xbtos.Vfs
open Foundation.ByteMemory Foundation.Buffer Foundation.PackedTable Foundation.EntryMap Strings

def nameOf (file : File) : Bytes := upTo 0 file.name.toList
def contentOf (file : File) : Bytes := upTo 0 file.data.toList

structure GoodFile (file : File) : Prop where
  used : file.isUsed = true
  named : 0 ∈ file.name.toList
  valid : ValidName (nameOf file)
  ended : 0 ∈ file.data.toList
  size : file.size = (contentOf file).length

/-- The files in use are live, in this order. -/
structure Table (s : FileSystem) (live : List File) : Prop where
  packed : Packed zeroFile s.files live
  count : s.fileCount = live.length
  good : ∀ file ∈ live, GoodFile file
  distinct : Distinct nameOf live
  root : upTo 0 (pwd s) = [slash]

theorem pwd_init (s : FileSystem) : upTo 0 (pwd (init s).1) = [slash] := by
  have places : s.currentPath.toList.length = pathSize := s.currentPath.length_toList
  simp only [pwd,init,Vector.toList_set]
  generalize s.currentPath.toList = path at places
  match path with
  | [] => simp [pathSize] at places
  | [_] => simp [pathSize] at places
  | _ :: _ :: _ => rfl

theorem table_init (s : FileSystem) : Table (init s).1 [] :=
  ⟨packed_replicate maxFiles zeroFile,rfl,by simp,List.nodup_nil,pwd_init s⟩

theorem GoodFile.small {file : File} (good : GoodFile file) : file.size < fileDataSize := by
  rw [good.size]
  exact Nat.lt_of_lt_of_eq (length_upTo_lt good.ended) file.data.length_toList

theorem GoodFile.data {file : File} (good : GoodFile file) :
    file.data.toList.take file.size = contentOf file := by
  obtain ⟨rest,split⟩ := upTo_split good.ended
  rw [good.size,split,contentOf]
  exact List.take_left

theorem GoodFile.compare {file : File} (good : GoodFile file) {name : Bytes} (noNul : 0 ∉ name) :
    ∃ d, kstrcmp file.name.toList (name ++ [0]) = some d ∧ (d = 0 ↔ nameOf file = name) := by
  obtain ⟨rest,split⟩ := upTo_split good.named
  obtain ⟨d,compared,zero⟩ := kstrcmp_text rest [] (notMem_upTo 0 file.name.toList) noNul
  rw [← split] at compared
  exact ⟨d,compared,zero⟩

/-! Searching. -/

theorem Table.searchFrom {s : FileSystem} {live : List File} (table : Table s live) {name : Bytes}
    (noNul : 0 ∉ name) {r i : Nat} (left : i + r = live.length) :
    (∃ j, ∃ inside : j < live.length, nameOf live[j] = name ∧
      findFrom s (name ++ [0]) r i = some (some j)) ∨
    ((∀ j, i ≤ j → ∀ inside : j < live.length, nameOf live[j] ≠ name) ∧
      findFrom s (name ++ [0]) r i = some none) := by
  induction r generalizing i with
  | zero => exact .inr ⟨fun j lower inside => by omega,rfl⟩
  | succ r ih =>
    have inside : i < live.length := by omega
    have slot := table.packed.slot inside
    have good := table.good live[i] (List.getElem_mem inside)
    obtain ⟨d,compared,zero⟩ := good.compare noNul
    simp only [findFrom,slot,Option.bind_eq_bind,Option.bind_some,good.used,if_true,compared]
    by_cases same : nameOf live[i] = name
    · rw [if_pos (zero.mpr same)]
      exact .inl ⟨i,inside,same,rfl⟩
    · rw [if_neg fun equal => same (zero.mp equal)]
      rcases ih (i := i+1) (by omega) with found | ⟨others,missing⟩
      · exact .inl found
      · refine .inr ⟨fun j lower within => ?_,missing⟩
        rcases Nat.eq_or_lt_of_le lower with here | later
        · subst here
          exact same
        · exact others j later within

theorem Table.search {s : FileSystem} {live : List File} (table : Table s live) {name : Bytes}
    (noNul : 0 ∉ name) :
    (∃ i, ∃ inside : i < live.length, nameOf live[i] = name ∧
      findFrom s (name ++ [0]) s.fileCount 0 = some (some i)) ∨
    (name ∉ live.map nameOf ∧ findFrom s (name ++ [0]) s.fileCount 0 = some none) := by
  rcases table.searchFrom noNul (show 0 + s.fileCount = live.length by rw [table.count]; omega) with
    found | ⟨others,missing⟩
  · exact .inl found
  · refine .inr ⟨fun member => ?_,missing⟩
    obtain ⟨file,present,same⟩ := List.mem_map.mp member
    obtain ⟨i,inside,rfl⟩ := List.getElem_of_mem present
    exact others i (Nat.zero_le i) inside same

theorem find_ok {path : Option Bytes} {name : Bytes} (s : FileSystem)
    (normal : normalizeName path = some (.ok,name ++ [0])) :
    find path s = findFrom s (name ++ [0]) s.fileCount 0 := by
  simp [find,normal]

theorem find_invalid {path : Option Bytes} {out : Bytes} (s : FileSystem)
    (normal : normalizeName path = some (.errInvalidName,out)) : find path s = some none := by
  simp [find,normal]

/-! Creating a file. -/

theorem create_invalid {path : Option Bytes} {out : Bytes} (s : FileSystem)
    (normal : normalizeName path = some (.errInvalidName,out)) :
    create path s = some (.errInvalidName,s) := by
  simp [create,normal]

theorem Table.create_taken {s : FileSystem} {live : List File} (table : Table s live)
    {path : Option Bytes} {name : Bytes} (valid : ValidName name)
    (normal : normalizeName path = some (.ok,name ++ [0])) (taken : name ∈ live.map nameOf) :
    create path s = some (.errExists,s) := by
  rcases table.search valid.noNul with ⟨i,_,_,found⟩ | ⟨absent,_⟩
  · have again := (find_ok s (normalizeName_name valid)).trans found
    simp [create,normal,again]
  · exact absurd taken absent

theorem Table.create_full {s : FileSystem} {live : List File} (table : Table s live)
    {path : Option Bytes} {name : Bytes} (valid : ValidName name)
    (normal : normalizeName path = some (.ok,name ++ [0])) (absent : name ∉ live.map nameOf)
    (full : live.length = maxFiles) : create path s = some (.errFull,s) := by
  rcases table.search valid.noNul with ⟨i,inside,same,_⟩ | ⟨_,missing⟩
  · exact absurd (List.mem_map.mpr ⟨live[i],List.getElem_mem inside,same⟩) absent
  · have again := (find_ok s (normalizeName_name valid)).trans missing
    have none_free : allocateSlot s = (none,s) := if_pos (by rw [table.count,full])
    simp [create,normal,again,none_free]

theorem upTo_replicate (n : Nat) : upTo (0 : UInt8) (List.replicate n 0) = [] := by
  cases n with
  | zero => rfl
  | succ n => simp [upTo,List.replicate_succ]

theorem newFile {name : Bytes} (valid : ValidName name) :
    ∃ copied, kstrcpy zeroFile.name 0 (name ++ [0]) = some copied ∧
      GoodFile { zeroFile with name := copied, isUsed := true } ∧
      nameOf { zeroFile with name := copied, isUsed := true } = name ∧
      contentOf { zeroFile with name := copied, isUsed := true } = [] := by
  have fits : 0 + (name ++ [0]).length ≤ fileNameSize := by
    have short := valid.short
    rw [List.length_append,List.length_singleton]
    omega
  obtain ⟨copied,stored,layout⟩ := storeAll_inside zeroFile.name (name ++ [0]) fits
  rw [List.take_zero,List.nil_append,List.append_assoc,List.singleton_append] at layout
  have named : nameOf { zeroFile with name := copied, isUsed := true } = name := by
    simp only [nameOf,layout,upTo_append _ valid.noNul]
  have empty : contentOf { zeroFile with name := copied, isUsed := true } = [] :=
    upTo_replicate fileDataSize
  refine ⟨copied,(kstrcpy_text zeroFile.name 0 [] valid.noNul).trans stored,?_,named,empty⟩
  refine ⟨rfl,by simp [layout],by rwa [named],?_,by rw [empty]; rfl⟩
  exact List.mem_replicate.mpr ⟨by decide,rfl⟩

theorem Table.create_new {s : FileSystem} {live : List File} (table : Table s live)
    {path : Option Bytes} {name : Bytes} (valid : ValidName name)
    (normal : normalizeName path = some (.ok,name ++ [0])) (absent : name ∉ live.map nameOf)
    (free : live.length < maxFiles) :
    ∃ s' file, create path s = some (.ok,s') ∧ Table s' (live ++ [file]) ∧ nameOf file = name ∧
      contentOf file = [] := by
  rcases table.search valid.noNul with ⟨i,inside,same,_⟩ | ⟨_,missing⟩
  · exact absurd (List.mem_map.mpr ⟨live[i],List.getElem_mem inside,same⟩) absent
  · have again := (find_ok s (normalizeName_name valid)).trans missing
    have slot : allocateSlot s = (some live.length,{ s with fileCount := live.length + 1 }) := by
      rw [allocateSlot,table.count,if_neg (Nat.not_le.mpr free)]
    obtain ⟨copied,stored,good,named,empty⟩ := newFile valid
    obtain ⟨files,placed,packed⟩ :=
      table.packed.push { zeroFile with name := copied, isUsed := true } free
    refine ⟨{ s with files, fileCount := live.length + 1 },_,?_,
      ⟨packed,by simp,?_,?_,table.root⟩,named,empty⟩
    · simp [create,normal,again,slot,stored,placed]
    · intro file member
      rcases List.mem_append.mp member with old | new
      · exact table.good file old
      · rwa [List.mem_singleton.mp new]
    · exact table.distinct.push (by rwa [named])

/-! Changing a file. -/

theorem Table.replace {s : FileSystem} {live : List File} (table : Table s live) {i : Nat}
    (inside : i < live.length) {file : File} (good : GoodFile file)
    (same : nameOf file = nameOf live[i]) :
    ∃ files, store s.files i file = some files ∧ Table { s with files } (live.set i file) := by
  obtain ⟨files,stored,packed⟩ := table.packed.set file inside
  refine ⟨files,stored,packed,?_,?_,table.distinct.set inside same,table.root⟩
  · rw [List.length_set]
    exact table.count
  · intro other member
    rcases List.mem_or_eq_of_mem_set member with old | rfl
    · exact table.good other old
    · exact good

/-- Copying text behind the first i bytes of data and ending it there. -/
theorem fill {n i : Nat} (data : Vector UInt8 n) (content : CString)
    (inside : i + content.bytes.length < n) (clean : 0 ∉ data.toList.take i) :
    ∃ copied ended, kmemcpy data i content.pointer content.bytes.length = some copied ∧
      store copied (i + content.bytes.length) 0 = some ended ∧ 0 ∈ ended.toList ∧
      upTo 0 ended.toList = data.toList.take i ++ content.bytes := by
  have enough : content.bytes.length ≤ content.pointer.length := by simp [CString.pointer]
  have text : content.pointer.take content.bytes.length = content.bytes := List.take_left
  obtain ⟨copied,stored,layout⟩ := storeAll_inside data content.bytes (Nat.le_of_lt inside)
  obtain ⟨ended,closed,final⟩ := store_inside copied 0 inside
  have front : (data.toList.take i ++ content.bytes).length = i + content.bytes.length := by
    rw [List.length_append,List.length_take,data.length_toList]
    omega
  have tail : (data.toList.drop (i + content.bytes.length)).set 0 0 =
      0 :: data.toList.drop (i + content.bytes.length + 1) := by
    rw [List.drop_eq_getElem_cons (by simpa using inside),List.set_cons_zero]
  rw [layout,List.set_append_right _ _ (Nat.le_of_eq front),front,Nat.sub_self,tail] at final
  have noNul : 0 ∉ data.toList.take i ++ content.bytes := by
    rw [List.mem_append,not_or]
    exact ⟨clean,content.noNul⟩
  refine ⟨copied,ended,?_,closed,by simp [final],?_⟩
  · rw [kmemcpy_take data i enough,text]
    exact stored
  · rw [final]
    exact upTo_append _ noNul

/-- A content whose length can be added to the size of any file. -/
def Short (content : CString) : Prop := content.bytes.length < 2^32 - fileDataSize

/-- What an edit makes of the file in slot i: new content, where that fits. Only the
sizes that wrap around leave an edit without a result. -/
structure Edits (s : FileSystem) (live : List File) (i : Nat) (inside : i < live.length)
    (content : Bytes) (short : Prop) (run : Option (FileResult × FileSystem)) : Prop where
  fits : content.length < fileDataSize → ∃ s' file, run = some (.ok,s') ∧
    Table s' (live.set i file) ∧ nameOf file = nameOf live[i] ∧ contentOf file = content
  tooLarge : fileDataSize ≤ content.length →
    run = some (.errTooLarge,s) ∨ ¬short ∧ contentOf live[i] ≠ [] ∧ run = none

theorem GoodFile.withData {file : File} (good : GoodFile file) {data : Vector UInt8 fileDataSize}
    {size : Nat} (ended : 0 ∈ data.toList) (length : size = (upTo 0 data.toList).length) :
    GoodFile { file with data, size } :=
  ⟨good.used,good.named,good.valid,ended,length⟩

theorem Table.edits_writeSlot {s : FileSystem} {live : List File} (table : Table s live) {i : Nat}
    (inside : i < live.length) (content : CString) :
    Edits s live i inside content.bytes (Short content) (writeSlot i content.pointer s) := by
  have slot := table.packed.slot inside
  have good := table.good live[i] (List.getElem_mem inside)
  have counted := kstrlen_pointer content
  constructor
  · intro fits
    obtain ⟨copied,ended,copy,close,terminated,text⟩ :=
      fill live[i].data content (i := 0) (by omega) (by simp)
    rw [Nat.zero_add] at close
    rw [List.take_zero,List.nil_append] at text
    have better := good.withData terminated (congrArg List.length text).symm
    obtain ⟨files,stored,changed⟩ := table.replace inside better rfl
    refine ⟨_,_,?_,changed,rfl,text⟩
    simp [writeSlot,slot,counted,Nat.not_le.mpr fits,copy,close,stored]
  · intro large
    exact .inl (by simp [writeSlot,slot,counted,large])

theorem Table.edits_appendSlot {s : FileSystem} {live : List File} (table : Table s live) {i : Nat}
    (inside : i < live.length) (content : CString) :
    Edits s live i inside (contentOf live[i] ++ content.bytes) (Short content)
      (appendSlot i content.pointer s) := by
  have slot := table.packed.slot inside
  have good := table.good live[i] (List.getElem_mem inside)
  have counted := kstrlen_pointer content
  have total : (contentOf live[i] ++ content.bytes).length =
      live[i].size + content.bytes.length := by rw [List.length_append,good.size]
  have size := good.size
  have small := good.small
  have bounded : content.bytes.length < 2^32 := content.fits
  constructor
  · intro fits
    rw [total] at fits
    have exact : wrap (live[i].size + content.bytes.length) =
        live[i].size + content.bytes.length := wrap_of_lt (by simp only [fileDataSize] at fits; omega)
    have clean : 0 ∉ live[i].data.toList.take live[i].size := by
      rw [good.data]
      exact notMem_upTo 0 _
    obtain ⟨copied,ended,copy,close,terminated,text⟩ := fill live[i].data content fits clean
    rw [good.data] at text
    have length : live[i].size + content.bytes.length = (upTo 0 ended.toList).length := by
      rw [text,total]
    obtain ⟨files,stored,changed⟩ := table.replace inside (good.withData terminated length) rfl
    refine ⟨_,_,?_,changed,rfl,text⟩
    simp [appendSlot,slot,counted,exact,Nat.not_le.mpr fits,copy,close,stored]
  · intro large
    rw [total] at large
    by_cases wraps : live[i].size + content.bytes.length < 2^32
    · have exact : wrap (live[i].size + content.bytes.length) =
          live[i].size + content.bytes.length := wrap_of_lt wraps
      exact .inl (by simp [appendSlot,slot,counted,exact,large])
    · -- the sum wraps to a small one, so the copy runs past the end of data
      have low : ¬fileDataSize ≤ wrap (live[i].size + content.bytes.length) := by
        simp only [wrap,fileDataSize] at *
        omega
      have overflow : kmemcpy live[i].data live[i].size content.pointer content.bytes.length = none := by
        rw [kmemcpy_take _ _ (by simp [CString.pointer])]
        apply storeAll_outside _ _ (Nat.le_of_lt small)
        simp only [CString.pointer,List.take_left,fileDataSize]
        omega
      refine .inr ⟨?_,?_,by simp [appendSlot,slot,counted,low,overflow]⟩
      · simp only [Short,fileDataSize] at *
        omega
      · intro empty
        rw [empty,List.length_nil] at size
        omega

/-! Removing a file. -/

theorem Table.removed {s : FileSystem} {live : List File} (table : Table s live) {i : Nat}
    (inside : i < live.length) {files : Vector File maxFiles}
    (packed : Packed zeroFile files (swapRemove live i inside)) :
    Table { s with files, fileCount := s.fileCount - 1 } (swapRemove live i inside) := by
  have same := swapRemove_perm inside
  refine ⟨packed,?_,?_,(table.distinct.eraseIdx i).perm same.symm,table.root⟩
  · rw [length_swapRemove,← table.count]
  · intro file member
    exact table.good file ((List.eraseIdx_sublist live i).mem (same.mem_iff.mp member))

theorem Table.removeSlot {s : FileSystem} {live : List File} (table : Table s live) {i : Nat}
    (inside : i < live.length) :
    ∃ s', Vfs.removeSlot i s = some s' ∧ Table s' (swapRemove live i inside) := by
  have nonempty : live ≠ [] := List.ne_nil_of_length_pos (by omega)
  have bound : live.length - 1 < live.length := by omega
  have final : live[live.length - 1] = live.getLast nonempty :=
    (List.getLast_eq_getElem nonempty).symm
  by_cases last : i = live.length - 1
  · subst last
    obtain ⟨files,stored,packed⟩ := table.packed.pop (by omega)
    have kept : live.dropLast = swapRemove live (live.length - 1) inside := by
      rw [swapRemove,← final,List.set_getElem_self]
    rw [kept] at packed
    refine ⟨_,?_,table.removed inside packed⟩
    simp [Vfs.removeSlot,stored,table.count]
  · obtain ⟨zeroed,stored,first⟩ := table.packed.set zeroFile inside
    have moved : zeroed[live.length - 1]? = some (live.getLast nonempty) := by
      have slot := first.slot (i := live.length - 1) (by rw [List.length_set]; omega)
      rw [List.getElem_set_ne last,final] at slot
      exact slot
    obtain ⟨filled,copied,second⟩ :=
      first.set (live.getLast nonempty) (show i < (live.set i zeroFile).length by simpa using inside)
    rw [List.set_set] at second
    obtain ⟨files,cleared,packed⟩ := second.pop (by simp; omega)
    rw [List.length_set] at cleared
    refine ⟨_,?_,table.removed inside packed⟩
    simp [Vfs.removeSlot,stored,table.count,last,moved,copied,cleared]

end Xbtos.Vfs
