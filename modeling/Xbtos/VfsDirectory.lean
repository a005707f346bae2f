import Xbtos.VfsRefinement
import Xbtos.Semantics.Directory

/-! The table of files is a directory: every command does to the files, in the order of their
slots, what it does to a directory. -/
namespace Xbtos.Vfs
open Foundation.Buffer Foundation.PackedTable Foundation.EntryMap Strings Semantics
open Semantics.Directory (Entries)

def entry (file : File) : Bytes × Bytes := (nameOf file,contentOf file)

/-- The files in the order of their slots. -/
def listing (live : List File) : Entries Bytes UInt8 := live.map entry

def Command.listed : Command → Entries Bytes UInt8 → FileResult × Entries Bytes UInt8
  | .create path, D => Directory.create maxFiles (norm (pointerOf path)) D
  | .write path content, D => Directory.update maxFiles fileDataSize
      (fun _ => (contentOrEmpty content).bytes) (norm (pointerOf path)) D
  | .append _ none, D => (.ok,D)
  | .append path (some content), D => Directory.update maxFiles fileDataSize
      (fun old => old ++ content.bytes) (norm (pointerOf path)) D
  | .remove path, D => Directory.remove (norm (pointerOf path)) D

theorem listing_names (live : List File) : (listing live).map Prod.fst = live.map nameOf := by
  rw [listing,List.map_map]
  rfl

theorem listing_push (live : List File) (file : File) :
    listing (live ++ [file]) = listing live ++ [(nameOf file,contentOf file)] := List.map_append

theorem Table.listing_distinct {s : FileSystem} {live : List File} (table : Table s live) :
    Distinct Prod.fst (listing live) := by
  rw [Distinct,listing_names]
  exact table.distinct

theorem Table.place_name {s : FileSystem} {live : List File} (table : Table s live) {i : Nat}
    (inside : i < live.length) : Directory.place (nameOf live[i]) (listing live) = i := by
  have bound : i < (listing live).length := by rwa [listing,List.length_map]
  have placed := Directory.place_getElem table.listing_distinct bound
  simp only [listing,List.getElem_map] at placed
  exact placed

theorem Table.entry_at {s : FileSystem} {live : List File} (table : Table s live) {i : Nat}
    (inside : i < live.length) :
    (listing live)[Directory.place (nameOf live[i]) (listing live)]? = some (entry live[i]) := by
  rw [table.place_name inside,listing,List.getElem?_map,List.getElem?_eq_getElem inside]
  rfl

theorem entry_absent {live : List File} {name : Bytes} (absent : name ∉ live.map nameOf) :
    (listing live)[Directory.place name (listing live)]? = none := by
  rw [← listing_names] at absent
  exact Directory.place_absent absent

/-! Every outcome is the one of the directory. -/

theorem Created.listed {s s' : FileSystem} {live live' : List File} {name : Option Bytes}
    {result : FileResult} (outcome : Created s live name result s' live') :
    Directory.create maxFiles name (listing live) = (result,listing live') := by
  cases outcome with
  | invalid => rfl
  | taken name taken =>
    rw [← listing_names] at taken
    exact if_pos taken
  | full name absent full =>
    rw [← listing_names] at absent
    have length : (listing live).length = maxFiles := by rwa [listing,List.length_map]
    simp only [Directory.create,absent,if_false,length,if_true]
  | new name _ file absent free _ named empty =>
    rw [← listing_names] at absent
    have length : ¬(listing live).length = maxFiles := by
      rw [listing,List.length_map]
      exact Nat.ne_of_lt free
    simp only [Directory.create,absent,if_false,length,listing_push,named,empty]

theorem Updated.listed {change : Bytes → Bytes} {s s' : FileSystem} {live live' : List File}
    {name : Option Bytes} {result : FileResult}
    (outcome : Updated change s live name result s' live') (table : Table s live) :
    Directory.update maxFiles fileDataSize change name (listing live) = (result,listing live') := by
  have length : (listing live).length = live.length := List.length_map entry
  cases outcome with
  | invalid => rfl
  | full name absent full =>
    simp only [Directory.update,entry_absent absent,length,full,if_true]
  | edited i inside _ file fits _ named content =>
    have small : ¬fileDataSize ≤ (change (contentOf live[i])).length := Nat.not_le.mpr fits
    simp only [Directory.update,table.entry_at inside]
    simp only [entry,small,if_false,table.place_name inside]
    rw [← named,← content,listing,listing,List.map_set]
    rfl
  | tooLarge i inside large =>
    simp only [Directory.update,table.entry_at inside,entry,large,if_true]
  | made name _ file absent free fits _ named content =>
    have small : ¬fileDataSize ≤ (change []).length := Nat.not_le.mpr fits
    simp only [Directory.update,entry_absent absent,length,Nat.ne_of_lt free,if_false,small,
      listing_push,named,content]
  | madeEmpty name _ file absent free large _ named empty =>
    simp only [Directory.update,entry_absent absent,length,Nat.ne_of_lt free,if_false,large,if_true,
      listing_push,named,empty]

theorem Removed.listed {s s' : FileSystem} {live live' : List File} {name : Option Bytes}
    {result : FileResult} (outcome : Removed s live name result s' live') (table : Table s live) :
    Directory.remove name (listing live) = (result,listing live') := by
  have length : (listing live).length = live.length := List.length_map entry
  cases outcome with
  | invalid => rfl
  | missing name absent =>
    rw [← listing_names] at absent
    exact dif_neg (Directory.place_lt.not.mpr absent)
  | removed i inside _ _ =>
    have bound : i < (listing live).length := by rwa [length]
    have moved := swapRemove_map entry inside bound
    simp only [Directory.remove,table.place_name inside,bound,dif_pos]
    exact congrArg (Prod.mk FileResult.ok) moved

theorem Outcome.listed {s s' : FileSystem} {live live' : List File} {command : Command}
    {result : FileResult} (outcome : Outcome s live command result s' live') (table : Table s live) :
    command.listed (listing live) = (result,listing live') := by
  cases outcome with
  | create _ _ _ _ outcome => exact outcome.listed
  | write _ _ _ _ _ outcome => exact outcome.listed table
  | appendNull => rfl
  | append _ _ _ _ _ outcome => exact outcome.listed table
  | remove _ _ _ _ outcome => exact outcome.listed table

theorem Table.listing_content {s : FileSystem} {live : List File} (table : Table s live)
    (name : Option Bytes) :
    Directory.content name (listing live) = FileMap.content name (Vfs.fileMap s) := by
  have same : Vfs.fileMap s = Directory.files (listing live) := by
    rw [table.fileMap,Directory.files,mapOf,mapOf,listing,List.map_map]
    rfl
  rw [same,Directory.content_files table.listing_distinct]

theorem Table.list_listing {s : FileSystem} {live : List File} (table : Table s live)
    (path : Option Bytes) : Vfs.list path s = some (if listing live = [] then literal " (empty)\n"
      else ((listing live).map fun e => listLine e.1 e.2).flatten) := by
  rw [table.list,listing,List.map_map]
  simp only [List.map_eq_nil_iff]
  rfl

/-! Runs. -/

/-- The commands in turn, with what they returned. -/
def runCommands : List Command → FileSystem → Option (List FileResult × FileSystem)
  | [], s => some ([],s)
  | command :: commands, s => do
    let (result,s) ← command.run s
    let (results,s) ← runCommands commands s
    return (result :: results,s)

def listedCommands : List Command → Entries Bytes UInt8 → List FileResult × Entries Bytes UInt8
  | [], D => ([],D)
  | command :: commands, D =>
    let (result,D) := command.listed D
    let (results,D) := listedCommands commands D
    (result :: results,D)

theorem Table.runCommands {s : FileSystem} {live : List File} (table : Table s live)
    {commands : List Command} (short : ∀ command ∈ commands, command.Short) :
    ∃ results s' live', Vfs.runCommands commands s = some (results,s') ∧ Table s' live' ∧
      listedCommands commands (listing live) = (results,listing live') := by
  induction commands generalizing s live with
  | nil => exact ⟨[],s,live,rfl,table,rfl⟩
  | cons command commands ih =>
    rw [List.forall_mem_cons] at short
    rcases table.outcome command with ⟨long,_,_⟩ | ⟨result,one,next,returned,outcome⟩
    · exact absurd short.1 long
    · obtain ⟨results,s',live',rest,last,listed⟩ := ih (outcome.table table) short.2
      refine ⟨result :: results,s',live',?_,last,?_⟩
      · simp only [Vfs.runCommands,returned,rest,Option.bind_eq_bind,Option.bind_some]
        rfl
      · simp only [listedCommands,outcome.listed table,listed]

/-- What a listing shows after any commands is the directory after them, in its order. -/
theorem listing_is_directory (s : FileSystem) (commands : List Command)
    (short : ∀ command ∈ commands, command.Short) : ∃ results s',
      Vfs.runCommands commands (init s).1 = some (results,s') ∧
      results = (listedCommands commands []).1 ∧
      ∀ path, list path s' = some (if (listedCommands commands []).2 = [] then literal " (empty)\n"
        else ((listedCommands commands []).2.map fun e => listLine e.1 e.2).flatten) := by
  obtain ⟨results,s',live,ran,table,listed⟩ := (table_init s).runCommands short
  rw [show listing [] = [] from rfl] at listed
  refine ⟨results,s',ran,by rw [listed],fun path => ?_⟩
  rw [listed]
  exact table.list_listing path

def pathB : CString := ⟨literal "/b",[],by decide,by decide⟩
def pathC : CString := ⟨literal "c",[],by decide,by decide⟩

def threeFiles : List Command :=
  [.create (some pathA),.write (some pathB) (some pathA),.create (some pathC),.remove (some pathA),
    .create (some pathB)]

/-- The last of three files takes the place of the first, which is removed. -/
theorem listing_is_directory_pair : ∃ results s',
    Vfs.runCommands threeFiles (init blankSystem).1 = some (results,s') ∧
    results = [.ok,.ok,.ok,.ok,.errExists] ∧
    list none s' = some (literal " - c  0 bytes\n - b  2 bytes\n") := by
  obtain ⟨results,s',ran,same,listed⟩ := listing_is_directory blankSystem threeFiles (by
    simp only [threeFiles,List.forall_mem_cons,Command.Short,Short]
    exact ⟨trivial,by decide,trivial,trivial,trivial,by simp⟩)
  have there : (listedCommands threeFiles []).2 = [(literal "c",[]),(literal "b",literal "/a")] := by
    decide
  have text : listLine (literal "c") [] ++ listLine (literal "b") (literal "/a") =
      literal " - c  0 bytes\n - b  2 bytes\n" := by decide
  rw [there] at listed
  refine ⟨results,s',ran,same.trans (by decide),(listed none).trans ?_⟩
  rw [← text,if_neg (by simp)]
  simp

end Xbtos.Vfs
