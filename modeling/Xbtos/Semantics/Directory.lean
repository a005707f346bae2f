import Xbtos.Semantics.FileMap
import Xbtos.Foundation.EntryMap
import Xbtos.Foundation.PackedTable

/-! A directory: the finite map of files with the order in which they are listed. New files come
last, and the last file takes the place of one that is removed. -/
namespace Xbtos.Semantics.Directory
open Vfs (FileResult)
open Foundation.EntryMap Foundation.PackedTable

abbrev Entries (α β : Type) := List (α × List β)

theorem distinct_swapRemove {α β : Type} {D : Entries α β} (distinct : Distinct Prod.fst D) {i : Nat}
    (inside : i < D.length) : Distinct Prod.fst (swapRemove D i inside) :=
  (distinct.eraseIdx i).perm (swapRemove_perm inside).symm

section
variable {α β : Type} [DecidableEq α]

/-- The place of a file, or the number of files. -/
def place (n : α) (D : Entries α β) : Nat := (D.map Prod.fst).idxOf n

def create (capacity : Nat) (name : Option α) (D : Entries α β) : FileResult × Entries α β :=
  match name with
  | none => (.errInvalidName,D)
  | some n =>
    if n ∈ D.map Prod.fst then (.errExists,D)
    else if D.length = capacity then (.errFull,D)
    else (.ok,D ++ [(n,[])])

/-- Changes the content of a file, which is created if absent and then is empty. -/
def update (capacity limit : Nat) (change : List β → List β) (name : Option α) (D : Entries α β) :
    FileResult × Entries α β :=
  match name with
  | none => (.errInvalidName,D)
  | some n =>
    match D[place n D]? with
    | some (_,old) =>
      if limit ≤ (change old).length then (.errTooLarge,D)
      else (.ok,D.set (place n D) (n,change old))
    | none =>
      if D.length = capacity then (.errFull,D)
      else if limit ≤ (change []).length then (.errTooLarge,D ++ [(n,[])])
      else (.ok,D ++ [(n,change [])])

def remove (name : Option α) (D : Entries α β) : FileResult × Entries α β :=
  match name with
  | none => (.errInvalidName,D)
  | some n =>
    if inside : place n D < D.length then (.ok,swapRemove D (place n D) inside)
    else (.errNotFound,D)

def content (name : Option α) (D : Entries α β) : Option (List β) :=
  name.bind fun n => D[place n D]?.map Prod.snd

/-- The map, without the order. -/
def files (D : Entries α β) : FileMap.Files α β := mapOf Prod.fst Prod.snd D

theorem place_lt {n : α} {D : Entries α β} : place n D < D.length ↔ n ∈ D.map Prod.fst := by
  rw [place,← List.idxOf_lt_length_iff,List.length_map]

theorem place_absent {n : α} {D : Entries α β} (absent : n ∉ D.map Prod.fst) :
    D[place n D]? = none := by
  apply List.getElem?_eq_none
  rw [← not_lt,place_lt]
  exact absent

theorem place_getElem {D : Entries α β} (distinct : Distinct Prod.fst D) {i : Nat}
    (inside : i < D.length) : place D[i].1 D = i := by
  have bound : i < (D.map Prod.fst).length := by rwa [List.length_map]
  have same : D[i].1 = (D.map Prod.fst)[i] := by rw [List.getElem_map]
  rw [place,same]
  exact distinct.idxOf_getElem i bound

theorem place_present {n : α} {D : Entries α β} (present : n ∈ D.map Prod.fst) :
    ∃ inside : place n D < D.length, D[place n D].1 = n := by
  have inside := place_lt.mpr present
  have bound : (D.map Prod.fst).idxOf n < (D.map Prod.fst).length := List.idxOf_lt_length_iff.mpr present
  refine ⟨inside,?_⟩
  have found : (D.map Prod.fst)[(D.map Prod.fst).idxOf n] = n := List.getElem_idxOf bound
  rwa [List.getElem_map] at found

/-! The order apart, a directory is the map. -/

theorem lookup_files {D : Entries α β} (distinct : Distinct Prod.fst D) (n : α) :
    (files D).lookup n = D[place n D]?.map Prod.snd := by
  by_cases present : n ∈ D.map Prod.fst
  · obtain ⟨inside,named⟩ := place_present present
    rw [List.getElem?_eq_getElem inside]
    exact (lookup_mapOf distinct).mpr ⟨D[place n D],List.getElem_mem inside,named,rfl⟩
  · rw [place_absent present]
    exact Finmap.lookup_eq_none.mpr fun member => present (mem_mapOf.mp member)

theorem content_files {D : Entries α β} (distinct : Distinct Prod.fst D) (name : Option α) :
    FileMap.content name (files D) = content name D := by
  cases name with
  | none => rfl
  | some n => exact lookup_files distinct n

theorem card_files {D : Entries α β} (distinct : Distinct Prod.fst D) :
    (files D).keys.card = D.length := card_mapOf Prod.snd distinct

theorem files_push {D : Entries α β} (distinct : Distinct Prod.fst D) {n : α}
    (absent : n ∉ D.map Prod.fst) (content : List β) :
    files (D ++ [(n,content)]) = (files D).insert n content := mapOf_push Prod.snd distinct absent

theorem create_files {D : Entries α β} (distinct : Distinct Prod.fst D) (capacity : Nat)
    (name : Option α) : FileMap.create capacity name (files D) =
      ((create capacity name D).1,files (create capacity name D).2) := by
  cases name with
  | none => rfl
  | some n =>
    have member : n ∈ files D ↔ n ∈ D.map Prod.fst := mem_mapOf
    simp only [FileMap.create,create,member,card_files distinct]
    split_ifs with present full
    · rfl
    · rfl
    · rw [files_push distinct present]

theorem update_files {D : Entries α β} (distinct : Distinct Prod.fst D) (capacity limit : Nat)
    (change : List β → List β) (name : Option α) :
    FileMap.update capacity limit change name (files D) =
      ((update capacity limit change name D).1,files (update capacity limit change name D).2) := by
  cases name with
  | none => rfl
  | some n =>
    simp only [FileMap.update,update,lookup_files distinct]
    by_cases present : n ∈ D.map Prod.fst
    · obtain ⟨inside,named⟩ := place_present present
      have stored := mapOf_set (e := (n,change D[place n D].2)) Prod.snd distinct inside named.symm
      simp only [List.getElem?_eq_getElem inside,Option.map_some,FileMap.place]
      split_ifs
      · rfl
      · exact congrArg (Prod.mk FileResult.ok) stored.symm
    · simp only [place_absent present,Option.map_none,create_files distinct,create,present,if_false]
      by_cases full : D.length = capacity
      · simp only [full,if_true]
      · simp only [full,if_false,FileMap.place,files_push distinct present]
        split_ifs
        · rw [files_push distinct present]
        · rw [files_push distinct present,Finmap.insert_insert]

theorem remove_files {D : Entries α β} (distinct : Distinct Prod.fst D) (name : Option α) :
    FileMap.remove name (files D) = ((remove name D).1,files (remove name D).2) := by
  cases name with
  | none => rfl
  | some n =>
    have member : n ∈ files D ↔ n ∈ D.map Prod.fst := mem_mapOf
    by_cases present : n ∈ D.map Prod.fst
    · obtain ⟨inside,named⟩ := place_present present
      have erased := mapOf_eraseIdx Prod.snd distinct inside
      have order := mapOf_perm Prod.snd (distinct_swapRemove distinct inside) (swapRemove_perm inside)
      rw [erased,named] at order
      simp only [FileMap.remove,remove,member,present,if_true,inside,dif_pos]
      exact congrArg (Prod.mk FileResult.ok) order.symm
    · have missing : ¬place n D < D.length := place_lt.not.mpr present
      simp only [FileMap.remove,remove,member,present,if_false,missing,dif_neg,not_false_eq_true]

/-! The names stay distinct. -/

theorem distinct_create {D : Entries α β} (distinct : Distinct Prod.fst D) (capacity : Nat)
    (name : Option α) : Distinct Prod.fst (create capacity name D).2 := by
  cases name with
  | none => exact distinct
  | some n =>
    simp only [create]
    split_ifs with present
    · exact distinct
    · exact distinct
    · exact distinct.push present

theorem distinct_update {D : Entries α β} (distinct : Distinct Prod.fst D) (capacity limit : Nat)
    (change : List β → List β) (name : Option α) :
    Distinct Prod.fst (update capacity limit change name D).2 := by
  cases name with
  | none => exact distinct
  | some n =>
    simp only [update]
    by_cases present : n ∈ D.map Prod.fst
    · obtain ⟨inside,named⟩ := place_present present
      simp only [List.getElem?_eq_getElem inside]
      split_ifs
      · exact distinct
      · exact distinct.set inside named.symm
    · simp only [place_absent present]
      split_ifs
      · exact distinct
      · exact distinct.push present
      · exact distinct.push present

theorem distinct_remove {D : Entries α β} (distinct : Distinct Prod.fst D) (name : Option α) :
    Distinct Prod.fst (remove name D).2 := by
  cases name with
  | none => exact distinct
  | some n =>
    simp only [remove]
    split_ifs with inside
    · exact distinct_swapRemove distinct inside
    · exact distinct

/-! No operation touches another file, as in the map. -/

theorem create_others {D : Entries α β} (distinct : Distinct Prod.fst D) (capacity : Nat)
    {name : Option α} {m : α} (other : name ≠ some m) :
    content (some m) (create capacity name D).2 = content (some m) D := by
  have kept := FileMap.create_others capacity other (files D)
  rw [create_files distinct] at kept
  rw [← content_files (distinct_create distinct capacity name),← content_files distinct]
  exact kept

theorem update_others {D : Entries α β} (distinct : Distinct Prod.fst D) (capacity limit : Nat)
    (change : List β → List β) {name : Option α} {m : α} (other : name ≠ some m) :
    content (some m) (update capacity limit change name D).2 = content (some m) D := by
  have kept := FileMap.update_others capacity limit change other (files D)
  rw [update_files distinct] at kept
  rw [← content_files (distinct_update distinct capacity limit change name),← content_files distinct]
  exact kept

theorem remove_others {D : Entries α β} (distinct : Distinct Prod.fst D) {name : Option α} {m : α}
    (other : name ≠ some m) : content (some m) (remove name D).2 = content (some m) D := by
  have kept := FileMap.remove_others other (files D)
  rw [remove_files distinct] at kept
  rw [← content_files (distinct_remove distinct name),← content_files distinct]
  exact kept

theorem update_found (capacity limit : Nat) (change : List β → List β) (name : Option α)
    (D : Entries α β) : (update capacity limit change name D).1 ≠ .errNotFound := by
  cases name with
  | none => exact nofun
  | some n =>
    simp only [update]
    cases D[place n D]? with
    | none =>
      dsimp only
      split_ifs <;> exact nofun
    | some e =>
      dsimp only
      split_ifs <;> exact nofun

theorem remove_result (n : α) (D : Entries α β) :
    (remove (some n) D).1 = if (content (some n) D).isSome then .ok else .errNotFound := by
  have found : (content (some n) D).isSome = true ↔ place n D < D.length := by
    simp [content]
  simp only [remove,found]
  split_ifs <;> rfl

/-- What a successful update leaves in its file. -/
theorem update_content {D : Entries α β} (distinct : Distinct Prod.fst D) {capacity limit : Nat}
    {change : List β → List β} {name : Option α}
    (done : (update capacity limit change name D).1 = .ok) :
    ∃ old, content name (update capacity limit change name D).2 = some (change old) := by
  have same := update_files distinct capacity limit change name
  rw [done] at same
  obtain ⟨old,there⟩ := FileMap.update_content same
  rw [content_files (distinct_update distinct capacity limit change name)] at there
  exact ⟨old,there⟩

end

end Xbtos.Semantics.Directory
