import Mathlib.Data.Finmap

/-! Finite maps held as lists of entries with distinct keys. The order of the entries
does not matter, so an edit of the list is an edit of the map. -/
namespace Foundation.EntryMap

def mapOf {σ α β : Type} [DecidableEq α] (key : σ → α) (value : σ → β) (entries : List σ) :
    Finmap fun _ : α => β :=
  (entries.map fun e => (⟨key e,value e⟩ : Σ _ : α, β)).toFinmap

def Distinct {σ α : Type} (key : σ → α) (entries : List σ) : Prop := (entries.map key).Nodup

theorem Distinct.perm {σ α : Type} {key : σ → α} {entries other : List σ}
    (distinct : Distinct key entries) (same : entries.Perm other) : Distinct key other :=
  (same.map key).nodup_iff.mp distinct

theorem Distinct.eraseIdx {σ α : Type} {key : σ → α} {entries : List σ}
    (distinct : Distinct key entries) (i : Nat) : Distinct key (entries.eraseIdx i) :=
  distinct.sublist ((List.eraseIdx_sublist entries i).map key)

theorem Distinct.push {σ α : Type} {key : σ → α} {entries : List σ} (distinct : Distinct key entries)
    {e : σ} (fresh : key e ∉ entries.map key) : Distinct key (entries ++ [e]) := by
  have front : Distinct key (e :: entries) := List.nodup_cons.mpr ⟨fresh,distinct⟩
  exact front.perm (List.perm_append_singleton e entries).symm

theorem Distinct.set {σ α : Type} {key : σ → α} {entries : List σ} (distinct : Distinct key entries)
    {i : Nat} (inside : i < entries.length) {e : σ} (same : key e = key entries[i]) :
    Distinct key (entries.set i e) := by
  have unchanged : (entries.set i e).map key = entries.map key := by
    apply List.ext_getElem?
    intro j
    rw [List.getElem?_map,List.getElem?_map,List.getElem?_set]
    split
    next here =>
      subst here
      simp [inside,same]
    next => rfl
  rw [Distinct,unchanged]
  exact distinct

theorem nodupKeys_entries {σ α β : Type} {key : σ → α} (value : σ → β) {entries : List σ}
    (distinct : Distinct key entries) :
    (entries.map fun e => (⟨key e,value e⟩ : Σ _ : α, β)).NodupKeys := by
  rw [List.NodupKeys,List.keys,List.map_map]
  exact distinct

theorem lookup_mapOf {σ α β : Type} [DecidableEq α] {key : σ → α} {value : σ → β} {entries : List σ}
    (distinct : Distinct key entries) {k : α} {v : β} :
    (mapOf key value entries).lookup k = some v ↔ ∃ e ∈ entries, key e = k ∧ value e = v := by
  rw [mapOf,Finmap.dlookup_list_toFinmap]
  apply (List.mem_dlookup_iff (nodupKeys_entries value distinct)).trans
  simp

theorem mem_mapOf {σ α β : Type} [DecidableEq α] {key : σ → α} {value : σ → β} {entries : List σ}
    {k : α} : k ∈ mapOf key value entries ↔ k ∈ entries.map key := by
  rw [mapOf,Finmap.mem_list_toFinmap]
  simp

theorem mapOf_perm {σ α β : Type} [DecidableEq α] {key : σ → α} (value : σ → β)
    {entries other : List σ} (distinct : Distinct key entries) (same : entries.Perm other) :
    mapOf key value entries = mapOf key value other := by
  apply Finmap.ext_lookup
  intro k
  rw [mapOf,mapOf,Finmap.dlookup_list_toFinmap,Finmap.dlookup_list_toFinmap]
  exact List.perm_dlookup k (nodupKeys_entries value distinct) (same.map _)

theorem mapOf_cons {σ α β : Type} [DecidableEq α] (key : σ → α) (value : σ → β) (e : σ)
    (entries : List σ) :
    mapOf key value (e :: entries) = (mapOf key value entries).insert (key e) (value e) := rfl

theorem mapOf_push {σ α β : Type} [DecidableEq α] {key : σ → α} (value : σ → β) {entries : List σ}
    (distinct : Distinct key entries) {e : σ} (fresh : key e ∉ entries.map key) :
    mapOf key value (entries ++ [e]) = (mapOf key value entries).insert (key e) (value e) :=
  mapOf_perm value (distinct.push fresh) (List.perm_append_singleton e entries)

theorem erase_insert {α β : Type} [DecidableEq α] {k : α} (v : β) {m : Finmap fun _ : α => β}
    (fresh : k ∉ m) : (m.insert k v).erase k = m := by
  apply Finmap.ext_lookup
  intro x
  by_cases same : x = k
  · subst same
    rw [Finmap.lookup_erase,Finmap.lookup_eq_none.mpr fresh]
  · rw [Finmap.lookup_erase_ne same,Finmap.lookup_insert_of_ne _ same]

theorem insert_erase {α β : Type} [DecidableEq α] (k : α) (v : β) (m : Finmap fun _ : α => β) :
    (m.erase k).insert k v = m.insert k v := by
  apply Finmap.ext_lookup
  intro x
  by_cases same : x = k
  · subst same
    rw [Finmap.lookup_insert,Finmap.lookup_insert]
  · rw [Finmap.lookup_insert_of_ne _ same,Finmap.lookup_insert_of_ne _ same,
      Finmap.lookup_erase_ne same]

theorem mapOf_eraseIdx {σ α β : Type} [DecidableEq α] {key : σ → α} (value : σ → β)
    {entries : List σ} (distinct : Distinct key entries) {i : Nat} (inside : i < entries.length) :
    mapOf key value (entries.eraseIdx i) = (mapOf key value entries).erase (key entries[i]) := by
  have front : entries.Perm (entries[i] :: entries.eraseIdx i) :=
    (List.getElem_cons_eraseIdx_perm inside).symm
  have fresh : key entries[i] ∉ (entries.eraseIdx i).map key :=
    (List.nodup_cons.mp (distinct.perm front)).1
  rw [mapOf_perm value distinct front,mapOf_cons]
  exact (erase_insert _ fun member => fresh (mem_mapOf.mp member)).symm

theorem mapOf_set {σ α β : Type} [DecidableEq α] {key : σ → α} (value : σ → β) {entries : List σ}
    (distinct : Distinct key entries) {i : Nat} (inside : i < entries.length) {e : σ}
    (same : key e = key entries[i]) :
    mapOf key value (entries.set i e) = (mapOf key value entries).insert (key e) (value e) := by
  have front : (entries.set i e).Perm (e :: entries.eraseIdx i) :=
    List.set_perm_cons_eraseIdx inside e
  rw [mapOf_perm value (distinct.set inside same) front,mapOf_cons,
    mapOf_eraseIdx value distinct inside,← same,insert_erase]

theorem card_mapOf {σ α β : Type} [DecidableEq α] {key : σ → α} (value : σ → β) {entries : List σ}
    (distinct : Distinct key entries) : (mapOf key value entries).keys.card = entries.length := by
  have keys : (mapOf key value entries).keys = (entries.map key).toFinset := by
    apply Finset.ext
    intro k
    rw [Finmap.mem_keys,mem_mapOf,List.mem_toFinset]
  rw [keys,List.toFinset_card_of_nodup distinct,List.length_map]

end Foundation.EntryMap
