import Xbtos.HeapRun

/-! The free list over whole runs. A block cut from a larger one stays linked while
it is allocated, a block handed out whole does not; kfree pushes both alike. -/
namespace Xbtos.Heap
open Foundation.ByteMemory Foundation.Links Foundation.Tiling

/-- The chain of next pointers from free_list is acyclic and ends in null. -/
def FiniteList (h : State) : Prop :=
  ∃ nodes, Chain (next h.memory) 0 h.freeList nodes ∧ nodes.Nodup

/-- The header of the pointer is not on the chain. -/
def Unlinked (h : State) (ptr : Nat) : Prop :=
  ¬ Linked (next h.memory) 0 h.freeList (headerOf ptr)

theorem finiteList_iff (h : State) : FiniteList h ↔ Ends (next h.memory) 0 h.freeList := by
  constructor
  · rintro ⟨nodes,chain,_⟩
    exact chain.ends
  · intro ends
    obtain ⟨nodes,chain⟩ := ends.chain
    exact ⟨nodes,chain,chain.nodup⟩

theorem kmallocLoop_returns (h : State) (totalSize : Nat) {curr : Nat}
    (ends : Ends (next h.memory) 0 curr) (prev : Nat) :
    ∃ fuel result, kmallocLoop h totalSize fuel curr prev = some result := by
  induction ends generalizing prev with
  | null => exact ⟨1,(0,h),by simp [kmallocLoop]⟩
  | link a real rest ih =>
    by_cases good : fits h.memory totalSize a
    · exact ⟨1,_,kmallocLoop_found 0 prev real good⟩
    · obtain ⟨fuel,result,returned⟩ := ih a
      exact ⟨fuel+1,result,(kmallocLoop_skip fuel prev real good).trans returned⟩

theorem kmalloc_returns {h : State} (finite : FiniteList h) (requested : Nat) :
    ∃ fuel result, kmalloc fuel requested h = some result := by
  by_cases none : requested = 0
  · exact ⟨0,(0,h),by simp [kmalloc,none]⟩
  · obtain ⟨fuel,result,returned⟩ :=
      kmallocLoop_returns h (wrap (requested + sizeofHeader)) ((finiteList_iff h).mp finite) 0
    exact ⟨fuel,result,(kmalloc_loop fuel none).trans returned⟩

theorem Split.ends {h h' : State} {blocks : List Nat} {c totalSize : Nat}
    (shape : Shape h blocks) (step : Split h h' blocks c totalSize)
    (ends : Ends (next h.memory) 0 h.freeList) : Ends (next h'.memory) 0 h'.freeList := by
  have positive := step.positive
  have real : c + totalSize ≠ 0 := by omega
  have front : next h'.memory c = c + totalSize := congrArg Fields.next step.front
  have back : next h'.memory (c + totalSize) = next h.memory c := congrArg Fields.next step.back
  rw [step.head]
  exact ends.insert (S := (· ∈ blocks)) shape.links real front back
    (fun b inside other => fields_next (step.rest b inside other)) shape.head

theorem Taken.ends {h h' : State} {blocks : List Nat} {c prev : Nat} (real : c ≠ 0)
    (shape : Shape h blocks) (step : Taken h h' blocks c prev)
    (ends : Ends (next h.memory) 0 h.freeList) : Ends (next h'.memory) 0 h'.freeList := by
  by_cases first : prev = 0
  · obtain ⟨same,head,links⟩ := step.first first
    have member := shape.head (same ▸ real)
    rw [head,same]
    exact (ends.next (same ▸ real)).congr (S := (· ∈ blocks)) shape.links links
      (shape.links _ member)
  · obtain ⟨linked,_,_,_,head,bypass,links⟩ := step.later first
    subst linked
    rw [head]
    exact ends.unlink (S := (· ∈ blocks)) shape.links real bypass links shape.head

theorem kmalloc_ends {h h' : State} {blocks : List Nat} {fuel requested p : Nat}
    (shape : Shape h blocks) (word : requested + sizeofHeader < 2^32)
    (returned : kmalloc fuel requested h = some (p,h'))
    (ends : Ends (next h.memory) 0 h.freeList) : Ends (next h'.memory) 0 h'.freeList := by
  rcases kmalloc_outcome shape word returned with
    ⟨_,rfl⟩ | ⟨c,_,_,_,_,linked,split | ⟨prev,taken⟩⟩
  · exact ends
  · exact split.ends shape ends
  · exact taken.ends linked.real shape ends

theorem Freed.ends_iff {h h' : State} {blocks : List Nat} {b : Nat} (shape : Shape h blocks)
    (member : b ∈ blocks) (step : Freed h h' blocks b)
    (ends : Ends (next h.memory) 0 h.freeList) :
    Ends (next h'.memory) 0 h'.freeList ↔ ¬ Linked (next h.memory) 0 h.freeList b := by
  have link : next h'.memory b = h.freeList := congrArg Fields.next step.front
  have agree : ∀ a ∈ blocks, a ≠ b → next h'.memory a = next h.memory a :=
    fun a inside other => fields_next (step.rest a inside other)
  have real : b ≠ 0 := by
    have bounds := shape.bounds member
    unfold heapStart at bounds
    omega
  rw [step.head]
  constructor
  · intro after linked
    exact Ends.push_linked (S := (· ∈ blocks)) shape.links link agree shape.head linked after
  · intro absent
    exact ends.push (S := (· ∈ blocks)) shape.links real link agree shape.head absent

theorem kfree_finite_iff {s : System} {blocks : List Nat} (shape : Shape s.heap blocks)
    (owned : Owned s.live s.heap blocks) (finite : FiniteList s.heap) {p n : Nat}
    (held : (p,n) ∈ s.live) : FiniteList (kfree p s.heap) ↔ Unlinked s.heap p := by
  obtain ⟨b,member,address,_⟩ := owned.block _ held
  simp only at address
  subst address
  rw [finiteList_iff,Unlinked,shape.headerOf member]
  exact (kfree_freed shape member).ends_iff shape member ((finiteList_iff _).mp finite)

theorem Step.finite {s s' : System} {blocks : List Nat} (shape : Shape s.heap blocks)
    (owned : Owned s.live s.heap blocks) (step : Step Unlinked s s') (finite : FiniteList s.heap) :
    FiniteList s'.heap := by
  cases step with
  | kmalloc fuel requested p h' word returned =>
    rw [finiteList_iff] at finite ⊢
    exact kmalloc_ends shape word returned finite
  | kfreeNull => exact finite
  | kfree p requested held permitted => exact (kfree_finite_iff shape owned finite held).mpr permitted

theorem heapInit_finite (memory : Memory) : FiniteList (heapInit memory) := by
  have link : next (heapInit memory).memory heapStart = 0 :=
    congrArg Fields.next (heapInit_fields memory)
  exact ⟨[heapStart],⟨rfl,by decide,link⟩,List.nodup_singleton _⟩

theorem Reaches.finite {memory : Memory} {s : System} (run : Reaches Unlinked memory s) :
    FiniteList s.heap := by
  induction run with
  | refl => exact heapInit_finite memory
  | tail before step ih =>
    obtain ⟨blocks,shape,owned⟩ := Reaches.shape before
    exact step.finite shape owned ih

/-- While only unlinked blocks are freed the list stays finite and every kmalloc
returns; and in such a state the next kfree keeps it so only for an unlinked block. -/
theorem list_finite_while_unlinked (memory : Memory) (s : System)
    (run : Reaches Unlinked memory s) :
    FiniteList s.heap ∧
    (∀ requested, ∃ fuel result, kmalloc fuel requested s.heap = some result) ∧
    ∀ p n, (p,n) ∈ s.live → (FiniteList (kfree p s.heap) ↔ Unlinked s.heap p) := by
  obtain ⟨blocks,shape,owned⟩ := run.shape
  exact ⟨run.finite,kmalloc_returns run.finite,
    fun p n held => kfree_finite_iff shape owned run.finite held⟩

theorem list_finite_after_whole_block :
    ∃ s, Reaches Unlinked (fun _ => 0) s ∧ s.heap.freeList = heapStart ∧ FiniteList s.heap := by
  let whole := takeBlock (heapInit (fun _ => 0)) heapSize heapStart 0
  have returned : kmalloc 1 (heapSize - sizeofHeader) (heapInit (fun _ => 0)) =
      some (heapStart + sizeofHeader,whole) := kmalloc_first _ (by decide) (by decide)
  have empty : whole.freeList = 0 := by decide +kernel
  have run : Reaches Unlinked (fun _ => 0)
      ⟨whole,[(heapStart + sizeofHeader,heapSize - sizeofHeader)]⟩ :=
    Reaches.kmalloc .refl (by decide) (by decide) returned
  have absent : Unlinked whole (heapStart + sizeofHeader) := by
    unfold Unlinked
    rw [empty]
    exact not_linked_null
  have freed := run.kfree (List.mem_singleton.mpr rfl) absent
  exact ⟨_,freed,by decide +kernel,(list_finite_while_unlinked _ _ freed).1⟩

/-- Freeing a block that was cut from the arena links it to itself. -/
theorem list_cyclic_after_split :
    ∃ s, Reaches anyLive (fun _ => 0) s ∧ ¬ FiniteList s.heap ∧
      ∀ fuel, kmalloc fuel 2000 s.heap = none := by
  let first := takeBlock (heapInit (fun _ => 0)) 112 heapStart 0
  let freed := kfree 0x20000C first
  have returned : kmalloc 1 100 (heapInit (fun _ => 0)) = some (0x20000C,first) :=
    kmalloc_first _ (by decide) (by decide)
  have held : Reaches anyLive (fun _ => 0) ⟨first,[(0x20000C,100)]⟩ :=
    Reaches.kmalloc .refl (by decide) (by decide) returned
  have run := held.kfree (List.mem_singleton.mpr rfl) trivial
  have head : freed.freeList = heapStart := by decide +kernel
  have loop : next freed.memory heapStart = heapStart := by decide +kernel
  have skipped : ¬ fits freed.memory 2012 heapStart := by decide +kernel
  have stuck : ∀ fuel prev, kmallocLoop freed 2012 fuel heapStart prev = none := by
    intro fuel
    induction fuel with
    | zero => exact fun _ => rfl
    | succ fuel ih =>
      intro prev
      rw [kmallocLoop_skip fuel prev (by decide) skipped,loop]
      exact ih heapStart
  have silent : ∀ fuel, kmalloc fuel 2000 freed = none := by
    intro fuel
    rw [kmalloc_loop fuel (by decide),head]
    exact stuck fuel 0
  refine ⟨_,run,?_,silent⟩
  intro finite
  obtain ⟨fuel,result,some⟩ := kmalloc_returns finite 2000
  rw [silent fuel] at some
  contradiction

/-! Blocks that are neither live nor available to a later kmalloc. -/

def Kept (s : System) (blocks : List Nat) : Prop :=
  ∀ b ∈ blocks, (∃ n, (b + sizeofHeader,n) ∈ s.live) ∨
    (Linked (next s.heap.memory) 0 s.heap.freeList b ∧ free s.heap.memory b ≠ 0)

def NothingLost (s : System) : Prop :=
  ∃ blocks, Tiles (size s.heap.memory) heapEnd heapStart blocks ∧ Kept s blocks

/-- No free block is reached only through the header of the pointer. -/
def NoFreeBehind (h : State) (ptr : Nat) : Prop :=
  ∀ b, Linked (next h.memory) 0 h.freeList b → free h.memory b ≠ 0 →
    Ahead (next h.memory) 0 h.freeList (headerOf ptr) b

theorem nothingLost_iff {s : System} {blocks : List Nat} (shape : Shape s.heap blocks) :
    NothingLost s ↔ Kept s blocks := by
  constructor
  · rintro ⟨other,tiles,kept⟩
    exact tiles.unique shape.tiles ▸ kept
  · exact fun kept => ⟨blocks,shape.tiles,kept⟩

theorem Split.linked {h h' : State} {blocks : List Nat} {c totalSize b : Nat}
    (shape : Shape h blocks) (step : Split h h' blocks c totalSize)
    (linked : Linked (next h.memory) 0 h.freeList b) :
    Linked (next h'.memory) 0 h'.freeList b := by
  have positive := step.positive
  have real : c + totalSize ≠ 0 := by omega
  have front : next h'.memory c = c + totalSize := congrArg Fields.next step.front
  have back : next h'.memory (c + totalSize) = next h.memory c := congrArg Fields.next step.back
  rw [step.head]
  exact linked.insert (S := (· ∈ blocks)) shape.links real front back
    (fun b inside other => fields_next (step.rest b inside other)) shape.head

theorem Taken.linked {h h' : State} {blocks : List Nat} {c prev b : Nat} (real : c ≠ 0)
    (shape : Shape h blocks) (step : Taken h h' blocks c prev)
    (linked : Linked (next h.memory) 0 h.freeList b) (other : b ≠ c) :
    Linked (next h'.memory) 0 h'.freeList b := by
  by_cases first : prev = 0
  · obtain ⟨same,head,links⟩ := step.first first
    have member := shape.head (same ▸ real)
    subst same
    rw [head]
    exact (linked.pop other).congr (S := (· ∈ blocks)) shape.links links (shape.links _ member)
  · obtain ⟨target,apart,_,found,head,bypass,links⟩ := step.later first
    subst target
    rw [head]
    exact linked.unlink (S := (· ∈ blocks)) shape.links found apart bypass links shape.head other

theorem kmalloc_kept {s : System} {blocks : List Nat} {fuel requested p : Nat} {h' : State}
    (shape : Shape s.heap blocks) (word : requested + sizeofHeader < 2^32)
    (returned : kmalloc fuel requested s.heap = some (p,h')) (kept : Kept s blocks) :
    NothingLost ⟨h',if p = 0 then s.live else (p,requested)::s.live⟩ := by
  rcases kmalloc_outcome shape word returned with
    ⟨rfl,rfl⟩ | ⟨c,member,rfl,_,_,linked,split | ⟨prev,taken⟩⟩
  · exact (nothingLost_iff shape).mpr kept
  · obtain ⟨cut,shape',members⟩ := split.shape shape member
    have real : c + sizeofHeader ≠ 0 := by unfold sizeofHeader; omega
    apply (nothingLost_iff shape').mpr
    simp only [Kept,real,if_false]
    intro b inside
    rcases (members b).mp inside with old | rfl
    · by_cases same : b = c
      · subst same
        exact .inl ⟨requested,List.mem_cons_self⟩
      · rcases kept b old with ⟨n,held⟩ | ⟨reached,flag⟩
        · exact .inl ⟨n,List.mem_cons_of_mem _ held⟩
        · exact .inr ⟨split.linked shape reached,fields_free (split.rest b old same) ▸ flag⟩
    · have front : next h'.memory c = c + (requested + sizeofHeader) :=
        congrArg Fields.next split.front
      have flag : free h'.memory (c + (requested + sizeofHeader)) = 1 :=
        congrArg Fields.free split.back
      have reached := (split.linked shape linked).next c (by rw [front]; unfold sizeofHeader; omega)
      exact .inr ⟨front ▸ reached,by rw [flag]; decide⟩
  · have real : c + sizeofHeader ≠ 0 := by unfold sizeofHeader; omega
    apply (nothingLost_iff (taken.shape shape member)).mpr
    simp only [Kept,real,if_false]
    intro b inside
    by_cases same : b = c
    · subst same
      exact .inl ⟨requested,List.mem_cons_self⟩
    · rcases kept b inside with ⟨n,held⟩ | ⟨reached,flag⟩
      · exact .inl ⟨n,List.mem_cons_of_mem _ held⟩
      · exact .inr ⟨taken.linked linked.real shape reached same,taken.flags b inside same ▸ flag⟩

theorem Freed.linked_iff {h h' : State} {blocks : List Nat} {b : Nat} (shape : Shape h blocks)
    (member : b ∈ blocks) (step : Freed h h' blocks b) (a : Nat) :
    Linked (next h'.memory) 0 h'.freeList a ↔ a = b ∨ Ahead (next h.memory) 0 h.freeList b a := by
  have real : b ≠ 0 := by
    have bounds := shape.bounds member
    unfold heapStart at bounds
    omega
  have link : next h'.memory b = h.freeList := congrArg Fields.next step.front
  rw [step.head]
  exact Linked.push_iff (S := (· ∈ blocks)) shape.links real link
    (fun a inside other => fields_next (step.rest a inside other)) shape.head

theorem kfree_kept_iff {s : System} {blocks : List Nat} (shape : Shape s.heap blocks)
    (owned : Owned s.live s.heap blocks) (kept : Kept s blocks) {p n : Nat}
    (held : (p,n) ∈ s.live) :
    NothingLost ⟨kfree p s.heap,s.live.filter (fun e => e.1 ≠ p)⟩ ↔ NoFreeBehind s.heap p := by
  obtain ⟨b,member,address,_⟩ := owned.block _ held
  simp only at address
  subst address
  have busy := (owned.live_block held).2
  have freed := kfree_freed shape member
  rw [nothingLost_iff (freed.shape shape member),NoFreeBehind,shape.headerOf member]
  constructor
  · intro after a linked flag
    have inside := shape.block_of_linked linked
    rcases after a inside with ⟨m,still⟩ | ⟨reached,_⟩
    · exact absurd (owned.live_block (List.mem_filter.mp still).1).2 flag
    · have other : a ≠ b := fun same => flag (same ▸ busy)
      exact ((freed.linked_iff shape member a).mp reached).resolve_left other
  · intro ahead a inside
    by_cases same : a = b
    · subst same
      have flag : free (kfree (a + sizeofHeader) s.heap).memory a = 1 :=
        congrArg Fields.free freed.front
      exact .inr ⟨(freed.linked_iff shape member a).mpr (.inl rfl),by rw [flag]; decide⟩
    · rcases kept a inside with ⟨m,still⟩ | ⟨reached,flag⟩
      · refine .inl ⟨m,List.mem_filter.mpr ⟨still,?_⟩⟩
        simpa using same
      · exact .inr ⟨(freed.linked_iff shape member a).mpr (.inr (ahead a reached flag)),
          fields_free (freed.rest a inside same) ▸ flag⟩

theorem Step.kept {s s' : System} {blocks : List Nat} (shape : Shape s.heap blocks)
    (owned : Owned s.live s.heap blocks) (step : Step NoFreeBehind s s') (kept : Kept s blocks) :
    NothingLost s' := by
  cases step with
  | kmalloc fuel requested p h' word returned => exact kmalloc_kept shape word returned kept
  | kfreeNull => exact (nothingLost_iff shape).mpr kept
  | kfree p requested held permitted => exact (kfree_kept_iff shape owned kept held).mpr permitted

theorem boot_kept (memory : Memory) : Kept (boot memory) [heapStart] := by
  intro b inside
  rw [List.mem_singleton.mp inside]
  have flag : free (heapInit memory).memory heapStart = 1 :=
    congrArg Fields.free (heapInit_fields memory)
  have real : heapStart ≠ 0 := by decide
  exact .inr ⟨.head real,by simp only [boot,flag]; decide⟩

theorem Reaches.nothing_lost {memory : Memory} {s : System}
    (run : Reaches NoFreeBehind memory s) : NothingLost s := by
  induction run with
  | refl => exact (nothingLost_iff (heapInit_shape memory)).mpr (boot_kept memory)
  | tail before step ih =>
    obtain ⟨blocks,shape,owned⟩ := Reaches.shape before
    exact step.kept shape owned ((nothingLost_iff shape).mp ih)

/-- While no free block is linked behind a block being freed, every block stays live
or available; and in such a state the next kfree keeps it so only under that
condition. -/
theorem nothing_lost_while_none_behind (memory : Memory) (s : System)
    (run : Reaches NoFreeBehind memory s) :
    NothingLost s ∧ ∀ p n, (p,n) ∈ s.live →
      (NothingLost ⟨kfree p s.heap,s.live.filter (fun e => e.1 ≠ p)⟩ ↔ NoFreeBehind s.heap p) := by
  obtain ⟨blocks,shape,owned⟩ := run.shape
  have kept := (nothingLost_iff shape).mp run.nothing_lost
  exact ⟨run.nothing_lost,fun p n held => kfree_kept_iff shape owned kept held⟩

theorem nothing_lost_after_both_taken :
    ∃ s, Reaches NoFreeBehind (fun _ => 0) s ∧ s.live = [(0x20007C,1048452)] ∧ NothingLost s := by
  let first := takeBlock (heapInit (fun _ => 0)) 112 heapStart 0
  obtain ⟨second,result⟩ : ∃ h, h = takeBlock first 1048464 0x200070 heapStart := ⟨_,rfl⟩
  have one : kmalloc 1 100 (heapInit (fun _ => 0)) = some (0x20000C,first) :=
    kmalloc_first _ (by decide) (by decide)
  have two : kmalloc 2 1048452 first = some (0x20007C,second) := by
    have head : first.freeList = heapStart := by decide +kernel
    have skipped : ¬ fits first.memory 1048464 heapStart := by decide +kernel
    have link : next first.memory heapStart = 0x200070 := by decide +kernel
    have good : fits first.memory 1048464 0x200070 := by decide +kernel
    have step := kmallocLoop_skip 1 0 (by decide) skipped
    rw [link,kmallocLoop_found 0 _ (by decide) good] at step
    rw [kmalloc_loop 2 (by decide),head,result]
    exact step
  have run : Reaches NoFreeBehind (fun _ => 0) ⟨second,[(0x20007C,1048452),(0x20000C,100)]⟩ :=
    (Reaches.kmalloc .refl (by decide) (by decide) one).kmalloc (by decide) (by decide) two
  have lone : NoFreeBehind second 0x20000C := by
    have head : second.freeList = heapStart := by rw [result]; decide +kernel
    have link : next second.memory heapStart = 0 := by rw [result]; decide +kernel
    have busy : free second.memory heapStart = 0 := by rw [result]; decide +kernel
    intro b linked flag
    rw [head] at linked
    rcases linked.split with rfl | later
    · exact absurd busy flag
    · rw [link] at later
      exact absurd later not_linked_null
  have freed := run.kfree (List.mem_cons_of_mem _ (List.mem_singleton.mpr rfl)) lone
  exact ⟨_,freed,rfl,(nothing_lost_while_none_behind _ _ freed).1⟩

/-- The remainder of the arena is lost when the block cut from it is freed. -/
theorem remainder_lost_after_split :
    ∃ s, Reaches anyLive (fun _ => 0) s ∧ ¬ NothingLost s := by
  let first := takeBlock (heapInit (fun _ => 0)) 112 heapStart 0
  have returned : kmalloc 1 100 (heapInit (fun _ => 0)) = some (0x20000C,first) :=
    kmalloc_first _ (by decide) (by decide)
  have before : Reaches NoFreeBehind (fun _ => 0) ⟨first,[(0x20000C,100)]⟩ :=
    Reaches.kmalloc .refl (by decide) (by decide) returned
  have held : Reaches anyLive (fun _ => 0) ⟨first,[(0x20000C,100)]⟩ :=
    Reaches.kmalloc .refl (by decide) (by decide) returned
  have run := held.kfree (List.mem_singleton.mpr rfl) trivial
  refine ⟨_,run,?_⟩
  obtain ⟨blocks,shape,owned⟩ := before.shape
  have kept := (nothingLost_iff shape).mp before.nothing_lost
  rw [kfree_kept_iff shape owned kept (List.mem_singleton.mpr rfl)]
  -- The remainder is free and linked, but only behind the block being freed.
  intro ahead
  have head : first.freeList = heapStart := by decide +kernel
  have link : next first.memory heapStart = 0x200070 := by decide +kernel
  have flag : free first.memory 0x200070 = 1 := by decide +kernel
  have linked : Linked (next first.memory) 0 first.freeList 0x200070 := by
    rw [head,← link]
    exact .next heapStart (.head (by decide)) (by rw [link]; decide)
  have found := ahead 0x200070 linked (by rw [flag]; decide)
  rw [head] at found
  exact absurd found.eq_head (by decide)

end Xbtos.Heap
