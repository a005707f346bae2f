import Xbtos.HeapShape
import Mathlib.Logic.Relation

/-! Whole runs of kmalloc and kfree. The live list is the callers' view: pointers
returned and not freed since, with the size asked for. A call that does not
return takes no step. -/
namespace Xbtos.Heap
open Foundation.ByteMemory Foundation.Links Foundation.Tiling

structure System where
  heap : State
  live : List (Nat × Nat)

def boot (memory : Memory) : System := ⟨heapInit memory,[]⟩

/-- One returned call. `allowed` restricts which live pointers may be freed. -/
inductive Step (allowed : State → Nat → Prop) : System → System → Prop
  | kmalloc (s : System) (fuel requested p : Nat) (h' : State)
      (word : requested + sizeofHeader < 2^32)
      (returned : kmalloc fuel requested s.heap = some (p,h')) :
      Step allowed s ⟨h',if p = 0 then s.live else (p,requested)::s.live⟩
  | kfreeNull (s : System) : Step allowed s { s with heap := kfree 0 s.heap }
  | kfree (s : System) (p requested : Nat) (held : (p,requested) ∈ s.live)
      (permitted : allowed s.heap p) :
      Step allowed s ⟨kfree p s.heap,s.live.filter (fun e => e.1 ≠ p)⟩

def anyLive (_ : State) (_ : Nat) : Prop := True

def Reaches (allowed : State → Nat → Prop) (memory : Memory) (s : System) : Prop :=
  Relation.ReflTransGen (Step allowed) (boot memory) s

theorem Reaches.kmalloc {allowed : State → Nat → Prop} {memory : Memory} {h h' : State}
    {live : List (Nat × Nat)} {fuel requested p : Nat} (run : Reaches allowed memory ⟨h,live⟩)
    (word : requested + sizeofHeader < 2^32) (real : p ≠ 0)
    (returned : kmalloc fuel requested h = some (p,h')) :
    Reaches allowed memory ⟨h',(p,requested)::live⟩ := by
  have step := run.tail (.kmalloc _ fuel requested p h' word returned)
  rw [if_neg real] at step
  exact step

theorem Reaches.kfree {allowed : State → Nat → Prop} {memory : Memory} {s : System}
    {p requested : Nat} (run : Reaches allowed memory s) (held : (p,requested) ∈ s.live)
    (permitted : allowed s.heap p) :
    Reaches allowed memory ⟨kfree p s.heap,s.live.filter (fun e => e.1 ≠ p)⟩ :=
  run.tail (.kfree s p requested held permitted)

structure Owned (live : List (Nat × Nat)) (h : State) (blocks : List Nat) : Prop where
  block : ∀ e ∈ live, ∃ b ∈ blocks, e.1 = b + sizeofHeader ∧ free h.memory b = 0 ∧
    e.2 + sizeofHeader ≤ size h.memory b
  distinct : (live.map Prod.fst).Nodup

theorem Owned.live_block {live : List (Nat × Nat)} {h : State} {blocks : List Nat}
    (owned : Owned live h blocks) {b n : Nat} (held : (b + sizeofHeader,n) ∈ live) :
    b ∈ blocks ∧ free h.memory b = 0 := by
  obtain ⟨a,member,address,flag,_⟩ := owned.block _ held
  have same : b = a := Nat.add_right_cancel address
  exact same ▸ ⟨member,flag⟩

theorem Owned.give {live : List (Nat × Nat)} {h h' : State} {blocks blocks' : List Nat}
    {c n : Nat} (owned : Owned live h blocks) (clear : free h.memory c ≠ 0)
    (member : c ∈ blocks') (flag : free h'.memory c = 0)
    (enough : n + sizeofHeader ≤ size h'.memory c)
    (kept : ∀ b ∈ blocks, b ≠ c → b ∈ blocks' ∧ free h'.memory b = free h.memory b ∧
      size h'.memory b = size h.memory b) :
    Owned ((c + sizeofHeader,n)::live) h' blocks' := by
  have others : ∀ e ∈ live, ∃ b ∈ blocks, b ≠ c ∧ e.1 = b + sizeofHeader ∧
      free h.memory b = 0 ∧ e.2 + sizeofHeader ≤ size h.memory b := by
    intro e held
    obtain ⟨b,inside,address,zero,bound⟩ := owned.block e held
    exact ⟨b,inside,fun same => clear (same ▸ zero),address,zero,bound⟩
  refine ⟨?_,?_⟩
  · intro e held
    rcases List.mem_cons.mp held with rfl | old
    · exact ⟨c,member,rfl,flag,enough⟩
    · obtain ⟨b,inside,other,address,zero,bound⟩ := others e old
      obtain ⟨still,sameFlag,sameSize⟩ := kept b inside other
      exact ⟨b,still,address,sameFlag.trans zero,sameSize ▸ bound⟩
  · rw [List.map_cons,List.nodup_cons]
    refine ⟨?_,owned.distinct⟩
    intro again
    obtain ⟨e,held,address⟩ := List.mem_map.mp again
    obtain ⟨b,_,other,place,_,_⟩ := others e held
    exact other (Nat.add_right_cancel (place.symm.trans address))

theorem Owned.take {live : List (Nat × Nat)} {h h' : State} {blocks : List Nat} {b : Nat}
    (owned : Owned live h blocks) (step : Freed h h' blocks b) :
    Owned (live.filter (fun e => e.1 ≠ b + sizeofHeader)) h' blocks := by
  refine ⟨?_,?_⟩
  · intro e held
    obtain ⟨old,other⟩ := List.mem_filter.mp held
    obtain ⟨a,inside,address,flag,bound⟩ := owned.block e old
    have different : a ≠ b := by
      intro same
      subst same
      simp [address] at other
    have same := step.rest a inside different
    exact ⟨a,inside,address,(fields_free same).trans flag,fields_size same ▸ bound⟩
  · exact owned.distinct.sublist (List.filter_sublist.map _)

/-- The block tiling and the ownership of live pointers survive every call, however
the free list is linked. -/
theorem Step.shape {allowed : State → Nat → Prop} {s s' : System} {blocks : List Nat}
    (shape : Shape s.heap blocks) (owned : Owned s.live s.heap blocks) (step : Step allowed s s') :
    ∃ blocks', Shape s'.heap blocks' ∧ Owned s'.live s'.heap blocks' := by
  cases step with
  | kmalloc fuel requested p h' word returned =>
    rcases kmalloc_outcome shape word returned with
      ⟨rfl,rfl⟩ | ⟨c,member,rfl,clear,enough,_,split | ⟨prev,taken⟩⟩
    · exact ⟨blocks,shape,owned⟩
    · obtain ⟨cut,shape',members⟩ := split.shape shape member
      have real : c + sizeofHeader ≠ 0 := by unfold sizeofHeader; omega
      refine ⟨cut,shape',?_⟩
      simp only [real,if_false]
      refine owned.give clear ((members c).mpr (.inl member)) (congrArg Fields.free split.front)
        (Nat.le_of_eq (congrArg Fields.size split.front).symm) ?_
      intro b inside other
      have same := split.rest b inside other
      exact ⟨(members b).mpr (.inl inside),fields_free same,fields_size same⟩
    · have real : c + sizeofHeader ≠ 0 := by unfold sizeofHeader; omega
      refine ⟨blocks,taken.shape shape member,?_⟩
      simp only [real,if_false]
      refine owned.give clear member taken.flag ((taken.sizes c member).symm ▸ enough) ?_
      exact fun b inside other => ⟨inside,taken.flags b inside other,taken.sizes b inside⟩
  | kfreeNull => exact ⟨blocks,shape,owned⟩
  | kfree p requested held permitted =>
    obtain ⟨b,member,address,_,_⟩ := owned.block _ held
    simp only at address
    subst address
    have freed := kfree_freed shape member
    exact ⟨blocks,freed.shape shape member,owned.take freed⟩

theorem Reaches.shape {allowed : State → Nat → Prop} {memory : Memory} {s : System}
    (run : Reaches allowed memory s) :
    ∃ blocks, Shape s.heap blocks ∧ Owned s.live s.heap blocks := by
  induction run with
  | refl => exact ⟨[heapStart],heapInit_shape memory,by simp [boot],by simp [boot]⟩
  | tail before step ih =>
    obtain ⟨blocks,shape,owned⟩ := ih
    exact step.shape shape owned

/-- What the callers of the heap rely on, for the blocks met by walking the arena. -/
structure Separated (s : System) (blocks : List Nat) : Prop where
  tiles : Tiles (size s.heap.memory) heapEnd heapStart blocks
  large : ∀ b ∈ blocks, sizeofHeader < size s.heap.memory b
  owned : ∀ e ∈ s.live, ∃ b ∈ blocks, e.1 = b + sizeofHeader ∧ free s.heap.memory b = 0 ∧
    e.2 + sizeofHeader ≤ size s.heap.memory b
  distinct : (s.live.map Prod.fst).Nodup
  disjoint : s.live.Pairwise (fun e f => e.1 + e.2 ≤ f.1 ∨ f.1 + f.2 ≤ e.1)
  inside : ∀ e ∈ s.live, heapStart ≤ e.1 ∧ e.1 + e.2 ≤ heapEnd
  headers : ∀ e ∈ s.live, ∀ b ∈ blocks, ∀ x, e.1 ≤ x → x < e.1 + e.2 →
    ¬ (b ≤ x ∧ x < b + sizeofHeader)

theorem Owned.separated {s : System} {blocks : List Nat} (shape : Shape s.heap blocks)
    (owned : Owned s.live s.heap blocks) : Separated s blocks := by
  refine ⟨shape.tiles,shape.large,owned.block,owned.distinct,?_,?_,?_⟩
  · have apart := List.pairwise_map.mp owned.distinct
    apply apart.imp_of_mem
    intro e f first second different
    obtain ⟨a,one,atA,_,boundA⟩ := owned.block e first
    obtain ⟨b,two,atB,_,boundB⟩ := owned.block f second
    have blocksDiffer : a ≠ b := fun same => different (by omega)
    have := shape.tiles.apart one two blocksDiffer
    omega
  · intro e held
    obtain ⟨b,member,address,_,bound⟩ := owned.block e held
    have bounds := shape.bounds member
    omega
  · intro e held b member x lower upper
    obtain ⟨a,one,address,_,bound⟩ := owned.block e held
    have large := shape.large b member
    by_cases same : a = b
    · omega
    · have := shape.tiles.apart one member same
      omega

/-- In every state reached by returned calls, live allocations are disjoint, inside
the arena and clear of every header, even when the free list is damaged. -/
theorem live_separated (memory : Memory) (s : System) (run : Reaches anyLive memory s) :
    ∃ blocks, Separated s blocks := by
  obtain ⟨blocks,shape,owned⟩ := run.shape
  exact ⟨blocks,owned.separated shape⟩

theorem live_separated_after_free :
    ∃ s, Reaches anyLive (fun _ => 0) s ∧ s.live = [(0x20007C,200)] ∧
      ∃ blocks, Separated s blocks := by
  let start := heapInit (fun _ => 0)
  let first := takeBlock start 112 0x200000 0
  let second := takeBlock first 212 0x200070 0x200000
  have one : kmalloc 1 100 start = some (0x20000C,first) :=
    kmalloc_first _ (by decide) (by decide)
  have two : kmalloc 2 200 first = some (0x20007C,second) := by
    have head : first.freeList = 0x200000 := by decide +kernel
    have skipped : ¬ fits first.memory 212 0x200000 := by decide +kernel
    have link : next first.memory 0x200000 = 0x200070 := by decide +kernel
    have good : fits first.memory 212 0x200070 := by decide +kernel
    have step := kmallocLoop_skip 1 0 (by decide) skipped
    rw [link,kmallocLoop_found 0 _ (by decide) good] at step
    rw [kmalloc_loop 2 (by decide),head]
    exact step
  have run : Reaches anyLive (fun _ => 0) ⟨second,[(0x20007C,200),(0x20000C,100)]⟩ :=
    (Reaches.kmalloc .refl (by decide) (by decide) one).kmalloc (by decide) (by decide) two
  have held : (0x20000C,100) ∈ [(0x20007C,200),(0x20000C,100)] := by simp
  have freed := run.kfree held trivial
  exact ⟨_,freed,rfl,live_separated _ _ freed⟩

end Xbtos.Heap
