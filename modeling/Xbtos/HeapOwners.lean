import Xbtos.HeapRun
import Xbtos.Foundation.Objects

/-! malloc and free of kernel/memory/stdlib.cpp, and what their callers do with the memory between the
calls: each stores into what it was given, wherever and whatever it likes. -/
namespace Xbtos.Stdlib
open Foundation.ByteMemory

/-- size_t has 32 bits. -/
def malloc (fuel size : Nat) (h : Heap.State) : Option (Nat × Heap.State) := Heap.kmalloc fuel (wrap size) h

def free (ptr : Nat) (h : Heap.State) : Heap.State := if ptr ≠ 0 then Heap.kfree ptr h else h

end Xbtos.Stdlib

namespace Xbtos.Heap
open Foundation.ByteMemory Foundation.Tiling Foundation.Objects

def storeByte (h : State) (a : Nat) (v : UInt8) : State := { h with memory := write8 h.memory a v }

/-- What one owner does. A malloc gives it the bytes that are there. -/
inductive Does : System → Event UInt8 → System → Prop
  | malloc (s : System) (fuel size p : Nat) (h' : State) (word : size + sizeofHeader < 2^32)
      (returned : Stdlib.malloc fuel size s.heap = some (p,h')) (real : p ≠ 0) :
      Does s (.make p (region s.heap.memory p size)) ⟨h',(p,size)::s.live⟩
  | refused (s : System) (fuel size : Nat) (h' : State) (word : size + sizeofHeader < 2^32)
      (returned : Stdlib.malloc fuel size s.heap = some (0,h')) : Does s .nothing ⟨h',s.live⟩
  | free (s : System) (p size : Nat) (held : (p,size) ∈ s.live) :
      Does s (.drop p) ⟨Stdlib.free p s.heap,s.live.filter fun e => e.1 ≠ p⟩
  | freeNull (s : System) : Does s .nothing ⟨Stdlib.free 0 s.heap,s.live⟩
  | store (s : System) (p size i : Nat) (v : UInt8) (held : (p,size) ∈ s.live) (inside : i < size) :
      Does s (.put p i v) ⟨storeByte s.heap (p + i) v,s.live⟩

/-- The owners' doings after heap_init, in any order. -/
inductive OwnersRun (memory : Memory) : List (Event UInt8) → System → Prop
  | boot : OwnersRun memory [] (boot memory)
  | step {events : List (Event UInt8)} {event : Event UInt8} {s s' : System}
      (before : OwnersRun memory events s) (does : Does s event s') : OwnersRun memory (events ++ [event]) s'

/-! The calls write headers only. -/

def Beside (x b : Nat) : Prop := x < b ∨ b + sizeofHeader ≤ x

section
variable (m : Memory) {a x : Nat}

theorem setSize_beside (v : Nat) (beside : Beside x a) : setSize m a v x = m x := by
  unfold Beside sizeofHeader at beside
  exact write32_other m v (by omega)

theorem setFree_beside (v : UInt8) (beside : Beside x a) : setFree m a v x = m x := by
  unfold Beside sizeofHeader at beside
  exact write8_other m v (by omega)

theorem setNext_beside (v : Nat) (beside : Beside x a) : setNext m a v x = m x := by
  unfold Beside sizeofHeader at beside
  exact write32_other m v (by omega)

end

section
variable {h : State} {x : Nat}

theorem relink_beside {prev : Nat} (target : Nat) (before : prev ≠ 0 → Beside x prev) :
    (relink h prev target).memory x = h.memory x := by
  unfold relink
  split
  next some => exact setNext_beside _ _ (before some)
  next => rfl

theorem splitBlock_beside {totalSize c prev : Nat} (new : Beside x (wrap (c + totalSize))) (curr : Beside x c)
    (before : prev ≠ 0 → Beside x prev) : (splitBlock h totalSize c prev).memory x = h.memory x := by
  unfold splitBlock
  refine (relink_beside _ before).trans ?_
  dsimp only
  rw [setNext_beside _ _ curr,setFree_beside _ _ curr,setSize_beside _ _ curr,
    setNext_beside _ _ new,setFree_beside _ _ new,setSize_beside _ _ new]

theorem takeWhole_beside {c prev : Nat} (curr : Beside x c) (before : prev ≠ 0 → Beside x prev) :
    (takeWhole h c prev).memory x = h.memory x := by
  unfold takeWhole
  rw [relink_beside _ before]
  exact setFree_beside _ _ curr

theorem kfree_beside {b : Nat} (beside : Beside x (headerOf b)) : (kfree b h).memory x = h.memory x := by
  unfold kfree
  split
  next => rfl
  next => exact (setNext_beside _ _ beside).trans (setFree_beside _ _ beside)

end

/-- The room for a remainder does not wrap. -/
theorem Shape.room {h : State} {blocks : List Nat} (shape : Shape h blocks) {c totalSize : Nat}
    (member : c ∈ blocks) (enough : totalSize ≤ size h.memory c) :
    wrap (wrap (totalSize + sizeofHeader) + 32) = totalSize + sizeofHeader + 32 := by
  have bounds := shape.bounds member
  unfold heapEnd heapStart heapSize at bounds
  unfold wrap sizeofHeader
  omega

theorem takeBlock_beside {h : State} {blocks : List Nat} (shape : Shape h blocks)
    {totalSize c prev : Nat} (visit : Visit h totalSize c prev) (real : c ≠ 0)
    (good : fits h.memory totalSize c) (positive : sizeofHeader < totalSize) : ∃ blocks',
    Shape (takeBlock h totalSize c prev) blocks' ∧
      ∀ x, (∀ b ∈ blocks', Beside x b) → (takeBlock h totalSize c prev).memory x = h.memory x := by
  have member := shape.visited visit real
  have before : prev ≠ 0 → prev ∈ blocks := by
    intro some
    rcases visit.prev_cases with ⟨none,_⟩ | ⟨_,_,_,earlier,visited⟩
    · exact absurd none some
    · exact shape.visited visited some
  have bounds := shape.bounds member
  unfold heapEnd heapStart heapSize at bounds
  have enough := good.2
  unfold takeBlock
  rw [shape.room member enough]
  split
  next wide =>
    have split := splitBlock_split shape visit real good positive wide
    obtain ⟨cut,shape',members⟩ := split.shape shape member
    refine ⟨cut,shape',fun x outside => splitBlock_beside (outside _ ?_)
      (outside c ((members c).mpr (.inl member))) fun some => outside prev ((members prev).mpr (.inl (before some)))⟩
    rw [wrap_of_lt (by omega)]
    exact (members _).mpr (.inr rfl)
  next narrow =>
    have taken := takeWhole_taken shape visit real good
    exact ⟨blocks,taken.shape shape member,fun x outside =>
      takeWhole_beside (outside c member) fun some => outside prev (before some)⟩

theorem kmalloc_beside {h h' : State} {blocks : List Nat} {fuel requested p : Nat} (shape : Shape h blocks)
    (word : requested + sizeofHeader < 2^32) (returned : kmalloc fuel requested h = some (p,h')) :
    ∃ blocks', Shape h' blocks' ∧ ∀ x, (∀ b ∈ blocks', Beside x b) → h'.memory x = h.memory x := by
  rcases kmalloc_cases _ _ _ _ returned with ⟨_,result⟩ | ⟨_,_,result⟩ | ⟨c,prev,some,visit,real,good,result⟩
  · obtain ⟨_,rfl⟩ := Prod.mk.inj result
    exact ⟨blocks,shape,fun _ _ => rfl⟩
  · obtain ⟨_,rfl⟩ := Prod.mk.inj result
    exact ⟨blocks,shape,fun _ _ => rfl⟩
  · obtain ⟨_,rfl⟩ := Prod.mk.inj result
    rw [wrap_of_lt word] at visit good ⊢
    exact takeBlock_beside shape visit real good (by omega)

/-! The owners. -/

theorem Owned.beside {live : List (Nat × Nat)} {h : State} {blocks : List Nat} (shape : Shape h blocks)
    (owned : Owned live h blocks) {e : Nat × Nat} (held : e ∈ live) {x : Nat} (lower : e.1 ≤ x)
    (upper : x < e.1 + e.2) {b : Nat} (member : b ∈ blocks) : Beside x b := by
  have clear := (Owned.separated (s := ⟨h,live⟩) shape owned).headers e held b member x lower upper
  unfold Beside
  omega

theorem Owned.apart {live : List (Nat × Nat)} {h : State} {blocks : List Nat} (shape : Shape h blocks)
    (owned : Owned live h blocks) {e f : Nat × Nat} (first : e ∈ live) (second : f ∈ live)
    (different : e.1 ≠ f.1) : e.1 + e.2 ≤ f.1 ∨ f.1 + f.2 ≤ e.1 := by
  obtain ⟨a,one,atA,_,boundA⟩ := owned.block e first
  obtain ⟨b,two,atB,_,boundB⟩ := owned.block f second
  have separate := shape.tiles.apart one two (by omega)
  omega

/-- A heap whose headers and free list are those of another one. -/
def SameHeaders (h h' : State) (blocks : List Nat) : Prop :=
  h'.freeList = h.freeList ∧ ∀ b ∈ blocks, fields h'.memory b = fields h.memory b

theorem SameHeaders.shape {h h' : State} {blocks : List Nat} (same : SameHeaders h h' blocks)
    (shape : Shape h blocks) : Shape h' blocks := by
  obtain ⟨head,headers⟩ := same
  refine ⟨shape.tiles.congr fun b inside => fields_size (headers b inside),fun b inside => ?_,?_,fun b inside => ?_⟩
  · rw [fields_size (headers b inside)]
    exact shape.large b inside
  · rw [head]
    exact shape.head
  · rw [fields_next (headers b inside)]
    exact shape.links b inside

theorem SameHeaders.owned {h h' : State} {blocks : List Nat} (same : SameHeaders h h' blocks)
    {live : List (Nat × Nat)} (owned : Owned live h blocks) : Owned live h' blocks := by
  refine ⟨fun e held => ?_,owned.distinct⟩
  obtain ⟨b,inside,address,flag,bound⟩ := owned.block e held
  have header := same.2 b inside
  exact ⟨b,inside,address,(fields_free header).trans flag,fields_size header ▸ bound⟩

/-- A store of an owner reaches no header. -/
theorem Owned.storeByte {live : List (Nat × Nat)} {h : State} {blocks : List Nat} (shape : Shape h blocks)
    (owned : Owned live h blocks) {p size i : Nat} (held : (p,size) ∈ live) (inside : i < size) (v : UInt8) :
    SameHeaders h (Heap.storeByte h (p + i) v) blocks := by
  refine ⟨rfl,fun b member => fields_congr fun x lower upper => write8_other h.memory v ?_⟩
  rintro rfl
  have beside := owned.beside shape held (Nat.le_add_right p i) (Nat.add_lt_add_left inside p) member
  unfold Beside at beside
  omega

/-- What holds between the owners' doings: they hold what the objects would be. -/
structure OwnersHold (s : System) (store : Store UInt8) : Prop where
  blocks : ∃ blocks, Shape s.heap blocks ∧ Owned s.live s.heap blocks
  objects : held s.heap.memory s.live = store

theorem held_beside {live : List (Nat × Nat)} {h h' : State} {blocks : List Nat} (shape : Shape h' blocks)
    (owned : Owned live h' blocks) (same : ∀ x, (∀ b ∈ blocks, Beside x b) → h'.memory x = h.memory x) :
    held h'.memory live = held h.memory live :=
  held_congr fun _ held x lower upper => same x fun _ member => owned.beside shape held lower upper member

theorem malloc_kept {s : System} {blocks : List Nat} (shape : Shape s.heap blocks)
    (owned : Owned s.live s.heap blocks) {fuel size p : Nat} {h' : State} (word : size + sizeofHeader < 2^32)
    (returned : Stdlib.malloc fuel size s.heap = some (p,h')) :
    ∃ blocks', let live := if p = 0 then s.live else (p,size)::s.live
      Shape h' blocks' ∧ Owned live h' blocks' ∧ held h'.memory live = held s.heap.memory live := by
  unfold Stdlib.malloc at returned
  rw [wrap_of_lt (by omega)] at returned
  have step : Step anyLive s _ := .kmalloc s fuel size p h' word returned
  obtain ⟨blocks',shape',owned'⟩ := step.shape shape owned
  obtain ⟨others,shaped,beside⟩ := kmalloc_beside shape word returned
  rw [shaped.tiles.unique shape'.tiles] at beside
  exact ⟨blocks',shape',owned',held_beside shape' owned' beside⟩

theorem Does.kept {s s' : System} {event : Event UInt8} {store : Store UInt8} (kept : OwnersHold s store)
    (does : Does s event s') : OwnersHold s' (event.act store) := by
  obtain ⟨⟨blocks,shape,owned⟩,rfl⟩ := kept
  cases does with
  | malloc fuel size p h' word returned real =>
    obtain ⟨blocks',shape',owned',same⟩ := malloc_kept shape owned word returned
    rw [if_neg real] at owned' same
    exact ⟨⟨blocks',shape',owned'⟩,same⟩
  | refused fuel size h' word returned =>
    obtain ⟨blocks',shape',owned',same⟩ := malloc_kept shape owned word returned
    exact ⟨⟨blocks',shape',owned'⟩,same⟩
  | free p size member =>
    obtain ⟨b,inside,address,_,_⟩ := owned.block _ member
    dsimp only at address
    subst address
    have real : b + sizeofHeader ≠ 0 := by unfold sizeofHeader; omega
    have freed := kfree_freed shape inside
    unfold Stdlib.free
    rw [if_pos real]
    refine ⟨⟨blocks,freed.shape shape inside,owned.take freed⟩,?_⟩
    rw [← held_drop]
    refine held_beside (freed.shape shape inside) (owned.take freed) fun x outside => ?_
    dsimp only
    apply kfree_beside
    rw [shape.headerOf inside]
    exact outside b inside
  | freeNull => exact ⟨⟨blocks,shape,owned⟩,rfl⟩
  | store p size i v member inside =>
    have same := owned.storeByte shape member inside v
    refine ⟨⟨blocks,same.shape shape,same.owned owned⟩,?_⟩
    exact held_put (fun e first f second => owned.apart shape first second) member inside v

theorem OwnersRun.kept {memory : Memory} {events : List (Event UInt8)} {s : System}
    (run : OwnersRun memory events s) : OwnersHold s (acts events []) := by
  induction run with
  | boot => exact ⟨⟨[heapStart],heapInit_shape memory,by simp [Heap.boot],by simp [Heap.boot]⟩,rfl⟩
  | step before does ih =>
    rw [acts_snoc]
    exact does.kept ih

/-- However the owners' calls and stores are interleaved, each of them finds in its memory what it has
stored there, as if nobody else had any, and the blocks stay apart. -/
theorem objects_kept {memory : Memory} {events : List (Event UInt8)} {s : System}
    (run : OwnersRun memory events s) :
    held s.heap.memory s.live = acts events [] ∧ ∃ blocks, Separated s blocks := by
  obtain ⟨⟨blocks,shape,owned⟩,objects⟩ := run.kept
  exact ⟨objects,blocks,owned.separated shape⟩

theorem objects_kept_pair : ∃ s events, OwnersRun (fun _ => 0) events s ∧
    s.live = [(0x20007C,2),(0x20000C,100)] ∧ held s.heap.memory s.live = acts events [] := by
  let start := heapInit fun _ => 0
  let first := takeBlock start 112 0x200000 0
  let stored := storeByte first (0x20000C + 99) 0xFF
  let second := takeBlock stored 14 0x200070 0x200000
  have one : Stdlib.malloc 1 100 start = some (0x20000C,first) := kmalloc_first _ (by decide) (by decide)
  have two : Stdlib.malloc 2 2 stored = some (0x20007C,second) := by
    have head : stored.freeList = 0x200000 := by decide +kernel
    have skipped : ¬ fits stored.memory 14 0x200000 := by decide +kernel
    have link : next stored.memory 0x200000 = 0x200070 := by decide +kernel
    have good : fits stored.memory 14 0x200070 := by decide +kernel
    have step := kmallocLoop_skip 1 0 (by decide) skipped
    rw [link,kmallocLoop_found 0 _ (by decide) good] at step
    unfold Stdlib.malloc
    rw [wrap_of_lt (by decide),kmalloc_loop 2 (by decide),head]
    exact step
  have member : (0x20000C,100) ∈ [(0x20000C,100)] := List.mem_singleton.mpr rfl
  have given := OwnersRun.boot.step (.malloc (boot fun _ => 0) 1 100 0x20000C first (by decide) one (by decide))
  have kept := given.step (.store _ 0x20000C 100 99 0xFF member (by decide))
  have run := kept.step (.malloc _ 2 2 0x20007C second (by decide) two (by decide))
  exact ⟨_,_,run,rfl,(objects_kept run).1⟩

end Xbtos.Heap
