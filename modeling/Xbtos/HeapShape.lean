import Xbtos.Heap
import Xbtos.Foundation.Links
import Xbtos.Foundation.Tiling

/-! What one kmalloc or kfree does to the block tiling, for free lists of any
shape: a cyclic or truncated list is allowed, only its nodes must be blocks. -/
namespace Xbtos.Heap
open Foundation.ByteMemory Foundation.Links Foundation.Tiling

def heapEnd : Nat := heapStart + heapSize

structure Shape (h : State) (blocks : List Nat) : Prop where
  tiles : Tiles (size h.memory) heapEnd heapStart blocks
  large : ∀ b ∈ blocks, sizeofHeader < size h.memory b
  head : h.freeList ≠ 0 → h.freeList ∈ blocks
  links : ∀ b ∈ blocks, next h.memory b ≠ 0 → next h.memory b ∈ blocks

/-- The nodes the loop of kmalloc looks at, with the prev it holds there. -/
inductive Visit (h : State) (totalSize : Nat) : Nat → Nat → Prop
  | start : Visit h totalSize h.freeList 0
  | step (curr prev : Nat) (before : Visit h totalSize curr prev) (real : curr ≠ 0)
      (skipped : ¬ fits h.memory totalSize curr) : Visit h totalSize (next h.memory curr) curr

theorem kmallocLoop_cases (h : State) (totalSize fuel curr prev : Nat) (result : Nat × State)
    (visit : Visit h totalSize curr prev)
    (returned : kmallocLoop h totalSize fuel curr prev = some result) :
    (∃ last, Visit h totalSize 0 last ∧ result = (0,h)) ∨
    ∃ c p, Visit h totalSize c p ∧ c ≠ 0 ∧ fits h.memory totalSize c ∧
      result = (wrap (c + sizeofHeader),takeBlock h totalSize c p) := by
  induction fuel generalizing curr prev with
  | zero => simp [kmallocLoop] at returned
  | succ fuel ih =>
    unfold kmallocLoop at returned
    split at returned
    next none =>
      subst none
      exact .inl ⟨prev,visit,(Option.some.inj returned).symm⟩
    next real =>
      split at returned
      next good => exact .inr ⟨curr,prev,visit,real,good,(Option.some.inj returned).symm⟩
      next skipped => exact ih _ _ (.step curr prev visit real skipped) returned

theorem kmalloc_cases (h : State) (fuel requested : Nat) (result : Nat × State)
    (returned : kmalloc fuel requested h = some result) :
    (requested = 0 ∧ result = (0,h)) ∨
    (∃ last, Visit h (wrap (requested + sizeofHeader)) 0 last ∧ result = (0,h)) ∨
    ∃ c p, requested ≠ 0 ∧ Visit h (wrap (requested + sizeofHeader)) c p ∧ c ≠ 0 ∧
      fits h.memory (wrap (requested + sizeofHeader)) c ∧
      result = (wrap (c + sizeofHeader),takeBlock h (wrap (requested + sizeofHeader)) c p) := by
  unfold kmalloc at returned
  split at returned
  next none => exact .inl ⟨none,(Option.some.inj returned).symm⟩
  next some =>
    rcases kmallocLoop_cases _ _ _ _ _ _ .start returned with ended | ⟨c,p,found⟩
    · exact .inr (.inl ended)
    · exact .inr (.inr ⟨c,p,some,found⟩)

theorem kmalloc_loop {h : State} {requested : Nat} (fuel : Nat) (some : requested ≠ 0) :
    kmalloc fuel requested h = kmallocLoop h (wrap (requested + sizeofHeader)) fuel h.freeList 0 := by
  simp only [kmalloc,some,if_false]

theorem kmallocLoop_found {h : State} {totalSize curr : Nat} (fuel prev : Nat) (real : curr ≠ 0)
    (good : fits h.memory totalSize curr) :
    kmallocLoop h totalSize (fuel+1) curr prev =
      some (wrap (curr + sizeofHeader),takeBlock h totalSize curr prev) := by
  simp only [kmallocLoop,real,good,if_true,if_false]

theorem kmallocLoop_skip {h : State} {totalSize curr : Nat} (fuel prev : Nat) (real : curr ≠ 0)
    (skipped : ¬ fits h.memory totalSize curr) :
    kmallocLoop h totalSize (fuel+1) curr prev =
      kmallocLoop h totalSize fuel (next h.memory curr) curr := by
  simp only [kmallocLoop,real,skipped,if_false]

theorem Visit.prev_cases {h : State} {totalSize curr prev : Nat}
    (visit : Visit h totalSize curr prev) :
    (prev = 0 ∧ curr = h.freeList) ∨
    (prev ≠ 0 ∧ next h.memory prev = curr ∧ ¬ fits h.memory totalSize prev ∧
      ∃ before, Visit h totalSize prev before) := by
  cases visit with
  | start => exact .inl ⟨rfl,rfl⟩
  | step _ before found real skipped => exact .inr ⟨real,rfl,skipped,before,found⟩

theorem Visit.ahead {h : State} {totalSize curr prev stop : Nat}
    (visit : Visit h totalSize curr prev) (real : curr ≠ 0)
    (good : fits h.memory totalSize stop) :
    Ahead (next h.memory) 0 h.freeList stop curr := by
  induction visit with
  | start => exact .head real
  | step c p before present skipped ih =>
    exact .next c (ih present) (fun same => skipped (same ▸ good)) real

theorem Shape.block_of_linked {h : State} {blocks : List Nat} (shape : Shape h blocks) {a : Nat}
    (linked : Linked (next h.memory) 0 h.freeList a) : a ∈ blocks :=
  linked.inside (S := (· ∈ blocks)) shape.links shape.head

theorem Shape.visited {h : State} {blocks : List Nat} (shape : Shape h blocks)
    {totalSize curr prev : Nat} (visit : Visit h totalSize curr prev) (real : curr ≠ 0) :
    curr ∈ blocks := by
  induction visit with
  | start => exact shape.head real
  | step c p before present skipped ih => exact shape.links c (ih present) real

theorem Shape.bounds {h : State} {blocks : List Nat} (shape : Shape h blocks) {b : Nat}
    (member : b ∈ blocks) :
    heapStart ≤ b ∧ b + size h.memory b ≤ heapEnd ∧ sizeofHeader < size h.memory b :=
  ⟨(shape.tiles.bounds member).1,(shape.tiles.bounds member).2,shape.large b member⟩

theorem Shape.apart {h : State} {blocks : List Nat} (shape : Shape h blocks) {a b : Nat}
    (first : a ∈ blocks) (second : b ∈ blocks) (different : a ≠ b) : Apart a b := by
  have one := shape.large a first
  have two := shape.large b second
  rcases shape.tiles.apart first second different with before | after
  · exact .inl (by omega)
  · exact .inr (by omega)

/-! The three block updates, as facts about header fields. -/

/-- Block c is cut after totalSize bytes; the remainder is linked behind it. -/
structure Split (h h' : State) (blocks : List Nat) (c totalSize : Nat) : Prop where
  positive : sizeofHeader < totalSize
  room : totalSize + sizeofHeader + 32 ≤ size h.memory c
  head : h'.freeList = h.freeList
  front : fields h'.memory c = ⟨totalSize,0,c + totalSize⟩
  back : fields h'.memory (c + totalSize) = ⟨size h.memory c - totalSize,1,next h.memory c⟩
  rest : ∀ b ∈ blocks, b ≠ c → fields h'.memory b = fields h.memory b

/-- Block c is handed out whole and bypassed, from the head or from prev. -/
structure Taken (h h' : State) (blocks : List Nat) (c prev : Nat) : Prop where
  sizes : ∀ b ∈ blocks, size h'.memory b = size h.memory b
  flag : free h'.memory c = 0
  flags : ∀ b ∈ blocks, b ≠ c → free h'.memory b = free h.memory b
  first : prev = 0 → c = h.freeList ∧ h'.freeList = next h.memory c ∧
    ∀ b ∈ blocks, next h'.memory b = next h.memory b
  later : prev ≠ 0 → next h.memory prev = c ∧ prev ≠ c ∧ prev ∈ blocks ∧
    Ahead (next h.memory) 0 h.freeList c prev ∧ h'.freeList = h.freeList ∧
    next h'.memory prev = next h.memory c ∧
    ∀ b ∈ blocks, b ≠ prev → next h'.memory b = next h.memory b

/-- Block b is marked free and pushed at the head of the list. -/
structure Freed (h h' : State) (blocks : List Nat) (b : Nat) : Prop where
  head : h'.freeList = b
  front : fields h'.memory b = ⟨size h.memory b,1,h.freeList⟩
  rest : ∀ a ∈ blocks, a ≠ b → fields h'.memory a = fields h.memory a

theorem setNext_next (m : Memory) (a : Nat) : setNext m a (next m a) = m :=
  write32_read32 m (a + 8)

theorem carve_fields (m : Memory) {c new : Nat} (total left link : Nat) (apart : Apart c new) :
    let back := setNext (setFree (setSize m new left) new 1) new link
    let both := setNext (setFree (setSize back c total) c 0) c new
    fields both c = ⟨wrap total,0,wrap new⟩ ∧ fields both new = ⟨wrap left,1,wrap link⟩ ∧
      ∀ b, Apart b c → Apart b new → fields both b = fields m b := by
  intro back both
  have untouched : ∀ b, Apart b new → fields back b = fields m b := by
    intro b away
    simp only [back,fields_setNext_apart _ _ away.symm,fields_setFree_apart _ _ away.symm,
      fields_setSize_apart _ _ away.symm]
  have later : ∀ b, Apart b c → fields both b = fields back b := by
    intro b away
    simp only [both,fields_setNext_apart _ _ away.symm,fields_setFree_apart _ _ away.symm,
      fields_setSize_apart _ _ away.symm]
  refine ⟨?_,?_,fun b first second => (later b first).trans (untouched b second)⟩
  · simp only [both,fields_setNext,fields_setFree,fields_setSize]
  · rw [later new apart.symm]
    simp only [back,fields_setNext,fields_setFree,fields_setSize]

theorem relink_same {m : Memory} {head prev target : Nat} (first : prev = 0 → head = target)
    (linked : prev ≠ 0 → next m prev = target) : relink ⟨m,head⟩ prev target = ⟨m,head⟩ := by
  unfold relink
  split
  next some => rw [← linked some,setNext_next]
  next none => rw [first (not_not.mp none)]

theorem splitBlock_split {h : State} {blocks : List Nat} (shape : Shape h blocks)
    {totalSize c prev : Nat} (visit : Visit h totalSize c prev) (real : c ≠ 0)
    (good : fits h.memory totalSize c) (positive : sizeofHeader < totalSize)
    (room : totalSize + sizeofHeader + 32 ≤ size h.memory c) :
    Split h (splitBlock h totalSize c prev) blocks c totalSize := by
  have member := shape.visited visit real
  have bounds := shape.bounds member
  have apartNew : Apart c (c + totalSize) := .inl (by omega)
  have clear : ∀ b ∈ blocks, b ≠ c → Apart b c ∧ Apart b (c + totalSize) := by
    intro b inside other
    have apart := shape.tiles.apart inside member other
    have large := shape.large b inside
    exact ⟨shape.apart inside member other,by unfold Apart; omega⟩
  have link : next h.memory c < 2^32 := read32_lt _ _
  unfold heapStart heapEnd heapStart heapSize sizeofHeader at bounds
  unfold sizeofHeader at positive room
  have landing : wrap (c + totalSize) = c + totalSize := wrap_of_lt (by omega)
  have left : wrap (size h.memory c + (2^32 - totalSize)) = size h.memory c - totalSize := by
    unfold wrap
    omega
  have read : next (setFree (setSize h.memory (c + totalSize) (size h.memory c - totalSize))
      (c + totalSize) 1) c = next h.memory c :=
    fields_next (by rw [fields_setFree_apart _ _ apartNew.symm,fields_setSize_apart _ _ apartNew.symm])
  obtain ⟨front,back,rest⟩ := carve_fields h.memory totalSize (size h.memory c - totalSize)
    (next h.memory c) apartNew
  rw [wrap_of_lt (by omega : totalSize < 2^32),wrap_of_lt (by omega : c + totalSize < 2^32)] at front
  rw [wrap_of_lt (by omega : size h.memory c - totalSize < 2^32),
    wrap_of_lt link] at back
  unfold splitBlock
  simp only [landing,left,read]
  rw [relink_same]
  · exact ⟨positive,room,rfl,front,back,
      fun b inside other => rest b (clear b inside other).1 (clear b inside other).2⟩
  · intro none
    rcases visit.prev_cases with ⟨_,head⟩ | ⟨some,_⟩
    · exact head.symm
    · exact absurd none some
  · intro some
    rcases visit.prev_cases with ⟨none,_⟩ | ⟨_,linked,skipped,before,earlier⟩
    · exact absurd none some
    · have inside := shape.visited earlier some
      have other : prev ≠ c := fun same => skipped (same ▸ good)
      exact (fields_next (rest prev (clear prev inside other).1 (clear prev inside other).2)).trans linked

/-! A header write leaves the other fields of every block as they were. -/

theorem setFree_keeps (m : Memory) (v : UInt8) {a b : Nat} (clear : b ≠ a → Apart a b) :
    size (setFree m a v) b = size m b ∧ next (setFree m a v) b = next m b := by
  by_cases same : b = a
  · subst same
    have written := fields_setFree m b v
    exact ⟨congrArg Fields.size written,congrArg Fields.next written⟩
  · have frame := fields_setFree_apart m v (clear same)
    exact ⟨fields_size frame,fields_next frame⟩

theorem setNext_keeps (m : Memory) (v : Nat) {a b : Nat} (clear : b ≠ a → Apart a b) :
    size (setNext m a v) b = size m b ∧ free (setNext m a v) b = free m b := by
  by_cases same : b = a
  · subst same
    have written := fields_setNext m b v
    exact ⟨congrArg Fields.size written,congrArg Fields.free written⟩
  · have frame := fields_setNext_apart m v (clear same)
    exact ⟨fields_size frame,fields_free frame⟩

theorem takeWhole_taken {h : State} {blocks : List Nat} (shape : Shape h blocks)
    {totalSize c prev : Nat} (visit : Visit h totalSize c prev) (real : c ≠ 0)
    (good : fits h.memory totalSize c) : Taken h (takeWhole h c prev) blocks c prev := by
  have member := shape.visited visit real
  have clear : ∀ b ∈ blocks, b ≠ c → Apart c b :=
    fun b inside other => shape.apart member inside (Ne.symm other)
  have kept : ∀ b ∈ blocks, size (setFree h.memory c 0) b = size h.memory b ∧
      next (setFree h.memory c 0) b = next h.memory b :=
    fun b inside => setFree_keeps h.memory 0 (clear b inside)
  have flag : free (setFree h.memory c 0) c = 0 := congrArg Fields.free (fields_setFree _ _ _)
  have flags : ∀ b ∈ blocks, b ≠ c → free (setFree h.memory c 0) b = free h.memory b :=
    fun b inside other => fields_free (fields_setFree_apart _ _ (clear b inside other))
  rcases visit.prev_cases with ⟨none,head⟩ | ⟨some,linked,skipped,before,earlier⟩
  · subst none
    have same : takeWhole h c 0 = ⟨setFree h.memory c 0,next h.memory c⟩ := by
      simp only [takeWhole,relink,ne_eq,not_true_eq_false,if_false,(kept c member).2]
    rw [same]
    exact ⟨fun b inside => (kept b inside).1,flag,flags,
      fun _ => ⟨head,rfl,fun b inside => (kept b inside).2⟩,fun some => absurd rfl some⟩
  · have inside := shape.visited earlier some
    have other : prev ≠ c := fun same => skipped (same ▸ good)
    have same : takeWhole h c prev =
        ⟨setNext (setFree h.memory c 0) prev (next h.memory c),h.freeList⟩ := by
      simp only [takeWhole,relink,ne_eq,some,not_false_eq_true,if_true,(kept c member).2]
    have around : ∀ b ∈ blocks, b ≠ prev → Apart prev b :=
      fun b present different => shape.apart inside present (Ne.symm different)
    have bypassed := fun b present =>
      setNext_keeps (setFree h.memory c 0) (next h.memory c) (around b present)
    rw [same]
    refine ⟨fun b present => (bypassed b present).1.trans (kept b present).1,
      (bypassed c member).2.trans flag,
      fun b present different => (bypassed b present).2.trans (flags b present different),
      fun none => absurd none some,
      fun _ => ⟨linked,other,inside,earlier.ahead some good,rfl,?_,fun b present different => ?_⟩⟩
    · exact (congrArg Fields.next (fields_setNext _ _ _)).trans (wrap_of_lt (read32_lt _ _))
    · have frame := fields_setNext_apart (setFree h.memory c 0) (next h.memory c)
        (around b present different)
      exact (fields_next frame).trans (kept b present).2

theorem Shape.headerOf {h : State} {blocks : List Nat} (shape : Shape h blocks) {b : Nat}
    (member : b ∈ blocks) : headerOf (b + sizeofHeader) = b := by
  have bounds := shape.bounds member
  unfold heapEnd heapStart heapSize sizeofHeader at bounds
  unfold Heap.headerOf wrap sizeofHeader
  omega

theorem kfree_freed {h : State} {blocks : List Nat} (shape : Shape h blocks) {b : Nat}
    (member : b ∈ blocks) : Freed h (kfree (b + sizeofHeader) h) blocks b := by
  have head : wrap h.freeList = h.freeList := by
    by_cases none : h.freeList = 0
    · rw [none]
      rfl
    · have upper := (shape.bounds (shape.head none)).2
      unfold heapEnd heapStart heapSize at upper
      exact wrap_of_lt (by omega)
  have result : kfree (b + sizeofHeader) h = ⟨setNext (setFree h.memory b 1) b h.freeList,b⟩ := by
    have real : b + sizeofHeader ≠ 0 := by unfold sizeofHeader; omega
    simp only [kfree,real,if_false,shape.headerOf member]
  rw [result]
  refine ⟨rfl,?_,?_⟩
  · simp only [fields_setNext,fields_setFree,head]
    rfl
  · intro a inside other
    have apart := shape.apart member inside (Ne.symm other)
    simp only [fields_setNext_apart _ _ apart,fields_setFree_apart _ _ apart]

theorem Shape.payload {h : State} {blocks : List Nat} (shape : Shape h blocks) {b : Nat}
    (member : b ∈ blocks) : wrap (b + sizeofHeader) = b + sizeofHeader := by
  have bounds := shape.bounds member
  unfold heapEnd heapStart heapSize at bounds
  exact wrap_of_lt (by omega)

theorem takeBlock_outcome {h : State} {blocks : List Nat} (shape : Shape h blocks)
    {totalSize c prev : Nat} (visit : Visit h totalSize c prev) (real : c ≠ 0)
    (good : fits h.memory totalSize c) (positive : sizeofHeader < totalSize) :
    Split h (takeBlock h totalSize c prev) blocks c totalSize ∨
    Taken h (takeBlock h totalSize c prev) blocks c prev := by
  have bounds := shape.bounds (shape.visited visit real)
  unfold heapEnd heapStart heapSize at bounds
  have enough := good.2
  have room : wrap (wrap (totalSize + sizeofHeader) + 32) = totalSize + sizeofHeader + 32 := by
    unfold wrap sizeofHeader
    omega
  unfold takeBlock
  rw [room]
  split
  next wide => exact .inl (splitBlock_split shape visit real good positive wide)
  next narrow => exact .inr (takeWhole_taken shape visit real good)

/-- Everything a returning kmalloc can have done, for a request that does not wrap. -/
theorem kmalloc_outcome {h h' : State} {blocks : List Nat} {fuel requested p : Nat}
    (shape : Shape h blocks) (word : requested + sizeofHeader < 2^32)
    (returned : kmalloc fuel requested h = some (p,h')) :
    (p = 0 ∧ h' = h) ∨
    ∃ c ∈ blocks, p = c + sizeofHeader ∧ free h.memory c ≠ 0 ∧
      requested + sizeofHeader ≤ size h.memory c ∧ Linked (next h.memory) 0 h.freeList c ∧
      (Split h h' blocks c (requested + sizeofHeader) ∨ ∃ prev, Taken h h' blocks c prev) := by
  have total := wrap_of_lt word
  rcases kmalloc_cases _ _ _ _ returned with ⟨_,result⟩ | ⟨_,_,result⟩ | ⟨c,prev,some,visit,real,good,result⟩
  · exact .inl (Prod.mk.inj result)
  · exact .inl (Prod.mk.inj result)
  · obtain ⟨rfl,rfl⟩ := Prod.mk.inj result
    rw [total] at visit good ⊢
    have member := shape.visited visit real
    refine .inr ⟨c,member,shape.payload member,good.1,good.2,(visit.ahead real good).linked,?_⟩
    rcases takeBlock_outcome shape visit real good (by omega) with split | taken
    · exact .inl split
    · exact .inr ⟨prev,taken⟩

theorem Split.shape {h h' : State} {blocks : List Nat} {c totalSize : Nat}
    (shape : Shape h blocks) (member : c ∈ blocks) (step : Split h h' blocks c totalSize) :
    ∃ cut, Shape h' cut ∧ ∀ x, x ∈ cut ↔ x ∈ blocks ∨ x = c + totalSize := by
  have positive := step.positive
  have room := step.room
  have front : size h'.memory c = totalSize := congrArg Fields.size step.front
  have back : size h'.memory (c + totalSize) = size h.memory c - totalSize :=
    congrArg Fields.size step.back
  obtain ⟨cut,tiles,members⟩ := shape.tiles.split member (by omega) (by omega) front back
    (fun b inside other => fields_size (step.rest b inside other))
  refine ⟨cut,⟨tiles,?_,?_,?_⟩,members⟩
  · intro b inside
    rcases (members b).mp inside with old | rfl
    · by_cases same : b = c
      · subst same
        omega
      · rw [fields_size (step.rest b old same)]
        exact shape.large b old
    · omega
  · intro some
    rw [step.head] at some ⊢
    exact (members _).mpr (.inl (shape.head some))
  · intro b inside some
    rcases (members b).mp inside with old | rfl
    · by_cases same : b = c
      · subst same
        have link : next h'.memory b = b + totalSize := congrArg Fields.next step.front
        exact (members _).mpr (.inr link)
      · rw [fields_next (step.rest b old same)] at some ⊢
        exact (members _).mpr (.inl (shape.links b old some))
    · have link : next h'.memory (c + totalSize) = next h.memory c := congrArg Fields.next step.back
      rw [link] at some ⊢
      exact (members _).mpr (.inl (shape.links c member some))

theorem Taken.shape {h h' : State} {blocks : List Nat} {c prev : Nat}
    (shape : Shape h blocks) (member : c ∈ blocks) (step : Taken h h' blocks c prev) :
    Shape h' blocks := by
  refine ⟨shape.tiles.congr step.sizes,?_,?_,?_⟩
  · intro b inside
    rw [step.sizes b inside]
    exact shape.large b inside
  · intro some
    by_cases first : prev = 0
    · obtain ⟨_,head,_⟩ := step.first first
      rw [head] at some ⊢
      exact shape.links c member some
    · obtain ⟨_,_,_,_,head,_⟩ := step.later first
      rw [head] at some ⊢
      exact shape.head some
  · intro b inside some
    by_cases first : prev = 0
    · obtain ⟨_,_,links⟩ := step.first first
      rw [links b inside] at some ⊢
      exact shape.links b inside some
    · obtain ⟨_,_,_,_,_,bypass,links⟩ := step.later first
      by_cases same : b = prev
      · subst same
        rw [bypass] at some ⊢
        exact shape.links c member some
      · rw [links b inside same] at some ⊢
        exact shape.links b inside some

theorem Freed.size_eq {h h' : State} {blocks : List Nat} {b : Nat} (step : Freed h h' blocks b)
    (a : Nat) (inside : a ∈ blocks) : size h'.memory a = size h.memory a := by
  by_cases same : a = b
  · subst same
    exact congrArg Fields.size step.front
  · exact fields_size (step.rest a inside same)

theorem Freed.shape {h h' : State} {blocks : List Nat} {b : Nat}
    (shape : Shape h blocks) (member : b ∈ blocks) (step : Freed h h' blocks b) :
    Shape h' blocks := by
  refine ⟨shape.tiles.congr step.size_eq,?_,?_,?_⟩
  · intro a inside
    rw [step.size_eq a inside]
    exact shape.large a inside
  · exact fun _ => step.head ▸ member
  · intro a inside some
    by_cases same : a = b
    · subst same
      have link : next h'.memory a = h.freeList := congrArg Fields.next step.front
      rw [link] at some ⊢
      exact shape.head some
    · rw [fields_next (step.rest a inside same)] at some ⊢
      exact shape.links a inside some

theorem heapInit_fields (m : Memory) : fields (heapInit m).memory heapStart = ⟨heapSize,1,0⟩ := by
  simp only [heapInit,fields_setNext,fields_setFree,fields_setSize]
  rfl

theorem heapInit_shape (m : Memory) : Shape (heapInit m) [heapStart] := by
  have head := heapInit_fields m
  have size : size (heapInit m).memory heapStart = heapSize := congrArg Fields.size head
  have link : next (heapInit m).memory heapStart = 0 := congrArg Fields.next head
  refine ⟨⟨rfl,?_,?_⟩,?_,?_,?_⟩
  · rw [size]
    decide
  · rw [size]
    rfl
  · intro b inside
    rw [List.mem_singleton.mp inside,size]
    decide
  · exact fun _ => List.mem_singleton.mpr rfl
  · intro b inside some
    rw [List.mem_singleton.mp inside] at some
    exact absurd link some

theorem kmalloc_first (m : Memory) {requested : Nat} (some : requested ≠ 0)
    (small : requested + sizeofHeader ≤ heapSize) :
    kmalloc 1 requested (heapInit m) = Option.some (heapStart + sizeofHeader,
      takeBlock (heapInit m) (requested + sizeofHeader) heapStart 0) := by
  have word : wrap (requested + sizeofHeader) = requested + sizeofHeader :=
    wrap_of_lt (by unfold heapSize at small; omega)
  have flag : free (heapInit m).memory heapStart = 1 := congrArg Fields.free (heapInit_fields m)
  have full : size (heapInit m).memory heapStart = heapSize := congrArg Fields.size (heapInit_fields m)
  have good : fits (heapInit m).memory (requested + sizeofHeader) heapStart :=
    ⟨by rw [flag]; decide,full ▸ small⟩
  have real : heapStart ≠ 0 := by decide
  rw [kmalloc_loop 1 some,word]
  exact kmallocLoop_found 0 0 real good

end Xbtos.Heap
