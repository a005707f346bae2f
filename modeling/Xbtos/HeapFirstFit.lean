import Xbtos.HeapList

/-! What kmalloc answers. On a finite list it hands out the first free block that is long enough
for the size and a header, unless their sum wraps: then every free block passes for long enough. -/
namespace Xbtos.Heap
open Foundation.ByteMemory Foundation.Links Foundation.Tiling

/-- The first block of a chain that is free and at least total bytes long. -/
def firstFit (m : Memory) (total : Nat) (nodes : List Nat) : Option Nat :=
  nodes.find? fun b => decide (fits m total b)

/-- Block c as it is, or cut, with what is left of it a free block of its own. -/
inductive Parts (h h' : State) (blocks : List Nat) (c total : Nat) : Prop
  | whole (tiles : Tiles (size h'.memory) heapEnd heapStart blocks)
      (same : size h'.memory c = size h.memory c)
  | cut (after : List Nat) (tiles : Tiles (size h'.memory) heapEnd heapStart after)
      (members : ∀ x, x ∈ after ↔ x ∈ blocks ∨ x = c + total)
      (sum : size h'.memory c + size h'.memory (c + total) = size h.memory c)
      (available : free h'.memory (c + total) ≠ 0)

structure HandedOut (h h' : State) (blocks : List Nat) (c total : Nat) : Prop where
  long : total ≤ size h'.memory c
  busy : free h'.memory c = 0
  parts : Parts h h' blocks c total
  others : ∀ b ∈ blocks, b ≠ c →
    size h'.memory b = size h.memory b ∧ free h'.memory b = free h.memory b

/-- The answer of first fit for a total that is not wrapped. -/
def ExactFit (h : State) (blocks nodes : List Nat) (total : Nat) (result : Nat × State) : Prop :=
  match firstFit h.memory total nodes with
  | none => result = (0,h)
  | some c => result.1 = c + sizeofHeader ∧ HandedOut h result.2 blocks c total

/-- kmalloc returns, with the answer of first fit, where the list is a chain of nodes. -/
def FirstFit (h : State) (requested : Nat) : Prop :=
  ∀ blocks nodes fuel, Tiles (size h.memory) heapEnd heapStart blocks →
    Chain (next h.memory) 0 h.freeList nodes → nodes.length < fuel →
    ∃ result, kmalloc fuel requested h = some result ∧
      ExactFit h blocks nodes (requested + sizeofHeader) result

/-- The sum does not wrap, or no block of the list is free. -/
def Met (h : State) (requested : Nat) : Prop :=
  requested + sizeofHeader < 2^32 ∨
    ∀ b, Linked (next h.memory) 0 h.freeList b → free h.memory b = 0

theorem firstFit_some {m : Memory} {total c : Nat} {nodes : List Nat}
    (found : firstFit m total nodes = some c) : c ∈ nodes ∧ fits m total c := by
  have good := List.find?_some found
  exact ⟨List.mem_of_find?_eq_some found,of_decide_eq_true good⟩

theorem firstFit_none {m : Memory} {total : Nat} {nodes : List Nat} :
    firstFit m total nodes = none ↔ ∀ b ∈ nodes, ¬fits m total b := by
  rw [firstFit,List.find?_eq_none]
  simp

theorem firstFit_fits {m : Memory} {total b : Nat} (good : fits m total b) (rest : List Nat) :
    firstFit m total (b::rest) = some b := by
  simp [firstFit,good]

theorem firstFit_skip {m : Memory} {total b : Nat} (skipped : ¬fits m total b) (rest : List Nat) :
    firstFit m total (b::rest) = firstFit m total rest := by
  simp [firstFit,skipped]

theorem kmallocLoop_chain {h : State} {totalSize curr prev fuel : Nat} {nodes : List Nat}
    (chain : Chain (next h.memory) 0 curr nodes) (visit : Visit h totalSize curr prev)
    (long : nodes.length < fuel) :
    (firstFit h.memory totalSize nodes = none →
      kmallocLoop h totalSize fuel curr prev = some (0,h)) ∧
    ∀ c, firstFit h.memory totalSize nodes = some c → ∃ p, c ≠ 0 ∧ Visit h totalSize c p ∧
      kmallocLoop h totalSize fuel curr prev =
        some (wrap (c + sizeofHeader),takeBlock h totalSize c p) := by
  induction nodes generalizing curr prev fuel with
  | nil =>
    cases chain
    obtain ⟨fuel,rfl⟩ := Nat.exists_eq_succ_of_ne_zero (Nat.ne_of_gt long)
    exact ⟨fun _ => by rw [kmallocLoop,if_pos rfl],fun c found => absurd found (by simp [firstFit])⟩
  | cons a rest ih =>
    obtain ⟨rfl,real,chain⟩ := chain
    obtain ⟨fuel,rfl⟩ := Nat.exists_eq_succ_of_ne_zero (Nat.ne_of_gt (Nat.zero_lt_of_lt long))
    by_cases good : fits h.memory totalSize curr
    · rw [firstFit_fits good]
      refine ⟨fun absent => absurd absent (Option.some_ne_none _),fun c found => ?_⟩
      cases found
      exact ⟨prev,real,visit,kmallocLoop_found fuel prev real good⟩
    · rw [firstFit_skip good,Nat.succ_eq_add_one,kmallocLoop_skip fuel prev real good]
      exact ih chain (.step curr prev visit real good) (Nat.lt_of_succ_lt_succ long)

theorem Split.handedOut {h h' : State} {blocks : List Nat} {c total : Nat} (shape : Shape h blocks)
    (member : c ∈ blocks) (step : Split h h' blocks c total) : HandedOut h h' blocks c total := by
  have room := step.room
  have front : size h'.memory c = total := congrArg Fields.size step.front
  have back : size h'.memory (c + total) = size h.memory c - total := congrArg Fields.size step.back
  have flag : free h'.memory (c + total) = 1 := congrArg Fields.free step.back
  obtain ⟨after,shape',members⟩ := step.shape shape member
  refine ⟨Nat.le_of_eq front.symm,congrArg Fields.free step.front,?_,fun b inside other => ?_⟩
  · apply Parts.cut after shape'.tiles members (by omega)
    rw [flag]
    decide
  · have same := step.rest b inside other
    exact ⟨fields_size same,fields_free same⟩

theorem Taken.handedOut {h h' : State} {blocks : List Nat} {c prev total : Nat}
    (shape : Shape h blocks) (member : c ∈ blocks) (enough : total ≤ size h.memory c)
    (step : Taken h h' blocks c prev) : HandedOut h h' blocks c total :=
  ⟨(step.sizes c member).symm ▸ enough,step.flag,
    .whole (step.shape shape member).tiles (step.sizes c member),
    fun b inside other => ⟨step.sizes b inside,step.flags b inside other⟩⟩

theorem Shape.answers {h : State} {blocks : List Nat} {requested : Nat} (shape : Shape h blocks)
    (real : requested ≠ 0) (met : Met h requested) : FirstFit h requested := by
  intro other nodes fuel tiles chain long
  cases tiles.unique shape.tiles
  have begun : Visit h (wrap (requested + sizeofHeader)) h.freeList 0 := .start
  obtain ⟨absent,present⟩ := kmallocLoop_chain chain begun long
  rw [kmalloc_loop fuel real]
  rcases met with small | idle
  · rw [wrap_of_lt small] at absent present ⊢
    unfold ExactFit
    cases found : firstFit h.memory (requested + sizeofHeader) nodes with
    | none => exact ⟨_,absent found,rfl⟩
    | some c =>
      obtain ⟨prev,block,visit,returned⟩ := present c found
      have good := (firstFit_some found).2
      have member := shape.visited visit block
      refine ⟨_,returned,shape.payload member,?_⟩
      rcases takeBlock_outcome shape visit block good (by omega) with split | taken
      · exact split.handedOut shape member
      · exact taken.handedOut shape member good.2
  · have none_fits : ∀ total, firstFit h.memory total nodes = none := fun total =>
      firstFit_none.mpr fun b member good => good.1 (idle b (chain.mem_iff.mp member))
    refine ⟨_,absent (none_fits _),?_⟩
    rw [ExactFit,none_fits]

/-- With a sum that wraps no block is as long as it, and yet a free one is handed out. -/
theorem Shape.met {h : State} {blocks : List Nat} {requested : Nat} (shape : Shape h blocks)
    (finite : FiniteList h) (real : requested ≠ 0) (word : requested < 2^32)
    (answers : FirstFit h requested) : Met h requested := by
  by_contra unmet
  unfold Met at unmet
  push Not at unmet
  obtain ⟨wraps,b,linked,flag⟩ := unmet
  obtain ⟨nodes,chain,_⟩ := finite
  obtain ⟨result,returned,answer⟩ :=
    answers blocks nodes (nodes.length + 1) shape.tiles chain (Nat.lt_succ_self _)
  have begun : Visit h (wrap (requested + sizeofHeader)) h.freeList 0 := .start
  obtain ⟨absent,present⟩ := kmallocLoop_chain chain begun (Nat.lt_succ_self _)
  have short : wrap (requested + sizeofHeader) < sizeofHeader := by
    unfold wrap
    omega
  have nothing : firstFit h.memory (requested + sizeofHeader) nodes = none :=
    firstFit_none.mpr fun a member good => by
      have bounds := shape.bounds (shape.block_of_linked (chain.mem_iff.mp member))
      have enough := good.2
      unfold heapEnd heapStart heapSize at bounds
      omega
  rw [ExactFit,nothing] at answer
  cases found : firstFit h.memory (wrap (requested + sizeofHeader)) nodes with
  | none =>
    have bounds := shape.bounds (shape.block_of_linked linked)
    exact firstFit_none.mp found b (chain.mem_iff.mpr linked) ⟨flag,by omega⟩
  | some c =>
    obtain ⟨prev,block,visit,taken⟩ := present c found
    rw [kmalloc_loop _ real,taken,Option.some.injEq] at returned
    have address := congrArg Prod.fst (returned.trans answer)
    have payload := shape.payload (shape.visited visit block)
    unfold sizeofHeader at payload address
    omega

/-! Runs whose every request is met. -/

inductive MetStep : System → System → Prop
  | kmalloc (s : System) (fuel requested p : Nat) (h' : State) (word : requested < 2^32)
      (met : Met s.heap requested) (returned : kmalloc fuel requested s.heap = some (p,h')) :
      MetStep s ⟨h',if p = 0 then s.live else (p,requested)::s.live⟩
  | kfreeNull (s : System) : MetStep s { s with heap := kfree 0 s.heap }
  | kfree (s : System) (p requested : Nat) (held : (p,requested) ∈ s.live) :
      MetStep s ⟨kfree p s.heap,s.live.filter (fun e => e.1 ≠ p)⟩

def MetRun (memory : Memory) (s : System) : Prop :=
  Relation.ReflTransGen MetStep (boot memory) s

theorem Met.nothing {h h' : State} {fuel requested p : Nat}
    (idle : ∀ b, Linked (next h.memory) 0 h.freeList b → free h.memory b = 0)
    (returned : kmalloc fuel requested h = some (p,h')) : p = 0 ∧ h' = h := by
  rcases kmalloc_cases _ _ _ _ returned with ⟨_,result⟩ | ⟨_,_,result⟩ | ⟨c,prev,_,visit,real,good,_⟩
  · exact Prod.mk.inj result
  · exact Prod.mk.inj result
  · exact absurd (idle c (visit.ahead real good).linked) good.1

theorem MetStep.step {s s' : System} (step : MetStep s s') : s' = s ∨ Step anyLive s s' := by
  cases step with
  | kmalloc fuel requested p h' word met returned =>
    rcases met with small | idle
    · exact .inr (.kmalloc s fuel requested p h' small returned)
    · obtain ⟨rfl,rfl⟩ := Met.nothing idle returned
      exact .inl (by rw [if_pos rfl])
  | kfreeNull => exact .inr (.kfreeNull s)
  | kfree p requested held => exact .inr (.kfree s p requested held trivial)

theorem MetRun.reaches {memory : Memory} {s : System} (run : MetRun memory s) :
    Reaches anyLive memory s := by
  induction run with
  | refl => exact .refl
  | tail before step ih =>
    rcases step.step with rfl | taken
    · exact ih
    · exact ih.tail taken

/-- In a state of such a run whose list is finite, kmalloc is first fit for a size exactly when
its request is met. -/
theorem first_fit_iff (memory : Memory) (s : System) (run : MetRun memory s)
    (finite : FiniteList s.heap) (requested : Nat) (real : 0 < requested)
    (word : requested < 2^32) : FirstFit s.heap requested ↔ Met s.heap requested := by
  obtain ⟨blocks,shape,_⟩ := run.reaches.shape
  have positive : requested ≠ 0 := Nat.ne_of_gt real
  exact ⟨shape.met finite positive word,shape.answers positive⟩

theorem first_fit_after_split : ∃ s, MetRun (fun _ => 0) s ∧ s.live = [(0x20000C,100)] ∧
    FiniteList s.heap ∧ FirstFit s.heap 100 := by
  let first := takeBlock (heapInit (fun _ => 0)) 112 heapStart 0
  have returned : kmalloc 1 100 (heapInit (fun _ => 0)) = some (0x20000C,first) :=
    kmalloc_first _ (by decide) (by decide)
  have held : Reaches Unlinked (fun _ => 0) ⟨first,[(0x20000C,100)]⟩ :=
    Reaches.kmalloc .refl (by decide) (by decide) returned
  have run : MetRun (fun _ => 0) ⟨first,[(0x20000C,100)]⟩ :=
    .single (.kmalloc (boot fun _ => 0) 1 100 0x20000C first (by decide) (.inl (by decide)) returned)
  have answered := first_fit_iff _ _ run held.finite 100 (by decide) (by decide)
  exact ⟨_,run,rfl,held.finite,answered.mpr (.inl (show 100 + sizeofHeader < 2^32 by decide))⟩

/-- A size four short of 2^32 gets the arena's first block, eight bytes long. -/
theorem wrapped_request : ∃ s, Reaches anyLive (fun _ => 0) s ∧ FiniteList s.heap ∧
    (∃ h', kmalloc 2 0xFFFFFFFC s.heap = some (0x20000C,h') ∧ size h'.memory heapStart = 8) ∧
    ¬FirstFit s.heap 0xFFFFFFFC := by
  let h := heapInit (fun _ => 0)
  have good : fits h.memory 8 heapStart := by decide +kernel
  have returned : kmalloc 2 0xFFFFFFFC h = some (0x20000C,takeBlock h 8 heapStart 0) := by
    rw [kmalloc_loop 2 (by decide)]
    exact kmallocLoop_found 1 0 (by decide) good
  have cut : size (takeBlock h 8 heapStart 0).memory heapStart = 8 := by decide +kernel
  refine ⟨boot fun _ => 0,.refl,heapInit_finite _,⟨_,returned,cut⟩,fun answers => ?_⟩
  have flag : free h.memory heapStart = 1 := by decide +kernel
  have linked : Linked (next h.memory) 0 h.freeList heapStart := .head (by decide)
  rcases (heapInit_shape _).met (heapInit_finite _) (by decide) (by decide) answers with small | idle
  · exact absurd small (by decide)
  · exact absurd ((idle heapStart linked).symm.trans flag) (by decide)

end Xbtos.Heap
