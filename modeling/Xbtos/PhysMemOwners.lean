import Xbtos.PhysMemRun
import Mathlib.Order.CompletePartialOrder
import Mathlib.Order.Interval.Set.Disjoint

/-! Who owns the pages that are handed out: the memory size given to pm_init, the
bitmap placed at 1 MiB (where the image is loaded too) and the heap arena at 2 MiB
are fixed by three components independently. -/
namespace Xbtos.PhysMem
open Foundation.ByteMemory Foundation.BitSet Semantics.FrameSet

theorem Trace.reach_frame {start s : State} {calls : List Call} {live : List Nat}
    (ready : Ready start) (run : Trace start calls s live) {f : Nat} (offered : f ∈ freeFrames s) :
    ∃ calls' s' live', Trace start calls' s' live' ∧ Call.alloc (pageSize * f) ∈ calls' := by
  -- Induction on how far the least free frame may lie below f.
  have steps : ∀ n, ∀ calls s live, Trace start calls s live → f ∈ freeFrames s →
      (∀ g ∈ freeFrames s, f ≤ g + n) →
      ∃ calls' s' live', Trace start calls' s' live' ∧ Call.alloc (pageSize * f) ∈ calls' := by
    intro n
    induction n with
    | zero =>
      intro calls s live run offered low
      rcases (run.inv ready).1.ready.pmAllocPage_cases with ⟨empty,_⟩ | ⟨g,least,_,_,result⟩
      · rw [empty] at offered
        exact offered.elim
      · have same : g = f := Nat.le_antisymm (least.2 offered) (low g least.1)
        subst same
        exact ⟨_,_,_,.alloc _ _ _ _ _ run result,by simp⟩
    | succ n ih =>
      intro calls s live run offered low
      rcases (run.inv ready).1.ready.pmAllocPage_cases with ⟨empty,_⟩ | ⟨g,least,_,_,result⟩
      · rw [empty] at offered
        exact offered.elim
      · by_cases same : g = f
        · subst same
          exact ⟨_,_,_,.alloc _ _ _ _ _ run result,by simp⟩
        · have frames : freeFrames (taking s g) = freeFrames s \ {g} := freeFrames_mark s g
          refine ih _ _ _ (.alloc _ _ _ _ _ run result) ?_ ?_
          · rw [frames]
            exact ⟨offered,fun here => same here.symm⟩
          · intro k still
            rw [frames] at still
            have above := least.2 still.1
            have other : k ≠ g := still.2
            have bound := low g least.1
            omega
  exact steps f calls s live run offered (fun g _ => Nat.le_add_left f g)

theorem Trace.returned_frame {start s : State} {calls : List Call} {live : List Nat}
    (ready : Ready start) (run : Trace start calls s live) :
    (∀ p, Call.alloc p ∈ calls → p ≠ 0 → ∃ f ∈ freeFrames start, p = pageSize * f) ∧
    (∀ p ∈ live, ∃ f ∈ freeFrames start, p = pageSize * f) ∧ freeFrames s ⊆ freeFrames start := by
  induction run with
  | nil => exact ⟨by simp,by simp,fun _ => id⟩
  | alloc calls s live p s' before returned ih =>
    obtain ⟨given,held,within⟩ := ih
    rcases (before.inv ready).1.ready.pmAllocPage_cases with ⟨empty,result⟩ | ⟨f,least,_,_,result⟩
    · obtain ⟨rfl,rfl⟩ := Prod.mk.inj (returned.symm.trans result)
      refine ⟨?_,held,within⟩
      intro q member real
      rcases List.mem_append.mp member with old | new
      · exact given q old real
      · simp only [List.mem_singleton,Call.alloc.injEq] at new
        exact absurd new real
    · obtain ⟨rfl,rfl⟩ := Prod.mk.inj (returned.symm.trans result)
      have frames : freeFrames (taking s f) = freeFrames s \ {f} := freeFrames_mark s f
      refine ⟨?_,?_,?_⟩
      · intro q member real
        rcases List.mem_append.mp member with old | new
        · exact given q old real
        · simp only [List.mem_singleton,Call.alloc.injEq] at new
          exact ⟨f,within least.1,new⟩
      · intro q member
        split at member
        next => exact held q member
        next =>
          rcases List.mem_cons.mp member with rfl | old
          · exact ⟨f,within least.1,rfl⟩
          · exact held q old
      · rw [frames]
        exact fun g still => within still.1
  | free calls s live p before holding ih =>
    obtain ⟨given,held,within⟩ := ih
    refine ⟨?_,fun q kept => held q (List.mem_filter.mp kept).1,?_⟩
    · intro q member real
      rcases List.mem_append.mp member with old | new
      · exact given q old real
      · simp at new
    · obtain ⟨f,offered,rfl⟩ := held p holding
      have bound := before.bitmapSize.1
      rw [freeFrames_pmFreePage s (by rw [page_frame,bound]; exact offered.1),page_frame]
      exact Set.insert_subset offered within

/-! Memory that does not exist. -/

/-- Every page handed out lies in memory exactly when the page count fills whole
bitmap words, or no frame above the first 256 exists at all. -/
theorem pages_exist_iff (memSize : Nat) (memory : Memory) (small : memSize < 2^32) :
    (∀ calls s live, Trace (pmInit memSize memory) calls s live →
      ∀ p, Call.alloc p ∈ calls → p ≠ 0 → p + 4096 ≤ memSize) ↔
    memSize / 4096 ≤ 256 ∨ memSize / 4096 % 32 = 0 := by
  have ready := pmInit_ready memory small
  have frames := pmInit_freeFrames memSize memory
  have size := (pmInit_bitmapSize memSize memory).1
  have words : (pmInit memSize memory).bitmapSize = (memSize / 4096 + 31) / 32 := by
    rw [size]
    unfold pageSize
    rw [wrap_of_lt (by omega)]
  rw [words] at frames
  constructor
  · intro exist
    by_contra short
    -- The first frame past the end has a clear bit in the last, partial word.
    have offered : memSize / 4096 ∈ freeFrames (pmInit memSize memory) := by
      rw [frames]
      exact ⟨by omega,by omega⟩
    obtain ⟨calls,s,live,run,returned⟩ := Trace.reach_frame ready .nil offered
    have inside := exist calls s live run _ returned (by unfold pageSize; omega)
    unfold pageSize at inside
    omega
  · intro whole calls s live run p returned real
    obtain ⟨f,offered,rfl⟩ := (run.returned_frame ready).1 p returned real
    rw [frames] at offered
    obtain ⟨above,below⟩ := offered
    unfold pageSize
    omega

theorem pages_exist_default :
    128 * 1024 * 1024 / 4096 % 32 = 0 ∧
    ∀ calls s live, Trace (pmInit (128 * 1024 * 1024) (fun _ => 0)) calls s live →
      ∀ p, Call.alloc p ∈ calls → p ≠ 0 → p + 4096 ≤ 128 * 1024 * 1024 :=
  ⟨by decide,(pages_exist_iff (128 * 1024 * 1024) (fun _ => 0) (by decide)).mpr (.inr (by decide))⟩

/-- With 257 pages of memory the second allocation is the page just past the end. -/
theorem page_past_end :
    ∃ calls s live, Trace (pmInit 0x101000 (fun _ => 0)) calls s live ∧
      Call.alloc 0x101000 ∈ calls ∧ ¬ 0x101000 + 4096 ≤ 0x101000 := by
  have offered : 257 ∈ freeFrames (pmInit 0x101000 (fun _ => 0)) := by
    rw [pmInit_freeFrames,(pmInit_bitmapSize _ _).1]
    exact ⟨by decide,by decide⟩
  obtain ⟨calls,s,live,run,returned⟩ :=
    Trace.reach_frame (pmInit_ready _ (by decide)) .nil offered
  exact ⟨calls,s,live,run,returned,by decide⟩

/-! Memory that another part of the kernel owns. -/

/-- heap_init writes its first header into the memory the allocator shares. -/
def heapInitAfter (s : State) : State := { s with memory := (Heap.heapInit s.memory).memory }

/-- The allocator after pm_init and heap_init, as kernel_main calls them. -/
def kernelBoot (memSize : Nat) (memory : Memory) : State := heapInitAfter (pmInit memSize memory)

def page (p : Nat) : Set Nat := Set.Ico p (p + 4096)
def bitmapStorage (s : State) : Set Nat := Set.Ico 0x100000 (0x100000 + 4 * s.bitmapSize)
def heapArena : Set Nat := Set.Ico Heap.heapStart Heap.heapEnd

theorem heapInit_other (m : Memory) {x : Nat} (outside : x < Heap.heapStart) :
    (Heap.heapInit m).memory x = m x := by
  simp only [Heap.heapInit,Heap.setNext,Heap.setFree,Heap.setSize]
  rw [write32_other _ _ (.inl (by omega)),write8_other _ _ (by omega),
    write32_other _ _ (.inl outside)]

theorem heapInitAfter_bitmapSize (s : State) : (heapInitAfter s).bitmapSize = s.bitmapSize := rfl

theorem heapInitAfter_word {s : State} {i : Nat} (base : s.memoryBitmap = 0x100000)
    (inside : i < 32768) : word (heapInitAfter s) i = word s i := by
  unfold word heapInitAfter
  refine read32_congr fun x lower upper => heapInit_other _ ?_
  rw [base] at upper
  unfold Heap.heapStart
  omega

theorem heapInitAfter_ready {s : State} (base : s.memoryBitmap = 0x100000) (ready : Ready s) :
    Ready (heapInitAfter s) := by
  refine ⟨ready.bound,?_⟩
  intro f below absent
  unfold Absent at absent
  rw [heapInitAfter_word base (by omega)] at absent
  exact ready.reserved f below absent

theorem heapInitAfter_freeFrames {s : State} (base : s.memoryBitmap = 0x100000) (ready : Ready s) :
    freeFrames (heapInitAfter s) = freeFrames s := by
  have bound := ready.bound
  ext f
  refine and_congr_right fun inside => ?_
  have index : f / 32 < 32768 := by
    have : f < 32 * s.bitmapSize := inside
    omega
  unfold Absent
  rw [heapInitAfter_word base index]

theorem kernelBoot_bitmapSize (memSize : Nat) (memory : Memory) :
    (kernelBoot memSize memory).bitmapSize = wrap (memSize / pageSize + 31) / 32 := by
  rw [kernelBoot,heapInitAfter_bitmapSize,(pmInit_bitmapSize memSize memory).1]

theorem kernelBoot_ready {memSize : Nat} (memory : Memory) (small : memSize < 2^32) :
    Ready (kernelBoot memSize memory) :=
  heapInitAfter_ready (pmInit_bitmapSize memSize memory).2 (pmInit_ready memory small)

theorem kernelBoot_freeFrames {memSize : Nat} (memory : Memory) (small : memSize < 2^32) :
    freeFrames (kernelBoot memSize memory) =
      { f | 256 ≤ f ∧ f < 32 * (kernelBoot memSize memory).bitmapSize } := by
  have same := heapInitAfter_freeFrames (pmInit_bitmapSize memSize memory).2
    (pmInit_ready memory small)
  rw [kernelBoot_bitmapSize,kernelBoot,same,pmInit_freeFrames,(pmInit_bitmapSize memSize memory).1]

theorem Trace.first_alloc {start s : State} {calls : List Call} {live : List Nat} {f : Nat}
    (ready : Ready start) (least : IsLeast (freeFrames start) f)
    (run : Trace start calls s live) :
    (calls = [] ∧ s = start ∧ live = []) ∨ Call.alloc (pageSize * f) ∈ calls := by
  induction run with
  | nil => exact .inl ⟨rfl,rfl,rfl⟩
  | alloc calls s live p s' before returned ih =>
    rcases ih with ⟨rfl,rfl,rfl⟩ | found
    · rcases ready.pmAllocPage_cases with ⟨empty,_⟩ | ⟨g,first,_,_,result⟩
      · rw [empty] at least
        exact least.1.elim
      · obtain rfl := least.unique first
        obtain ⟨rfl,_⟩ := Prod.mk.inj (returned.symm.trans result)
        exact .inr (by simp)
    · exact .inr (List.mem_append_left _ found)
  | free calls s live p before held ih =>
    rcases ih with ⟨rfl,rfl,rfl⟩ | found
    · simp at held
    · exact .inr (List.mem_append_left _ found)

theorem kernelBoot_least {memSize : Nat} (memory : Memory) (large : 4 * 2^20 ≤ memSize)
    (small : memSize < 2^32) : IsLeast (freeFrames (kernelBoot memSize memory)) 256 := by
  rw [kernelBoot_freeFrames memory small,kernelBoot_bitmapSize]
  refine ⟨⟨Nat.le_refl _,?_⟩,fun f offered => offered.1⟩
  unfold pageSize
  rw [wrap_of_lt (by omega)]
  omega

theorem kernelBoot_first_alloc {memSize : Nat} (memory : Memory) (large : 4 * 2^20 ≤ memSize)
    (small : memSize < 2^32) :
    pmAllocPage (kernelBoot memSize memory) = (0x100000,taking (kernelBoot memSize memory) 256) := by
  have least := kernelBoot_least memory large small
  rcases (kernelBoot_ready memory small).pmAllocPage_cases with ⟨empty,_⟩ | ⟨f,first,_,_,result⟩
  · rw [empty] at least
    exact least.1.elim
  · obtain rfl := least.unique first
    exact result

/-- The pages of a run keep clear of the bitmap and the heap exactly when the run
never allocates: the first page handed out holds the bitmap itself. -/
theorem pages_unowned_iff (memSize : Nat) (memory : Memory) (large : 4 * 2^20 ≤ memSize)
    (small : memSize < 2^32) (calls : List Call) (s : State) (live : List Nat)
    (run : Trace (kernelBoot memSize memory) calls s live) :
    (∀ p, Call.alloc p ∈ calls → p ≠ 0 →
      Disjoint (page p) (bitmapStorage (kernelBoot memSize memory)) ∧
      Disjoint (page p) heapArena) ↔
    ∀ p, Call.alloc p ∉ calls := by
  constructor
  · intro clear p allocated
    have least := kernelBoot_least memory large small
    rcases run.first_alloc (kernelBoot_ready memory small) least with ⟨rfl,_⟩ | first
    · simp at allocated
    · have apart := (clear _ first (by decide)).1
      have words := least.1.1
      exact Set.disjoint_left.mp apart (Set.mem_Ico.mpr ⟨Nat.le_refl _,by decide⟩)
        (Set.mem_Ico.mpr ⟨by decide,by unfold pageSize; omega⟩)
  · exact fun never p allocated => absurd allocated (never p)

theorem pages_unowned_default :
    ¬ ∀ p, Call.alloc p ∈ [Call.alloc 0x100000] → p ≠ 0 →
      Disjoint (page p) (bitmapStorage (kernelBoot (128 * 1024 * 1024) (fun _ => 0))) ∧
      Disjoint (page p) heapArena := by
  have large : 4 * 2^20 ≤ 128 * 1024 * 1024 := by decide
  have small : 128 * 1024 * 1024 < 2^32 := by decide
  have first := kernelBoot_first_alloc (fun _ => 0) large small
  have run := Trace.alloc [] _ [] _ _ .nil first
  intro clear
  exact (pages_unowned_iff _ _ (by decide) (by decide) _ _ _ run).mp clear 0x100000 (by simp)

/-- With the 128 MiB of kernel_main both the bitmap's page and the heap's first page
are handed out. -/
theorem pages_of_owners_returned :
    (∃ calls s live, Trace (kernelBoot (128 * 1024 * 1024) (fun _ => 0)) calls s live ∧
      Call.alloc 0x100000 ∈ calls ∧
      ¬ Disjoint (page 0x100000) (bitmapStorage (kernelBoot (128 * 1024 * 1024) (fun _ => 0)))) ∧
    ∃ calls s live, Trace (kernelBoot (128 * 1024 * 1024) (fun _ => 0)) calls s live ∧
      Call.alloc 0x200000 ∈ calls ∧ ¬ Disjoint (page 0x200000) heapArena := by
  have small : 128 * 1024 * 1024 < 2^32 := by decide
  have ready := kernelBoot_ready (fun _ => 0) small
  have frames := kernelBoot_freeFrames (fun _ => 0) small
  have size : (kernelBoot (128 * 1024 * 1024) (fun _ => 0)).bitmapSize = 1024 :=
    kernelBoot_bitmapSize _ _
  rw [size] at frames
  have bitmapFrame : 256 ∈ freeFrames (kernelBoot (128 * 1024 * 1024) (fun _ => 0)) := by
    rw [frames]
    exact ⟨by decide,by decide⟩
  have heapFrame : 512 ∈ freeFrames (kernelBoot (128 * 1024 * 1024) (fun _ => 0)) := by
    rw [frames]
    exact ⟨by decide,by decide⟩
  obtain ⟨calls,s,live,run,returned⟩ := Trace.reach_frame ready .nil bitmapFrame
  obtain ⟨calls',s',live',run',returned'⟩ := Trace.reach_frame ready .nil heapFrame
  refine ⟨⟨calls,s,live,run,returned,?_⟩,⟨calls',s',live',run',returned',?_⟩⟩
  · rw [bitmapStorage,size]
    exact Set.not_disjoint_iff.mpr ⟨0x100000,⟨by decide,by decide⟩,⟨by decide,by decide⟩⟩
  · exact Set.not_disjoint_iff.mpr ⟨0x200000,⟨by decide,by decide⟩,⟨by decide,by decide⟩⟩

end Xbtos.PhysMem
