import Xbtos.PhysMemRun

/-! Runs in which every pointer that was returned may be freed, also twice, and also the null
that pm_alloc_page returns when no frame is left. Null is the address of frame 0, so the frames
below 1 MiB stay taken exactly where it is not freed. -/
namespace Xbtos.PhysMem
open Foundation.ByteMemory Foundation.BitSet Semantics.FrameSet

/-- A run in which what is freed has been returned before. -/
inductive Given (start : State) : List Call → State → Prop
  | nil : Given start [] start
  | alloc (calls : List Call) (s : State) (p : Nat) (s' : State) (before : Given start calls s)
      (returned : pmAllocPage s = (p,s')) : Given start (calls ++ [.alloc p]) s'
  | free (calls : List Call) (s : State) (p : Nat) (before : Given start calls s)
      (known : Call.alloc p ∈ calls) : Given start (calls ++ [.free p]) (pmFreePage p s)

/-- The bits of the frames below 1 MiB are set, and the next page is none of them. -/
structure Reserved (s : State) : Prop where
  bits : ∀ f < 256, (word s (f / 32)).testBit (f % 32) = true
  above : (pmAllocPage s).1 ≠ 0 → 2^20 ≤ (pmAllocPage s).1
  null : (pmAllocPage s).1 = 0 → freeFrames s = ∅

theorem Ready.kept {s : State} (ready : Ready s) : Reserved s := by
  refine ⟨fun f below => ?_,?_,?_⟩
  · exact Bool.eq_true_of_not_eq_false (ready.reserved f below)
  · intro real
    rcases ready.pmAllocPage_cases with ⟨_,result⟩ | ⟨f,_,lower,_,result⟩
    · exact absurd (congrArg Prod.fst result) real
    · rw [result]
      unfold pageSize
      omega
  · intro null
    rcases ready.pmAllocPage_cases with ⟨empty,_⟩ | ⟨f,_,lower,_,result⟩
    · exact empty
    · rw [result] at null
      unfold pageSize at null
      omega

/-- As long as null is not freed, what is freed lies above 1 MiB. -/
theorem Given.ready {start s : State} {calls : List Call} (ready : Ready start)
    (run : Given start calls s) (never : Call.free 0 ∉ calls) :
    Ready s ∧ ∀ p, Call.alloc p ∈ calls → p ≠ 0 → ∃ f, p = pageSize * f ∧ 256 ≤ f := by
  induction run with
  | nil => exact ⟨ready,by simp⟩
  | alloc calls s p s' before returned ih =>
    rw [List.mem_append,not_or] at never
    obtain ⟨still,given⟩ := ih never.1
    rcases still.pmAllocPage_cases with ⟨_,result⟩ | ⟨f,_,lower,_,result⟩
    · obtain ⟨rfl,rfl⟩ := Prod.mk.inj (returned.symm.trans result)
      refine ⟨still,fun q member real => ?_⟩
      rcases List.mem_append.mp member with old | new
      · exact given q old real
      · simp only [List.mem_singleton,Call.alloc.injEq] at new
        exact absurd new real
    · obtain ⟨rfl,rfl⟩ := Prod.mk.inj (returned.symm.trans result)
      refine ⟨still.taking f,fun q member real => ?_⟩
      rcases List.mem_append.mp member with old | new
      · exact given q old real
      · simp only [List.mem_singleton,Call.alloc.injEq] at new
        exact ⟨f,new,lower⟩
  | free calls s p before known ih =>
    rw [List.mem_append,not_or] at never
    obtain ⟨still,given⟩ := ih never.1
    have real : p ≠ 0 := by
      rintro rfl
      simp at never
    obtain ⟨f,rfl,above⟩ := given p known real
    refine ⟨still.pmFreePage above,fun q member => ?_⟩
    rcases List.mem_append.mp member with old | new
    · exact given q old
    · simp at new

theorem not_reserved_null (s : State) : ¬Reserved (pmFreePage 0 s) := by
  intro reserved
  have clear : Absent 32 (word (pmFreePage 0 s)) 0 := (absent_pmFreePage 0 s 0).mpr (.inr rfl)
  rw [Absent,reserved.bits 0 (by decide)] at clear
  cases clear

theorem Given.cleared {start s : State} {calls : List Call} (run : Given start calls s)
    (freed : Call.free 0 ∈ calls) :
    ∃ before s', Given start before s' ∧ before <+: calls ∧ ¬Reserved s' := by
  induction run with
  | nil => cases freed
  | alloc calls s p s' before returned ih =>
    have earlier : Call.free 0 ∈ calls := by simpa using freed
    obtain ⟨first,s₁,run,part,broken⟩ := ih earlier
    exact ⟨first,s₁,run,part.trans (List.prefix_append _ _),broken⟩
  | free calls s p before known ih =>
    by_cases null : p = 0
    · subst null
      exact ⟨_,_,.free calls s 0 before known,List.prefix_rfl,not_reserved_null s⟩
    · have earlier : Call.free 0 ∈ calls := by simpa [Ne.symm null] using freed
      obtain ⟨first,s₁,run,part,broken⟩ := ih earlier
      exact ⟨first,s₁,run,part.trans (List.prefix_append _ _),broken⟩

/-- The frames below 1 MiB are reserved in every state of a run exactly when the run does not
free the null page. -/
theorem reserved_iff (memSize : Nat) (memory : Memory) (small : memSize < 2^32) (calls : List Call)
    (s : State) (run : Given (pmInit memSize memory) calls s) :
    (∀ before s', Given (pmInit memSize memory) before s' → before <+: calls → Reserved s') ↔
      Call.free 0 ∉ calls := by
  constructor
  · intro always freed
    obtain ⟨before,s',earlier,part,broken⟩ := run.cleared freed
    exact broken (always before s' earlier part)
  · intro never before s' earlier part
    exact (earlier.ready (pmInit_ready memory small) fun freed => never (part.subset freed)).1.kept

/-- With 1 MiB of memory all frames are reserved, so the first page is null. -/
theorem exhausted_run : Given (pmInit 0x100000 (fun _ => 0)) [.alloc 0] (pmInit 0x100000 (fun _ => 0)) := by
  have ready := pmInit_ready (fun _ => 0) (show 0x100000 < 2^32 by decide)
  have frames := pmInit_freeFrames 0x100000 (fun _ => 0)
  rw [(pmInit_bitmapSize _ _).1] at frames
  rcases ready.pmAllocPage_cases with ⟨_,result⟩ | ⟨f,least,_⟩
  · exact .alloc [] _ 0 _ .nil result
  · have offered := least.1
    rw [frames] at offered
    have bound : f < 256 := offered.2
    exact absurd offered.1 (Nat.not_le.mpr bound)

theorem reserved_after_exhaustion : Reserved (pmInit 0x100000 (fun _ => 0)) :=
  (reserved_iff 0x100000 (fun _ => 0) (by decide) _ _ exhausted_run).mpr (by simp) _ _ exhausted_run
    List.prefix_rfl

theorem null_page_freed : ∃ s, Given (pmInit 0x100000 (fun _ => 0)) [.alloc 0,.free 0] s ∧
    ¬Reserved s :=
  ⟨_,.free _ _ 0 exhausted_run (by simp),not_reserved_null _⟩

end Xbtos.PhysMem
