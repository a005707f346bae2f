import Xbtos.PhysMem
import Xbtos.Semantics.FrameSet
import Xbtos.HeapShape

/-! Runs of pm_alloc_page and pm_free_page in which only live pages are freed. -/
namespace Xbtos.PhysMem
open Foundation.ByteMemory Foundation.BitSet Semantics.FrameSet

/-- A run with its calls in order and the pages returned and not freed since. -/
inductive Trace (start : State) : List Call → State → List Nat → Prop
  | nil : Trace start [] start []
  | alloc (calls : List Call) (s : State) (live : List Nat) (p : Nat) (s' : State)
      (before : Trace start calls s live) (returned : pmAllocPage s = (p,s')) :
      Trace start (calls ++ [.alloc p]) s' (if p = 0 then live else p::live)
  | free (calls : List Call) (s : State) (live : List Nat) (p : Nat)
      (before : Trace start calls s live) (held : p ∈ live) :
      Trace start (calls ++ [.free p]) (pmFreePage p s) (live.filter (· ≠ p))

/-- The bitmap fits 32-bit addresses and the frames below 1 MiB are taken. -/
structure Ready (s : State) : Prop where
  bound : s.bitmapSize ≤ 32768
  reserved : ∀ f < 256, ¬ Absent 32 (word s) f

structure Inv (s : State) (live : List Nat) : Prop where
  ready : Ready s
  taken : ∀ p ∈ live, ∃ f, p = pageSize * f ∧ 256 ≤ f ∧ f < 32 * s.bitmapSize ∧ f ∉ freeFrames s
  distinct : live.Nodup

theorem Ready.free_bounds {s : State} (ready : Ready s) {f : Nat} (offered : f ∈ freeFrames s) :
    256 ≤ f ∧ f < 2^20 := by
  have bound := ready.bound
  have inside := offered.1
  refine ⟨?_,by omega⟩
  by_contra below
  exact ready.reserved f (by omega) offered.2

def taking (s : State) (f : Nat) : State :=
  setWord s (f / 32) (word s (f / 32) ||| 1 <<< (f % 32))

theorem Ready.pmAllocPage_cases {s : State} (ready : Ready s) :
    (freeFrames s = ∅ ∧ pmAllocPage s = (0,s)) ∨
    ∃ f, IsLeast (freeFrames s) f ∧ 256 ≤ f ∧ f < 2^20 ∧
      pmAllocPage s = (pageSize * f,taking s f) := by
  rcases PhysMem.pmAllocPage_cases s with empty | ⟨f,least,result⟩
  · exact .inl empty
  · obtain ⟨lower,upper⟩ := ready.free_bounds least.1
    refine .inr ⟨f,least,lower,upper,?_⟩
    rw [result,wrap_of_lt (by omega : f < 2^32),Nat.mul_comm,
      wrap_of_lt (by unfold pageSize; omega)]
    rfl

theorem Ready.taking {s : State} (ready : Ready s) (f : Nat) : Ready (taking s f) :=
  ⟨ready.bound,fun g below absent => ready.reserved g below ((absent_mark s f g).mp absent).1⟩

theorem page_frame (f : Nat) : pageSize * f / pageSize = f :=
  Nat.mul_div_cancel_left f (by decide)

theorem Ready.pmFreePage {s : State} (ready : Ready s) {f : Nat} (above : 256 ≤ f) :
    Ready (pmFreePage (pageSize * f) s) := by
  refine ⟨ready.bound,?_⟩
  intro g below absent
  rcases (absent_pmFreePage _ s g).mp absent with old | same
  · exact ready.reserved g below old
  · rw [page_frame] at same
    omega

theorem Inv.alloc {s s' : State} {live : List Nat} {p : Nat} (inv : Inv s live)
    (returned : pmAllocPage s = (p,s')) :
    FrameStep pageSize (freeFrames s) (.alloc p) (freeFrames s') ∧
      Inv s' (if p = 0 then live else p::live) := by
  rcases inv.ready.pmAllocPage_cases with ⟨empty,result⟩ | ⟨f,least,lower,upper,result⟩
  · obtain ⟨rfl,rfl⟩ := Prod.mk.inj (returned.symm.trans result)
    rw [empty]
    exact ⟨.exhausted,inv⟩
  · obtain ⟨rfl,rfl⟩ := Prod.mk.inj (returned.symm.trans result)
    have real : pageSize * f ≠ 0 := by unfold pageSize; omega
    have frames : freeFrames (taking s f) = freeFrames s \ {f} := freeFrames_mark s f
    rw [frames,if_neg real]
    refine ⟨.alloc _ f least,inv.ready.taking f,?_,?_⟩
    · intro q held
      rw [frames]
      rcases List.mem_cons.mp held with rfl | old
      · exact ⟨f,rfl,lower,least.1.1,fun still => still.2 rfl⟩
      · obtain ⟨g,address,low,high,gone⟩ := inv.taken q old
        exact ⟨g,address,low,high,fun still => gone still.1⟩
    · refine List.nodup_cons.mpr ⟨?_,inv.distinct⟩
      intro again
      obtain ⟨g,address,_,_,gone⟩ := inv.taken _ again
      have same : f = g := Nat.eq_of_mul_eq_mul_left (by decide) address
      exact gone (same ▸ least.1)

theorem Inv.free {s : State} {live : List Nat} {p : Nat} (inv : Inv s live) (held : p ∈ live) :
    FrameStep pageSize (freeFrames s) (.free p) (freeFrames (pmFreePage p s)) ∧
      Inv (pmFreePage p s) (live.filter (· ≠ p)) := by
  obtain ⟨f,rfl,low,high,gone⟩ := inv.taken p held
  have frames : freeFrames (pmFreePage (pageSize * f) s) = insert f (freeFrames s) := by
    rw [freeFrames_pmFreePage s (by rw [page_frame]; exact high),page_frame]
  rw [frames]
  refine ⟨.free _ f gone,inv.ready.pmFreePage low,?_,inv.distinct.filter _⟩
  intro q kept
  obtain ⟨old,other⟩ := List.mem_filter.mp kept
  obtain ⟨g,address,lower,upper,absent⟩ := inv.taken q old
  refine ⟨g,address,lower,upper,?_⟩
  rw [frames]
  rintro (same | back)
  · subst same
    simp [address] at other
  · exact absent back

theorem Trace.inv {start s : State} {calls : List Call} {live : List Nat} (ready : Ready start)
    (run : Trace start calls s live) :
    Inv s live ∧ FrameRun pageSize (freeFrames start) calls (freeFrames s) := by
  induction run with
  | nil => exact ⟨⟨ready,by simp,List.nodup_nil⟩,.nil⟩
  | alloc calls s live p s' before returned ih =>
    obtain ⟨step,inv⟩ := ih.1.alloc returned
    exact ⟨inv,.snoc _ _ _ _ ih.2 step⟩
  | free calls s live p before held ih =>
    obtain ⟨step,inv⟩ := ih.1.free held
    exact ⟨inv,.snoc _ _ _ _ ih.2 step⟩

theorem Trace.bitmapSize {start s : State} {calls : List Call} {live : List Nat}
    (run : Trace start calls s live) :
    s.bitmapSize = start.bitmapSize ∧ s.memoryBitmap = start.memoryBitmap := by
  induction run with
  | nil => exact ⟨rfl,rfl⟩
  | alloc calls s live p s' before returned ih =>
    have kept : s'.bitmapSize = s.bitmapSize ∧ s'.memoryBitmap = s.memoryBitmap := by
      rcases PhysMem.pmAllocPage_cases s with ⟨_,result⟩ | ⟨f,_,result⟩ <;>
        obtain ⟨_,rfl⟩ := Prod.mk.inj (returned.symm.trans result) <;> exact ⟨rfl,rfl⟩
    exact ⟨kept.1.trans ih.1,kept.2.trans ih.2⟩
  | free calls s live p before held ih => exact ih

theorem pmInit_bitmapSize (memSize : Nat) (memory : Memory) :
    (pmInit memSize memory).bitmapSize = wrap (memSize / pageSize + 31) / 32 ∧
      (pmInit memSize memory).memoryBitmap = 0x100000 := by
  obtain ⟨markSize,markBase⟩ := markFrames_bitmapSize 256
    (clearWords (wrap (memSize / pageSize + 31) / 32)
      ⟨memory,0x100000,wrap (memSize / pageSize + 31) / 32⟩)
  obtain ⟨clearSize,clearBase⟩ := clearWords_bitmapSize (wrap (memSize / pageSize + 31) / 32)
    ⟨memory,0x100000,wrap (memSize / pageSize + 31) / 32⟩
  exact ⟨markSize.trans clearSize,markBase.trans clearBase⟩

theorem pmInit_ready {memSize : Nat} (memory : Memory) (small : memSize < 2^32) :
    Ready (pmInit memSize memory) := by
  refine ⟨?_,?_⟩
  · rw [(pmInit_bitmapSize memSize memory).1]
    unfold wrap pageSize
    omega
  · intro f below absent
    have := ((absent_markFrames 256 _ f).mp absent).2
    omega

theorem pmInit_freeFrames (memSize : Nat) (memory : Memory) :
    freeFrames (pmInit memSize memory) =
      { f | 256 ≤ f ∧ f < 32 * (pmInit memSize memory).bitmapSize } := by
  ext f
  simp only [freeFrames,Set.mem_ofPred_eq]
  have size := (pmInit_bitmapSize memSize memory).1
  constructor
  · rintro ⟨inside,absent⟩
    exact ⟨((absent_markFrames 256 _ f).mp absent).2,inside⟩
  · rintro ⟨above,inside⟩
    refine ⟨inside,(absent_markFrames 256 _ f).mpr ⟨?_,above⟩⟩
    rw [size] at inside
    unfold Absent
    rw [word_clearWords _ (by omega)]
    exact Nat.zero_testBit _

theorem pmFreePage_taking {s : State} {f : Nat} (offered : f ∈ freeFrames s) :
    pmFreePage (pageSize * f) (taking s f) = s := by
  have small := set_lt (word_lt s (f / 32)) (Nat.mod_lt f (by decide) : f % 32 < 32)
  unfold pmFreePage
  simp only [page_frame]
  unfold taking
  rw [word_setWord_same,wrap_of_lt small,setWord_setWord,
    clear_set (word_lt s _) (Nat.mod_lt f (by decide)) offered.2,setWord_word]

/-- What pm_alloc_page and pm_free_page do to the set of free frames in one state. -/
structure RefinesFrames (s : State) (live : List Nat) : Prop where
  null : (pmAllocPage s).1 = 0 ↔ freeFrames s = ∅
  exhausted : freeFrames s = ∅ → pmAllocPage s = (0,s)
  least : ∀ f, IsLeast (freeFrames s) f → 4096 * f < 2^32 ∧ (pmAllocPage s).1 = 4096 * f ∧
    freeFrames (pmAllocPage s).2 = freeFrames s \ {f}
  freed : ∀ p ∈ live, p / 4096 ∉ freeFrames s ∧
    freeFrames (pmFreePage p s) = insert (p / 4096) (freeFrames s)
  distinct : live.Nodup
  aligned : ∀ p ∈ live, 4096 ∣ p ∧ 2^20 ≤ p
  restored : freeFrames s ≠ ∅ →
    ∀ i, word (pmFreePage (pmAllocPage s).1 (pmAllocPage s).2) i = word s i

theorem Inv.refines {s : State} {live : List Nat} (inv : Inv s live) : RefinesFrames s live := by
  have cases := inv.ready.pmAllocPage_cases
  have freed : ∀ p ∈ live, p / 4096 ∉ freeFrames s ∧
      freeFrames (pmFreePage p s) = insert (p / 4096) (freeFrames s) := by
    intro p held
    obtain ⟨f,rfl,_,high,gone⟩ := inv.taken p held
    have frame : pageSize * f / 4096 = f := page_frame f
    rw [frame]
    exact ⟨gone,by rw [freeFrames_pmFreePage s (by rw [page_frame]; exact high),page_frame]⟩
  have aligned : ∀ p ∈ live, 4096 ∣ p ∧ 2^20 ≤ p := by
    intro p held
    obtain ⟨f,rfl,low,_⟩ := inv.taken p held
    exact ⟨⟨f,rfl⟩,by unfold pageSize; omega⟩
  refine ⟨⟨?_,?_⟩,?_,?_,freed,inv.distinct,aligned,?_⟩
  · intro none
    rcases cases with ⟨empty,_⟩ | ⟨f,_,lower,_,result⟩
    · exact empty
    · rw [result] at none
      unfold pageSize at none
      omega
  · intro empty
    rcases cases with ⟨_,result⟩ | ⟨f,least,_⟩
    · rw [result]
    · rw [empty] at least
      exact least.1.elim
  · intro empty
    rcases cases with ⟨_,result⟩ | ⟨f,least,_⟩
    · exact result
    · rw [empty] at least
      exact least.1.elim
  · intro f first
    rcases cases with ⟨empty,_⟩ | ⟨g,least,_,upper,result⟩
    · rw [empty] at first
      exact first.1.elim
    · obtain rfl := first.unique least
      rw [result]
      exact ⟨by omega,rfl,freeFrames_mark s f⟩
  · intro some i
    rcases cases with ⟨empty,_⟩ | ⟨f,least,_,_,result⟩
    · exact absurd empty some
    · rw [result,pmFreePage_taking least.1]

/-- The page bitmap refines a set of free frames, from pm_init over every run that
frees live pages only. -/
theorem bitmap_refines_frames (memSize : Nat) (memory : Memory) (small : memSize < 2^32) :
    freeFrames (pmInit memSize memory) =
      { f | 256 ≤ f ∧ f < 32 * (pmInit memSize memory).bitmapSize } ∧
    ∀ calls s live, Trace (pmInit memSize memory) calls s live →
      FrameRun pageSize (freeFrames (pmInit memSize memory)) calls (freeFrames s) ∧
      RefinesFrames s live := by
  refine ⟨pmInit_freeFrames memSize memory,?_⟩
  intro calls s live run
  obtain ⟨inv,abstract⟩ := run.inv (pmInit_ready memory small)
  exact ⟨abstract,inv.refines⟩

theorem Trace.allocates {start s : State} {calls : List Call} {live : List Nat}
    (run : Trace start calls s live) (refines : RefinesFrames s live) {f : Nat}
    (least : IsLeast (freeFrames s) f) (positive : f ≠ 0) :
    ∃ s', Trace start (calls ++ [.alloc (4096 * f)]) s' (4096 * f::live) ∧
      freeFrames s' = freeFrames s \ {f} := by
  obtain ⟨_,first,left⟩ := refines.least f least
  refine ⟨_,?_,left⟩
  have page := Trace.alloc calls s live (4096 * f) _ run (Prod.ext first rfl)
  rwa [if_neg (by omega)] at page

/-- With 128 MiB two pages are allocated and the first of them is freed. -/
theorem bitmap_refines_frames_default :
    ∃ booted s, booted = pmInit (128 * 1024 * 1024) (fun _ => 0) ∧
      freeFrames booted = { f | 256 ≤ f ∧ f < 32768 } ∧
      Trace booted [.alloc 0x100000,.alloc 0x101000,.free 0x100000] s [0x101000] ∧
      FrameRun pageSize (freeFrames booted) [.alloc 0x100000,.alloc 0x101000,.free 0x100000]
        (freeFrames s) ∧
      RefinesFrames s [0x101000] := by
  have size : (pmInit (128 * 1024 * 1024) fun _ => 0).bitmapSize = 1024 := (pmInit_bitmapSize _ _).1
  obtain ⟨offered,runs⟩ := bitmap_refines_frames (128 * 1024 * 1024) (fun _ => 0) (by decide)
  rw [size] at offered
  have low : IsLeast (freeFrames (pmInit (128 * 1024 * 1024) fun _ => 0)) 256 := by
    rw [offered]
    exact ⟨⟨by decide,by decide⟩,fun f above => above.1⟩
  obtain ⟨s₁,one,left⟩ := Trace.nil.allocates (runs _ _ _ .nil).2 low (by decide)
  have next : IsLeast (freeFrames s₁) 257 := by
    rw [left,offered]
    exact ⟨⟨⟨by decide,by decide⟩,by simp⟩,fun f above => Nat.lt_of_le_of_ne above.1.1 (Ne.symm above.2)⟩
  obtain ⟨s₂,two,_⟩ := one.allocates (runs _ _ _ one).2 next (by decide)
  have three := two.free _ _ _ 0x100000 (by simp)
  rw [show [4096 * 257,4096 * 256].filter (· ≠ 0x100000) = [0x101000] by decide] at three
  exact ⟨_,_,rfl,offered,three,runs _ _ _ three⟩

end Xbtos.PhysMem
