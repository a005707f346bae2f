import Xbtos.PhysMemRun
import Xbtos.Foundation.Objects

/-! What the owners of pages do with them, while the kernel goes on with its own memory. The
allocator writes to its bitmap only, and knows neither the pages the bitmap lies in, nor those of
the kernel, nor where the memory ends; the owners here store into pages that are none of these. -/
namespace Xbtos.PhysMem
open Foundation.ByteMemory Foundation.BitSet Foundation.Objects

/-- What the bitmap takes up. The first 256 frames are marked in eight words, however few it has. -/
def bitmapEnd (memSize : Nat) : Nat := 0x100000 + 4 * max 8 (wrap (memSize / pageSize + 31) / 32)

/-- The memory there is, and the regions of it that the kernel uses beside the bitmap: the rest of
its image with memory_bitmap and bitmap_size in it, the heap and the stack. -/
structure Layout where
  memSize : Nat
  used : List (Nat × Nat)
  small : memSize < 2^32
  beside : ∀ r ∈ used, r.1 + r.2 ≤ 0x100000 ∨ bitmapEnd memSize ≤ r.1

/-- A page of memory that neither the bitmap nor the kernel uses. -/
def Clear (l : Layout) (p : Nat) : Prop :=
  p + pageSize ≤ l.memSize ∧ (p + pageSize ≤ 0x100000 ∨ bitmapEnd l.memSize ≤ p) ∧
    ∀ r ∈ l.used, p + pageSize ≤ r.1 ∨ r.1 + r.2 ≤ p

instance (l : Layout) (p : Nat) : Decidable (Clear l p) := inferInstanceAs (Decidable (_ ∧ _ ∧ _))

def storeByte (s : State) (a : Nat) (v : UInt8) : State := { s with memory := write8 s.memory a v }

/-- What one owner does, as an event for the pages that are clear, or a store of the kernel into
its own memory. -/
inductive Does (l : Layout) (s : State) (live : List Nat) : Event UInt8 → State → List Nat → Prop
  | alloc (p : Nat) (s' : State) (returned : pmAllocPage s = (p,s')) (real : p ≠ 0) :
      Does l s live (if Clear l p then .make p (region s.memory p pageSize) else .nothing) s' (p::live)
  | exhausted (s' : State) (returned : pmAllocPage s = (0,s')) : Does l s live .nothing s' live
  | free (p : Nat) (member : p ∈ live) :
      Does l s live (if Clear l p then .drop p else .nothing) (pmFreePage p s) (live.filter (· ≠ p))
  | store (p i : Nat) (v : UInt8) (member : p ∈ live) (clear : Clear l p) (inside : i < pageSize) :
      Does l s live (.put p i v) (storeByte s (p + i) v) live
  | kernel (r : Nat × Nat) (i : Nat) (v : UInt8) (member : r ∈ l.used) (inside : i < r.2) :
      Does l s live .nothing (storeByte s (r.1 + i) v) live

inductive OwnersRun (l : Layout) (memory : Memory) : List (Event UInt8) → State → List Nat → Prop
  | boot : OwnersRun l memory [] (pmInit l.memSize memory) []
  | step {events : List (Event UInt8)} {event : Event UInt8} {s s' : State} {live live' : List Nat}
      (before : OwnersRun l memory events s live) (does : Does l s live event s' live') :
      OwnersRun l memory (events ++ [event]) s' live'

/-- The pages that hold objects. -/
def places (l : Layout) (live : List Nat) : List (Nat × Nat) :=
  (live.filter fun p => Clear l p).map fun p => (p,pageSize)

theorem mem_places {l : Layout} {live : List Nat} {place : Nat × Nat} :
    place ∈ places l live ↔ place.1 ∈ live ∧ Clear l place.1 ∧ place.2 = pageSize := by
  unfold places
  simp only [List.mem_map,List.mem_filter,decide_eq_true_eq]
  constructor
  · rintro ⟨p,⟨member,clear⟩,rfl⟩
    exact ⟨member,clear,rfl⟩
  · rintro ⟨member,clear,same⟩
    exact ⟨place.1,⟨member,clear⟩,Prod.ext rfl same.symm⟩

theorem places_cons (l : Layout) (p : Nat) (live : List Nat) :
    places l (p::live) = if Clear l p then (p,pageSize)::places l live else places l live := by
  unfold places
  rw [List.filter_cons]
  split_ifs with listed clear clear
  · rfl
  · exact absurd (of_decide_eq_true listed) clear
  · exact absurd (decide_eq_true clear) listed
  · rfl

theorem places_free (l : Layout) (p : Nat) (live : List Nat) :
    places l (live.filter (· ≠ p)) = (places l live).filter fun place => place.1 ≠ p := by
  unfold places
  rw [List.filter_map,List.filter_filter,List.filter_filter]
  exact congrArg _ (List.filter_congr fun q _ => Bool.and_comm ..)

theorem Inv.apart {s : State} {live : List Nat} (inv : Inv s live) (l : Layout) :
    ∀ a ∈ places l live, ∀ b ∈ places l live, a.1 ≠ b.1 → a.1 + a.2 ≤ b.1 ∨ b.1 + b.2 ≤ a.1 := by
  intro a first b second different
  obtain ⟨one,_,size⟩ := mem_places.mp first
  obtain ⟨two,_,width⟩ := mem_places.mp second
  obtain ⟨f,atF,_⟩ := inv.taken a.1 one
  obtain ⟨g,atG,_⟩ := inv.taken b.1 two
  unfold pageSize at atF atG size width
  omega

/-! The bitmap stays where it was put. -/

structure Placed (l : Layout) (s : State) : Prop where
  base : s.memoryBitmap = 0x100000
  size : s.bitmapSize = wrap (l.memSize / pageSize + 31) / 32

theorem placed_pmInit (l : Layout) (memory : Memory) : Placed l (pmInit l.memSize memory) :=
  ⟨(pmInit_bitmapSize l.memSize memory).2,(pmInit_bitmapSize l.memSize memory).1⟩

section
variable {l : Layout} {s : State} {live : List Nat}

theorem Placed.setWord (placed : Placed l s) (i v : Nat) : Placed l (PhysMem.setWord s i v) :=
  ⟨placed.base,placed.size⟩

/-- No word of the bitmap reaches an address. -/
def Beside (l : Layout) (a : Nat) : Prop := a < 0x100000 ∨ bitmapEnd l.memSize ≤ a

theorem Clear.beside {p i : Nat} (clear : Clear l p) (inside : i < pageSize) : Beside l (p + i) :=
  clear.2.1.imp (fun below => by omega) fun above => Nat.le_trans above (Nat.le_add_right p i)

theorem Layout.beside_used {r : Nat × Nat} (member : r ∈ l.used) {i : Nat} (inside : i < r.2) :
    Beside l (r.1 + i) :=
  (l.beside r member).imp (fun below => by omega) fun above => Nat.le_trans above (Nat.le_add_right r.1 i)

/-- Writing a word of the bitmap reaches no page that is clear. -/
theorem Placed.held_setWord (placed : Placed l s) (live : List Nat) {i : Nat} (inside : i < s.bitmapSize)
    (v : Nat) : held (PhysMem.setWord s i v).memory (places l live) = held s.memory (places l live) := by
  refine held_congr fun place member x lower upper => write32_other s.memory v ?_
  obtain ⟨_,clear,size⟩ := mem_places.mp member
  have outside := clear.2.1
  unfold bitmapEnd at outside
  rw [placed.base]
  rw [placed.size] at inside
  omega

/-- A store beside the bitmap leaves every word of it as it was. -/
theorem Placed.word_storeByte (placed : Placed l s) {a k : Nat} (beside : Beside l a)
    (bound : k < max 8 s.bitmapSize) (v : UInt8) : word (storeByte s a v) k = word s k := by
  apply read32_congr
  intro x lower upper
  apply write8_other
  have base : (storeByte s a v).memoryBitmap = 0x100000 := placed.base
  rw [base] at lower upper
  unfold Beside bitmapEnd at beside
  rw [placed.size] at bound
  omega

theorem Placed.freeFrames_storeByte (placed : Placed l s) {a : Nat} (beside : Beside l a) (v : UInt8) :
    freeFrames (storeByte s a v) = freeFrames s := by
  ext f
  refine and_congr_right fun bound => ?_
  have index : f / 32 < max 8 s.bitmapSize := by
    have bound : f < 32 * s.bitmapSize := bound
    omega
  unfold Absent
  rw [placed.word_storeByte beside index v]

theorem Inv.storeByte (inv : Inv s live) (placed : Placed l s) {a : Nat} (beside : Beside l a) (v : UInt8) :
    Inv (PhysMem.storeByte s a v) live := by
  refine ⟨⟨inv.ready.bound,fun f reserved absent => inv.ready.reserved f reserved ?_⟩,?_,inv.distinct⟩
  · unfold Absent at absent ⊢
    rw [placed.word_storeByte beside (by omega) v] at absent
    exact absent
  · rw [placed.freeFrames_storeByte beside v]
    exact inv.taken

end

/-- What holds between the owners' doings. -/
structure OwnersHold (l : Layout) (s : State) (live : List Nat) (store : Store UInt8) : Prop where
  placed : Placed l s
  inv : Inv s live
  objects : held s.memory (places l live) = store

theorem Does.kept {l : Layout} {s s' : State} {live live' : List Nat} {event : Event UInt8}
    {store : Store UInt8} (hold : OwnersHold l s live store) (does : Does l s live event s' live') :
    OwnersHold l s' live' (event.act store) := by
  obtain ⟨placed,inv,rfl⟩ := hold
  cases does with
  | alloc p s' returned real =>
    have after := (inv.alloc returned).2
    rw [if_neg real] at after
    rcases inv.ready.pmAllocPage_cases with ⟨_,result⟩ | ⟨f,least,_,_,result⟩
    · exact absurd (Prod.mk.inj (returned.symm.trans result)).1 real
    · obtain ⟨rfl,rfl⟩ := Prod.mk.inj (returned.symm.trans result)
      have bound := least.1.1
      refine ⟨placed.setWord _ _,after,?_⟩
      refine (placed.held_setWord (pageSize * f::live) (by omega) _).trans ?_
      rw [places_cons]
      split <;> rfl
  | exhausted s' returned =>
    rcases inv.ready.pmAllocPage_cases with ⟨_,result⟩ | ⟨f,_,above,_,result⟩
    · obtain ⟨_,rfl⟩ := Prod.mk.inj (returned.symm.trans result)
      exact ⟨placed,inv,rfl⟩
    · have null := (Prod.mk.inj (returned.symm.trans result)).1
      unfold pageSize at null
      omega
  | free p member =>
    obtain ⟨f,rfl,_,bound,_⟩ := inv.taken p member
    refine ⟨placed.setWord _ _,(inv.free member).2,?_⟩
    refine (placed.held_setWord _ (by rw [page_frame]; omega) _).trans ?_
    rw [places_free,held_drop]
    split
    next => rfl
    next taken =>
      rw [← held_drop,List.filter_eq_self.mpr]
      · rfl
      · rintro place listed
        obtain ⟨_,clear,_⟩ := mem_places.mp listed
        exact decide_eq_true fun same => taken (same ▸ clear)
  | store p i v member clear inside =>
    refine ⟨⟨placed.base,placed.size⟩,inv.storeByte placed (clear.beside inside) v,?_⟩
    exact held_put (inv.apart l) (mem_places.mpr ⟨member,clear,rfl⟩) inside v
  | kernel r i v member inside =>
    refine ⟨⟨placed.base,placed.size⟩,inv.storeByte placed (l.beside_used member inside) v,?_⟩
    refine held_congr fun place listed x lower upper => write8_other _ _ ?_
    obtain ⟨_,clear,size⟩ := mem_places.mp listed
    have apart := clear.2.2 r member
    omega

theorem OwnersRun.kept {l : Layout} {memory : Memory} {events : List (Event UInt8)} {s : State}
    {live : List Nat} (run : OwnersRun l memory events s live) : OwnersHold l s live (acts events []) := by
  induction run with
  | boot => exact ⟨placed_pmInit l memory,⟨pmInit_ready memory l.small,by simp,List.nodup_nil⟩,rfl⟩
  | step before does ih =>
    rw [acts_snoc]
    exact does.kept ih

theorem alloc_least {s : State} (ready : Ready s) {f : Nat} (least : IsLeast (freeFrames s) f) :
    pmAllocPage s = (pageSize * f,taking s f) := by
  rcases ready.pmAllocPage_cases with ⟨empty,_⟩ | ⟨g,first,_,_,result⟩
  · exact absurd least.1 (by simp [empty])
  · rw [least.unique first]
    exact result

/-- The first n pages that are given out. -/
def firstPages : Nat → List Nat
  | 0 => []
  | n+1 => pageSize * (256 + n) :: firstPages n

theorem OwnersRun.first {l : Layout} (memory : Memory) {n : Nat}
    (enough : 256 + n ≤ 32 * (pmInit l.memSize memory).bitmapSize) : ∃ events s,
      OwnersRun l memory events s (firstPages n) ∧ Ready s ∧
        freeFrames s = { f | 256 + n ≤ f ∧ f < 32 * (pmInit l.memSize memory).bitmapSize } := by
  induction n with
  | zero => exact ⟨[],_,.boot,pmInit_ready memory l.small,pmInit_freeFrames l.memSize memory⟩
  | succ n ih =>
    obtain ⟨events,s,run,ready,frames⟩ := ih (by omega)
    have least : IsLeast (freeFrames s) (256 + n) := by
      rw [frames]
      exact ⟨⟨Nat.le_refl _,by omega⟩,fun f offered => offered.1⟩
    have real : pageSize * (256 + n) ≠ 0 := by
      unfold pageSize
      omega
    refine ⟨_,_,run.step (.alloc _ _ (alloc_least ready least) real),ready.taking _,?_⟩
    refine (freeFrames_mark s (256 + n)).trans ?_
    rw [frames]
    ext f
    simp only [Set.mem_sdiff,Set.mem_ofPred_eq,Set.mem_singleton_iff]
    omega

end Xbtos.PhysMem
