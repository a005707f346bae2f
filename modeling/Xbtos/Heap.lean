import Xbtos.Foundation.ByteMemory

/-! The kernel heap of kernel/memory/heap.cpp over byte memory. A Header is twelve
bytes: size at 0, the free flag at 4, next at 8. All arithmetic the code does in
32 bits is wrapped; loops take a fuel bound and give none when it runs out. -/
namespace Xbtos.Heap
open Foundation.ByteMemory

def heapStart : Nat := 0x200000
def heapSize : Nat := 0x100000
def sizeofHeader : Nat := 12

/-! Header fields as the code reads and writes them. -/

def size (m : Memory) (a : Nat) : Nat := read32 m a
def free (m : Memory) (a : Nat) : UInt8 := m (a + 4)
def next (m : Memory) (a : Nat) : Nat := read32 m (a + 8)

def setSize (m : Memory) (a v : Nat) : Memory := write32 m a v
def setFree (m : Memory) (a : Nat) (v : UInt8) : Memory := write8 m (a + 4) v
def setNext (m : Memory) (a v : Nat) : Memory := write32 m (a + 8) v

structure State where
  memory : Memory
  freeList : Nat

def heapInit (memory : Memory) : State :=
  let m := setSize memory heapStart heapSize
  let m := setFree m heapStart 1
  let m := setNext m heapStart 0
  ⟨m,heapStart⟩

/-- if (prev) prev->next = target; else free_list = target; -/
def relink (h : State) (prev target : Nat) : State :=
  if prev ≠ 0 then { h with memory := setNext h.memory prev target }
  else { h with freeList := target }

def splitBlock (h : State) (totalSize curr prev : Nat) : State :=
  let newBlock := wrap (curr + totalSize)
  let m := setSize h.memory newBlock (wrap (size h.memory curr + (2^32 - totalSize)))
  let m := setFree m newBlock 1
  let m := setNext m newBlock (next m curr)
  let m := setSize m curr totalSize
  let m := setFree m curr 0
  let m := setNext m curr newBlock
  relink { h with memory := m } prev curr

def takeWhole (h : State) (curr prev : Nat) : State :=
  let m := setFree h.memory curr 0
  relink { h with memory := m } prev (next m curr)

def takeBlock (h : State) (totalSize curr prev : Nat) : State :=
  if size h.memory curr ≥ wrap (wrap (totalSize + sizeofHeader) + 32) then
    splitBlock h totalSize curr prev
  else takeWhole h curr prev

def fits (m : Memory) (totalSize a : Nat) : Prop :=
  free m a ≠ 0 ∧ size m a ≥ totalSize

instance (m : Memory) (totalSize a : Nat) : Decidable (fits m totalSize a) :=
  inferInstanceAs (Decidable (_ ∧ _))

/-- The while loop of kmalloc from a given curr and prev. -/
def kmallocLoop (h : State) (totalSize : Nat) : Nat → Nat → Nat → Option (Nat × State)
  | 0, _, _ => none
  | fuel+1, curr, prev =>
    if curr = 0 then some (0,h)
    else if fits h.memory totalSize curr then
      some (wrap (curr + sizeofHeader),takeBlock h totalSize curr prev)
    else kmallocLoop h totalSize fuel (next h.memory curr) curr

def kmalloc (fuel requested : Nat) (h : State) : Option (Nat × State) :=
  if requested = 0 then some (0,h)
  else kmallocLoop h (wrap (requested + sizeofHeader)) fuel h.freeList 0

def headerOf (ptr : Nat) : Nat := wrap (ptr + (2^32 - sizeofHeader))

def kfree (ptr : Nat) (h : State) : State :=
  if ptr = 0 then h
  else
    let header := headerOf ptr
    let m := setFree h.memory header 1
    let m := setNext m header h.freeList
    ⟨m,header⟩

/-! Two headers that do not overlap do not see each other's updates. -/

def Apart (a b : Nat) : Prop := a + sizeofHeader ≤ b ∨ b + sizeofHeader ≤ a

theorem Apart.symm {a b : Nat} (apart : Apart a b) : Apart b a := Or.symm apart

structure Fields where
  size : Nat
  free : UInt8
  next : Nat

def fields (m : Memory) (a : Nat) : Fields := ⟨size m a,free m a,next m a⟩

theorem fields_size {m m' : Memory} {a b : Nat} (same : fields m a = fields m' b) :
    size m a = size m' b := congrArg Fields.size same

theorem fields_free {m m' : Memory} {a b : Nat} (same : fields m a = fields m' b) :
    free m a = free m' b := congrArg Fields.free same

theorem fields_next {m m' : Memory} {a b : Nat} (same : fields m a = fields m' b) :
    next m a = next m' b := congrArg Fields.next same

theorem fields_congr {m m' : Memory} {b : Nat}
    (same : ∀ x, b ≤ x → x < b + sizeofHeader → m' x = m x) : fields m' b = fields m b := by
  have width : sizeofHeader = 12 := rfl
  simp only [fields,size,free,next,Fields.mk.injEq]
  exact ⟨read32_congr fun x lower upper => same x lower (by omega),same _ (by omega) (by omega),
    read32_congr fun x lower upper => same x (by omega) (by omega)⟩

@[simp] theorem fields_setSize (m : Memory) (a v : Nat) :
    fields (setSize m a v) a = { fields m a with size := wrap v } := by
  simp only [fields,size,free,next,setSize,read32_write32_same,Fields.mk.injEq,true_and]
  exact ⟨write32_other m v (.inr (by omega)),read32_write32_apart m v (.inl (by omega))⟩

@[simp] theorem fields_setFree (m : Memory) (a : Nat) (v : UInt8) :
    fields (setFree m a v) a = { fields m a with free := v } := by
  simp only [fields,size,free,next,setFree,write8_same,Fields.mk.injEq,true_and]
  exact ⟨read32_write8_apart m v (.inr (by omega)),read32_write8_apart m v (.inl (by omega))⟩

@[simp] theorem fields_setNext (m : Memory) (a v : Nat) :
    fields (setNext m a v) a = { fields m a with next := wrap v } := by
  simp only [fields,size,free,next,setNext,read32_write32_same,Fields.mk.injEq,and_true]
  exact ⟨read32_write32_apart m v (.inr (by omega)),write32_other m v (.inl (by omega))⟩

theorem fields_setSize_apart (m : Memory) (v : Nat) {a b : Nat} (apart : Apart a b) :
    fields (setSize m a v) b = fields m b := by
  unfold Apart sizeofHeader at apart
  exact fields_congr fun x lower upper => write32_other m v (by unfold sizeofHeader at upper; omega)

theorem fields_setFree_apart (m : Memory) (v : UInt8) {a b : Nat} (apart : Apart a b) :
    fields (setFree m a v) b = fields m b := by
  unfold Apart sizeofHeader at apart
  exact fields_congr fun x lower upper => write8_other m v (by unfold sizeofHeader at upper; omega)

theorem fields_setNext_apart (m : Memory) (v : Nat) {a b : Nat} (apart : Apart a b) :
    fields (setNext m a v) b = fields m b := by
  unfold Apart sizeofHeader at apart
  exact fields_congr fun x lower upper => write32_other m v (by unfold sizeofHeader at upper; omega)

end Xbtos.Heap
