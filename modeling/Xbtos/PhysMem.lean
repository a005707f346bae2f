import Xbtos.Foundation.ByteMemory
import Xbtos.Foundation.BitSet
import Mathlib.Order.Bounds.Basic

/-! The page allocator of kernel/memory/physmem.cpp. The bitmap is memory, one
32-bit word for 32 frames, so the words pm_init marks beyond a short bitmap are
words too. -/
namespace Xbtos.PhysMem
open Foundation.ByteMemory Foundation.BitSet

def pageSize : Nat := 4096

structure State where
  memory : Memory
  memoryBitmap : Nat
  bitmapSize : Nat

/-- memory_bitmap[i] -/
def word (s : State) (i : Nat) : Nat := read32 s.memory (s.memoryBitmap + 4 * i)

def setWord (s : State) (i v : Nat) : State :=
  { s with memory := write32 s.memory (s.memoryBitmap + 4 * i) v }

/-- The clearing loop of pm_init after its first n iterations. -/
def clearWords : Nat → State → State
  | 0, s => s
  | n+1, s => setWord (clearWords n s) n 0

def markFrame (s : State) (i : Nat) : State :=
  let index := i / 32
  let offset := i % 32
  setWord s index (word s index ||| 1 <<< offset)

/-- The marking loop of pm_init after its first n iterations. -/
def markFrames : Nat → State → State
  | 0, s => s
  | n+1, s => markFrame (markFrames n s) n

def pmInit (memSize : Nat) (memory : Memory) : State :=
  let numPages := memSize / pageSize
  let bitmapSize := wrap (numPages + 31) / 32
  markFrames 256 (clearWords bitmapSize ⟨memory,0x100000,bitmapSize⟩)

/-- The loop over j, from j with r iterations left. -/
def scanBits (w : Nat) : Nat → Nat → Option Nat
  | 0, _ => none
  | r+1, j => if w &&& 1 <<< j = 0 then some j else scanBits w r (j+1)

/-- The loop over i, from i with r iterations left. -/
def scanWords (s : State) : Nat → Nat → Option (Nat × Nat)
  | 0, _ => none
  | r+1, i =>
    if word s i ≠ 0xFFFFFFFF then
      match scanBits (word s i) 32 0 with
      | some j => some (i,j)
      | none => scanWords s r (i+1)
    else scanWords s r (i+1)

def pmAllocPage (s : State) : Nat × State :=
  match scanWords s s.bitmapSize 0 with
  | some (i,j) => (wrap (wrap (i * 32 + j) * pageSize),setWord s i (word s i ||| 1 <<< j))
  | none => (0,s)

def pmFreePage (addr : Nat) (s : State) : State :=
  let frame := addr / pageSize
  let index := frame / 32
  let offset := frame % 32
  setWord s index (word s index &&& (2^32 - 1 ^^^ 1 <<< offset))

/-! Reading and writing words. -/

theorem word_lt (s : State) (i : Nat) : word s i < 2^32 := read32_lt _ _

theorem word_setWord_same (s : State) (i v : Nat) : word (setWord s i v) i = wrap v :=
  read32_write32_same _ _ _

theorem word_setWord_other (s : State) (v : Nat) {i k : Nat} (other : k ≠ i) :
    word (setWord s i v) k = word s k := by
  have apart : s.memoryBitmap + 4 * i + 4 ≤ s.memoryBitmap + 4 * k ∨
      s.memoryBitmap + 4 * k + 4 ≤ s.memoryBitmap + 4 * i := by omega
  exact read32_write32_apart s.memory v apart

@[simp] theorem setWord_bitmapSize (s : State) (i v : Nat) :
    (setWord s i v).bitmapSize = s.bitmapSize := rfl

theorem setWord_setWord (s : State) (i v w : Nat) : setWord (setWord s i v) i w = setWord s i w := by
  simp only [setWord,write32_write32]

theorem setWord_word (s : State) (i : Nat) : setWord s i (word s i) = s := by
  simp only [setWord,word,write32_read32]

theorem absent_mark (s : State) (g f : Nat) :
    Absent 32 (word (setWord s (g / 32) (word s (g / 32) ||| 1 <<< (g % 32)))) f ↔
      Absent 32 (word s) f ∧ f ≠ g := by
  apply absent_set
  · rw [word_setWord_same]
    exact wrap_of_lt (set_lt (word_lt _ _) (Nat.mod_lt _ (by decide)))
  · exact fun i other => word_setWord_other s _ other

theorem absent_pmFreePage (addr : Nat) (s : State) (f : Nat) :
    Absent 32 (word (pmFreePage addr s)) f ↔ Absent 32 (word s) f ∨ f = addr / pageSize := by
  apply absent_clear (by decide)
  · exact (word_setWord_same _ _ _).trans (wrap_of_lt (clear_lt _ (word_lt _ _)))
  · exact fun i other => word_setWord_other s _ other

theorem markFrames_bitmapSize (n : Nat) (s : State) :
    (markFrames n s).bitmapSize = s.bitmapSize ∧ (markFrames n s).memoryBitmap = s.memoryBitmap := by
  induction n with
  | zero => exact ⟨rfl,rfl⟩
  | succ n ih => exact ih

theorem clearWords_bitmapSize (n : Nat) (s : State) :
    (clearWords n s).bitmapSize = s.bitmapSize ∧ (clearWords n s).memoryBitmap = s.memoryBitmap := by
  induction n with
  | zero => exact ⟨rfl,rfl⟩
  | succ n ih => exact ih

theorem absent_markFrames (n : Nat) (s : State) (f : Nat) :
    Absent 32 (word (markFrames n s)) f ↔ Absent 32 (word s) f ∧ n ≤ f := by
  induction n with
  | zero => simp [markFrames]
  | succ n ih =>
    rw [markFrames,markFrame,absent_mark,ih,and_assoc]
    exact and_congr_right fun _ => by omega

theorem word_clearWords {n i : Nat} (s : State) (inside : i < n) : word (clearWords n s) i = 0 := by
  induction n with
  | zero => omega
  | succ n ih =>
    rw [clearWords]
    by_cases last : i = n
    · subst last
      exact word_setWord_same _ _ _
    · rw [word_setWord_other _ _ last]
      exact ih (by omega)

/-! The search finds the lowest clear bit. -/

theorem scanBits_none {w r j : Nat} (found : scanBits w r j = none) (k : Nat) (lower : j ≤ k)
    (upper : k < j + r) : w.testBit k = true := by
  induction r generalizing j with
  | zero => omega
  | succ r ih =>
    unfold scanBits at found
    split at found
    next clear => contradiction
    next set =>
      rw [and_bit_eq_zero,Bool.not_eq_false] at set
      by_cases here : k = j
      · exact here ▸ set
      · exact ih found (by omega) (by omega)

theorem scanBits_some {w r j k : Nat} (found : scanBits w r j = some k) :
    j ≤ k ∧ k < j + r ∧ w.testBit k = false ∧ ∀ i, j ≤ i → i < k → w.testBit i = true := by
  induction r generalizing j with
  | zero => simp [scanBits] at found
  | succ r ih =>
    unfold scanBits at found
    split at found
    next clear =>
      cases found
      exact ⟨Nat.le_refl _,by omega,(and_bit_eq_zero _ _).mp clear,fun i _ _ => by omega⟩
    next set =>
      rw [and_bit_eq_zero,Bool.not_eq_false] at set
      obtain ⟨lower,upper,clear,before⟩ := ih found
      refine ⟨by omega,by omega,clear,?_⟩
      intro i low high
      by_cases here : i = j
      · exact here ▸ set
      · exact before i (by omega) high

/-- Skipping a full word changes no result: its bit loop would find nothing. -/
theorem scanWords_succ (s : State) (r i : Nat) :
    scanWords s (r+1) i =
      match scanBits (word s i) 32 0 with
      | some j => some (i,j)
      | none => scanWords s r (i+1) := by
  rw [scanWords]
  split
  next => rfl
  next full =>
    cases found : scanBits (word s i) 32 0 with
    | none => rfl
    | some j =>
      obtain ⟨_,inside,clear,_⟩ := scanBits_some found
      have set := (full_iff (word_lt s i)).mp (not_not.mp full) j (by omega)
      rw [clear] at set
      contradiction

theorem absent_digits (s : State) {i j : Nat} (inside : j < 32) :
    Absent 32 (word s) (32 * i + j) ↔ (word s i).testBit j = false := by
  unfold Absent
  rw [show (32 * i + j) / 32 = i by omega,show (32 * i + j) % 32 = j by omega]

theorem scanWords_none {s : State} {r i : Nat} (found : scanWords s r i = none) (f : Nat)
    (lower : 32 * i ≤ f) (upper : f < 32 * (i + r)) : ¬ Absent 32 (word s) f := by
  induction r generalizing i with
  | zero => omega
  | succ r ih =>
    rw [scanWords_succ] at found
    split at found
    next => contradiction
    next none =>
      by_cases here : f < 32 * (i+1)
      · have set := scanBits_none none (f - 32 * i) (by omega) (by omega)
        rw [show f = 32 * i + (f - 32 * i) by omega,absent_digits s (by omega),set]
        decide
      · exact ih found (by omega) (by omega)

theorem scanWords_some {s : State} {r i a b : Nat} (found : scanWords s r i = some (a,b)) :
    i ≤ a ∧ a < i + r ∧ b < 32 ∧ Absent 32 (word s) (32 * a + b) ∧
      ∀ f, 32 * i ≤ f → f < 32 * a + b → ¬ Absent 32 (word s) f := by
  induction r generalizing i with
  | zero => simp [scanWords] at found
  | succ r ih =>
    rw [scanWords_succ] at found
    split at found
    next j here =>
      obtain ⟨rfl,rfl⟩ := Prod.mk.inj (Option.some.inj found)
      obtain ⟨_,inside,clear,before⟩ := scanBits_some here
      refine ⟨Nat.le_refl _,by omega,by omega,(absent_digits s (by omega)).mpr clear,?_⟩
      intro f lower upper
      rw [show f = 32 * i + (f - 32 * i) by omega,absent_digits s (by omega),
        before (f - 32 * i) (by omega) (by omega)]
      decide
    next none =>
      obtain ⟨lower,upper,inside,clear,before⟩ := ih found
      refine ⟨by omega,by omega,inside,clear,?_⟩
      intro f low high
      by_cases here : f < 32 * (i+1)
      · have set := scanBits_none none (f - 32 * i) (by omega) (by omega)
        rw [show f = 32 * i + (f - 32 * i) by omega,absent_digits s (by omega),set]
        decide
      · exact before f (by omega) high

/-! The frames the bitmap offers. -/

def freeFrames (s : State) : Set Nat := { f | f < 32 * s.bitmapSize ∧ Absent 32 (word s) f }

theorem pmAllocPage_cases (s : State) :
    (freeFrames s = ∅ ∧ pmAllocPage s = (0,s)) ∨
    ∃ f, IsLeast (freeFrames s) f ∧ pmAllocPage s = (wrap (wrap f * pageSize),
      setWord s (f / 32) (word s (f / 32) ||| 1 <<< (f % 32))) := by
  unfold pmAllocPage
  cases found : scanWords s s.bitmapSize 0 with
  | none =>
    refine .inl ⟨?_,rfl⟩
    ext f
    simp only [freeFrames,Set.mem_ofPred_eq,Set.mem_empty_iff_false,iff_false,not_and]
    exact fun inside => scanWords_none found f (by omega) (by omega)
  | some place =>
    obtain ⟨a,b⟩ := place
    obtain ⟨_,upper,inside,clear,before⟩ := scanWords_some found
    refine .inr ⟨32 * a + b,⟨⟨by omega,clear⟩,?_⟩,?_⟩
    · rintro f ⟨_,absent⟩
      by_contra lower
      exact before f (by omega) (by omega) absent
    · simp only [show (32 * a + b) / 32 = a by omega,show (32 * a + b) % 32 = b by omega,
        Nat.mul_comm a 32]

theorem freeFrames_mark (s : State) (g : Nat) :
    freeFrames (setWord s (g / 32) (word s (g / 32) ||| 1 <<< (g % 32))) = freeFrames s \ {g} := by
  ext f
  simp only [freeFrames,Set.mem_ofPred_eq,Set.mem_sdiff,Set.mem_singleton_iff,absent_mark,
    setWord_bitmapSize,and_assoc]

theorem freeFrames_pmFreePage (s : State) {addr : Nat} (inside : addr / pageSize < 32 * s.bitmapSize) :
    freeFrames (pmFreePage addr s) = insert (addr / pageSize) (freeFrames s) := by
  ext f
  simp only [freeFrames,Set.mem_ofPred_eq,Set.mem_insert_iff,absent_pmFreePage]
  constructor
  · rintro ⟨bound,old | same⟩
    · exact .inr ⟨bound,old⟩
    · exact .inl same
  · rintro (rfl | ⟨bound,old⟩)
    · exact ⟨inside,.inr rfl⟩
    · exact ⟨bound,.inl old⟩

end Xbtos.PhysMem
