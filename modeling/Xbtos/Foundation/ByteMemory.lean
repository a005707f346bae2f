import Mathlib.Algebra.Group.Nat.Defs
import Mathlib.Logic.Function.Basic
import Mathlib.Tactic.SplitIfs

/-! Byte-addressed memory with little-endian 32-bit words. Every byte is its own
cell, so a word read after an overlapping write sees exactly the bytes that
were stored; nothing assumes alignment. -/
namespace Foundation.ByteMemory

abbrev Memory := Nat → UInt8

/-- The value a 32-bit register keeps of a mathematical result. -/
def wrap (n : Nat) : Nat := n % 2^32

def read32 (m : Memory) (a : Nat) : Nat :=
  (m a).toNat + 2^8 * (m (a+1)).toNat + 2^16 * (m (a+2)).toNat + 2^24 * (m (a+3)).toNat

def write8 (m : Memory) (a : Nat) (v : UInt8) : Memory :=
  fun x => if x = a then v else m x

def write32 (m : Memory) (a v : Nat) : Memory :=
  fun x =>
    if x = a then UInt8.ofNat v
    else if x = a+1 then UInt8.ofNat (v / 2^8)
    else if x = a+2 then UInt8.ofNat (v / 2^16)
    else if x = a+3 then UInt8.ofNat (v / 2^24)
    else m x

theorem wrap_of_lt {n : Nat} (small : n < 2^32) : wrap n = n := Nat.mod_eq_of_lt small

theorem read32_lt (m : Memory) (a : Nat) : read32 m a < 2^32 := by
  have first := (m a).toNat_lt
  have second := (m (a+1)).toNat_lt
  have third := (m (a+2)).toNat_lt
  have fourth := (m (a+3)).toNat_lt
  unfold read32
  omega

@[simp] theorem write8_same (m : Memory) (a : Nat) (v : UInt8) : write8 m a v a = v := by
  simp [write8]

theorem write8_other (m : Memory) (v : UInt8) {a x : Nat} (other : x ≠ a) :
    write8 m a v x = m x := by
  simp [write8,other]

theorem write32_other (m : Memory) (v : Nat) {a x : Nat} (outside : x < a ∨ a + 4 ≤ x) :
    write32 m a v x = m x := by
  unfold write32
  split_ifs <;> first | omega | rfl

theorem read32_congr {m m' : Memory} {a : Nat}
    (same : ∀ x, a ≤ x → x < a + 4 → m' x = m x) : read32 m' a = read32 m a := by
  unfold read32
  rw [same a (by omega) (by omega),same (a+1) (by omega) (by omega),
    same (a+2) (by omega) (by omega),same (a+3) (by omega) (by omega)]

@[simp] theorem read32_write32_same (m : Memory) (a v : Nat) :
    read32 (write32 m a v) a = wrap v := by
  simp [read32,write32,wrap]
  omega

theorem read32_write32_apart (m : Memory) (v : Nat) {a b : Nat} (apart : a + 4 ≤ b ∨ b + 4 ≤ a) :
    read32 (write32 m a v) b = read32 m b :=
  read32_congr fun x lower upper => write32_other m v (by omega)

theorem read32_write8_apart (m : Memory) (v : UInt8) {a b : Nat} (apart : a < b ∨ b + 4 ≤ a) :
    read32 (write8 m a v) b = read32 m b :=
  read32_congr fun x lower upper => write8_other m v (by omega)

theorem write32_read32 (m : Memory) (a : Nat) : write32 m a (read32 m a) = m := by
  have first := (m a).toNat_lt
  have second := (m (a+1)).toNat_lt
  have third := (m (a+2)).toNat_lt
  have fourth := (m (a+3)).toNat_lt
  funext x
  unfold write32 read32
  split_ifs with h h h h
  all_goals try subst h
  all_goals try (apply UInt8.toNat_inj.mp; simp only [UInt8.toNat_ofNat']; omega)
  rfl

theorem write32_write32 (m : Memory) (a v w : Nat) :
    write32 (write32 m a v) a w = write32 m a w := by
  funext x
  unfold write32
  split_ifs <;> rfl

end Foundation.ByteMemory
