import Xbtos.KeyDelivery
import Xbtos.Semantics.IntervalTimer

/-! The interval timer as init_timer programs it: what its counter counts from, and the divisor that
the frequency asks for. -/
namespace Xbtos.Hal
open Semantics.IntervalTimer

/-- The byte that an output writes to the counter. -/
def counterByte : Output → Option UInt8
  | .outb port value => if port = 0x40 then some value else none
  | _ => none

/-- What init_timer writes to the counter. -/
def counterBytes (frequency : UInt32) (s : State) : List UInt8 :=
  ((initTimer frequency s).output.drop s.output.length).filterMap counterByte

/-- Two bytes are written, the low one first, and the counter then counts from the quotient, or from
what is nearest to it. -/
def Programmed (frequency : UInt32) (s : State) : Prop :=
  ∃ low high, counterBytes frequency s = [low,high] ∧
    Nearest 16 (1193180 / frequency.toNat) (reload 16 (low.toNat + 256 * high.toNat))

def divisorLow (divisor : UInt32) : UInt8 := (divisor &&& 0xFF).toUInt8

def divisorHigh (divisor : UInt32) : UInt8 := (divisor >>> 8 &&& 0xFF).toUInt8

theorem irqEnable_output (irq : UInt8) (s : State) : ∃ masks,
    (irqEnable irq s).output = s.output ++ masks ∧ masks.filterMap counterByte = [] := by
  unfold irqEnable
  split
  next => exact ⟨[],(List.append_nil _).symm,rfl⟩
  next =>
    refine ⟨_,rfl,?_⟩
    have apart : (if irq < 8 then pic1Data else pic2Data) ≠ 0x40 := by
      split <;> decide
    simp [counterByte,apart]

theorem initTimer_output {frequency : UInt32} (accepted : frequency ≠ 0) (s : State) : ∃ masks,
    (initTimer frequency s).output = s.output ++ (.outb 0x43 0x36 ::
      .outb 0x40 (divisorLow (1193180 / frequency)) ::
      .outb 0x40 (divisorHigh (1193180 / frequency)) :: masks) ∧
    masks.filterMap counterByte = [] := by
  unfold initTimer
  rw [if_neg accepted]
  obtain ⟨masks,output,quiet⟩ := irqEnable_output 0 (registerInterruptHandler 32 .pitHandler
    (outb 0x40 (divisorHigh (1193180 / frequency))
      (outb 0x40 (divisorLow (1193180 / frequency)) (outb 0x43 0x36 s))))
  refine ⟨masks,output.trans ?_,quiet⟩
  simp [registerInterruptHandler,outb,send]

theorem initTimer_bytes {frequency : UInt32} (accepted : frequency ≠ 0) (s : State) :
    counterBytes frequency s =
      [divisorLow (1193180 / frequency),divisorHigh (1193180 / frequency)] := by
  obtain ⟨masks,output,quiet⟩ := initTimer_output accepted s
  rw [counterBytes,output,List.drop_left]
  simp [counterByte,quiet]

theorem divisor_bytes (divisor : UInt32) :
    (divisorLow divisor).toNat + 256 * (divisorHigh divisor).toNat = divisor.toNat % 2^16 := by
  have mask : ∀ x : Nat, x &&& 255 = x % 2^8 := fun x => Nat.and_two_pow_sub_one_eq_mod x 8
  simp only [divisorLow,divisorHigh,UInt32.toNat_toUInt8,UInt32.toNat_and,UInt32.toNat_shiftRight,
    UInt32.reduceToNat,mask,Nat.shiftRight_eq_div_pow,Nat.reduceMod,Nat.reducePow]
  omega

theorem reload_divisor (divisor : UInt32) :
    reload 16 ((divisorLow divisor).toNat + 256 * (divisorHigh divisor).toNat) =
      reload 16 divisor.toNat := by
  rw [divisor_bytes,reload,reload,Nat.mod_mod]

/-- A quotient that has more than sixteen bits has one that is set in its lowest sixteen. -/
theorem quotient_dvd {frequency : Nat} (above : 2^16 < 1193180 / frequency) :
    ¬2^16 ∣ 1193180 / frequency := by
  have positive : 0 < frequency := by
    rcases Nat.eq_zero_or_pos frequency with rfl | positive
    · simp at above
    · exact positive
  have few : frequency < 19 := by
    rw [Nat.lt_div_iff_mul_lt positive] at above
    omega
  have all : ∀ f < 19, 0 < f → ¬2^16 ∣ 1193180 / f := by decide
  exact all frequency few positive

theorem quotient_holds {frequency : Nat} (positive : 0 < frequency) :
    Holds 16 (1193180 / frequency) ↔ 19 ≤ frequency ∧ frequency ≤ 1193180 := by
  unfold Holds
  rw [Nat.le_div_iff_mul_le positive,← Nat.lt_add_one_iff (n := 2^16),
    Nat.div_lt_iff_lt_mul positive]
  omega

/-- init_timer programs the divisor that was computed just where the counter can hold it. -/
theorem timer_programmed_iff {frequency : UInt32} (accepted : frequency ≠ 0) (s : State) :
    Programmed frequency s ↔ 19 ≤ frequency.toNat ∧ frequency.toNat ≤ 1193180 := by
  have positive : 0 < frequency.toNat :=
    Nat.pos_of_ne_zero fun zero => accepted (UInt32.toNat_inj.mp zero)
  have quotient : (1193180 / frequency).toNat = 1193180 / frequency.toNat := UInt32.toNat_div _ _
  rw [← quotient_holds positive]
  constructor
  · rintro ⟨low,high,written,nearest⟩
    rw [initTimer_bytes accepted s] at written
    cases written
    rw [reload_divisor,quotient,nearest_reload (by decide)] at nearest
    exact nearest.resolve_right fun beyond => quotient_dvd beyond.1 beyond.2
  · intro holds
    refine ⟨_,_,initTimer_bytes accepted s,?_⟩
    rw [reload_divisor,quotient]
    exact (nearest_reload (by decide)).mpr (.inl holds)

theorem timer_programmed_default : Programmed 1000 (loaded smallDevices) :=
  (timer_programmed_iff (by decide) _).mpr ⟨by decide,by decide⟩

/-- At 1 Hz the counter is to count from 65536, and counts from 13532. -/
theorem slow_timer_truncated :
    counterBytes 1 (loaded smallDevices) = [0xDC,0x34] ∧ ¬Programmed 1 (loaded smallDevices) := by
  have bytes : counterBytes 1 (loaded smallDevices) = [0xDC,0x34] := by decide
  refine ⟨bytes,?_⟩
  rintro ⟨low,high,written,nearest⟩
  rw [bytes] at written
  cases written
  rw [nearest_iff] at nearest
  exact absurd nearest (by decide)

end Xbtos.Hal
