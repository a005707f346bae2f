import Xbtos.HalHandlers

/-! msleep, between whose steps interrupts come. The counter of ticks has 64 bits and is read in two
halves, and a tick that comes after the comparison and before hlt does not keep the processor from
halting. -/
namespace Xbtos.Hal

def getTicks (s : State) : UInt64 := s.systemTicks

/-- The half of system_ticks that is read first. -/
inductive Halves
  | lowFirst
  | highFirst

def Halves.first : Halves → UInt64 → UInt32
  | .lowFirst, ticks => ticks.toUInt32
  | .highFirst, ticks => (ticks >>> 32).toUInt32

/-- What is read, when the other half comes from the ticks there are by then. -/
def Halves.joined : Halves → UInt32 → UInt64 → UInt64
  | .lowFirst, first, ticks => (ticks >>> 32) <<< 32 + first.toUInt64
  | .highFirst, first, ticks => first.toUInt64 <<< 32 + ticks.toUInt32.toUInt64

/-- How far a call of msleep has come: start is read, then system_ticks over and over, and compared. -/
inductive Msleep
  | called
  | startHalf (first : UInt32)
  | loop (start : UInt64)
  | half (start : UInt64) (first : UInt32)
  | compare (start now : UInt64)
  | haltCpu (start : UInt64)
  | returned

def Msleep.step (order : Halves) (ms : UInt32) (systemTicks : UInt64) : Msleep → Msleep
  | .called => .startHalf (order.first systemTicks)
  | .startHalf first => .loop (order.joined first systemTicks)
  | .loop start => .half start (order.first systemTicks)
  | .half start first => .compare start (order.joined first systemTicks)
  | .compare start now => if now - start < ms.toUInt64 then .haltCpu start else .returned
  | .haltCpu start => .haltCpu start
  | .returned => .returned

theorem Msleep.step_compare (order : Halves) (ms : UInt32) (systemTicks start now : UInt64) :
    (Msleep.compare start now).step order ms systemTicks =
      if now - start < ms.toUInt64 then .haltCpu start else .returned := rfl

/-- An interrupt ends hlt. -/
def Msleep.woken : Msleep → Msleep
  | .haltCpu start => .loop start
  | place => place

def Msleep.reading : Msleep → Bool
  | .startHalf _ => true
  | .half _ _ => true
  | _ => false

structure Sleeper (σ : Type) where
  place : Msleep
  machine : Machine σ

inductive Moment
  | step
  | interrupt (a : Arrival)

def Moment.ticks : Moment → Nat
  | .interrupt a => if a.interrupt.vector = 0x20 then 1 else 0
  | .step => 0

def Moment.steps : Moment → Nat
  | .interrupt _ => 0
  | .step => 1

def ticks : List Moment → Nat
  | [] => 0
  | moment :: moments => moment.ticks + ticks moments

def steps : List Moment → Nat
  | [] => 0
  | moment :: moments => moment.steps + steps moments

theorem ticks_cons (moment : Moment) (moments : List Moment) :
    ticks (moment :: moments) = moment.ticks + ticks moments := rfl

theorem ticks_append (first rest : List Moment) : ticks (first ++ rest) = ticks first + ticks rest := by
  induction first with
  | nil => exact (Nat.zero_add _).symm
  | cons moment first ih => rw [List.cons_append,ticks_cons,ticks_cons,ih,Nat.add_assoc]

theorem steps_cons (moment : Moment) (moments : List Moment) :
    steps (moment :: moments) = moment.steps + steps moments := rfl

section
variable {σ : Type} (image : Image) (process : UInt8 → σ → σ) (order : Halves) (ms : UInt32)

def Moment.run : Moment → Sleeper σ → Option (Sleeper σ)
  | .step, s => some { s with place := s.place.step order ms s.machine.hal.systemTicks }
  | .interrupt a, s => do
    return ⟨s.place.woken,← deliver image process a.interrupt.vector (a.reaches s.machine)⟩

def runMoments : List Moment → Sleeper σ → Option (Sleeper σ)
  | [], s => some s
  | moment :: moments, s => do runMoments moments (← moment.run image process order ms s)

/-- A tick that carries into the upper half comes between the two halves of a read. -/
def Moment.tears (moment : Moment) (s : Sleeper σ) : Prop :=
  moment.ticks = 1 ∧ s.place.reading = true ∧ s.machine.hal.systemTicks.toUInt32 = 0xFFFFFFFF

def Untorn : List Moment → Sleeper σ → Prop
  | [], _ => True
  | moment :: moments, s =>
    ¬moment.tears s ∧ ∀ s', moment.run image process order ms s = some s' → Untorn moments s'

end

/-! The two halves. -/

/-- Without a carry in between, what is read are the ticks at one of the two loads. -/
theorem Halves.joined_steady (order : Halves) {before now : UInt64}
    (steady : before.toNat / 2^32 = now.toNat / 2^32) :
    order.joined (order.first before) now = before ∨ order.joined (order.first before) now = now := by
  have bound := before.toNat_lt
  have limit := now.toNat_lt
  cases order with
  | lowFirst =>
    apply Or.inl
    apply UInt64.toNat_inj.mp
    simp [Halves.joined,Halves.first,Nat.shiftRight_eq_div_pow,Nat.shiftLeft_eq]
    omega
  | highFirst =>
    apply Or.inr
    apply UInt64.toNat_inj.mp
    simp [Halves.joined,Halves.first,Nat.shiftRight_eq_div_pow,Nat.shiftLeft_eq]
    omega

/-- With a carry, the upper half of one reading and the lower half of another. -/
example : Halves.lowFirst.joined (Halves.lowFirst.first 0xFFFFFFFF) 0x100000000 = 0x1FFFFFFFF := by decide

theorem uncarried {ticks : UInt64} (low : ticks.toUInt32 ≠ 0xFFFFFFFF) :
    (ticks + 1).toNat / 2^32 = ticks.toNat / 2^32 := by
  have bound := ticks.toNat_lt
  have low : ticks.toNat % 2^32 ≠ 0xFFFFFFFF := fun same => low (UInt32.toNat_inj.mp (by simpa using same))
  rw [UInt64.toNat_add]
  change (ticks.toNat + 1) % 2^64 / 2^32 = _
  omega

/-! Where a call can be, c ticks and n steps after it began at the tick T. -/

/-- The half that was read first when there were i ticks, with no carry since. -/
structure Half (order : Halves) (T : UInt64) (c i : Nat) (first : UInt32) : Prop where
  past : i ≤ c
  first : first = order.first (T + UInt64.ofNat i)
  steady : (T + UInt64.ofNat i).toNat / 2^32 = (T + UInt64.ofNat c).toNat / 2^32

theorem half_now (order : Halves) (T : UInt64) (c : Nat) :
    Half order T c c (order.first (T + UInt64.ofNat c)) := ⟨Nat.le_refl c,rfl,rfl⟩

theorem ofNat_tick (T : UInt64) (c : Nat) : T + UInt64.ofNat (c + 1) = T + UInt64.ofNat c + 1 := by
  rw [UInt64.ofNat_add,← UInt64.add_assoc]
  rfl

section
variable {order : Halves} {ms : UInt32} {T : UInt64} {c i t : Nat} {first : UInt32}

theorem Half.joined (half : Half order T c i first) :
    ∃ j, i ≤ j ∧ j ≤ c ∧ order.joined first (T + UInt64.ofNat c) = T + UInt64.ofNat j := by
  obtain ⟨past,rfl,steady⟩ := half
  obtain same | same := order.joined_steady steady
  · exact ⟨i,Nat.le_refl i,past,same⟩
  · exact ⟨c,past,Nat.le_refl c,same⟩

/-- What an interrupt does to the clock: a tick or none, and no carry while the clock is read. -/
structure Ticking (T : UInt64) (c t : Nat) (place : Msleep) : Prop where
  most : t ≤ 1
  whole : place.reading = true → t = 1 → (T + UInt64.ofNat c).toUInt32 ≠ 0xFFFFFFFF

theorem Half.tick (half : Half order T c i first) {place : Msleep} (ticking : Ticking T c t place)
    (reading : place.reading = true) : Half order T (c + t) i first := by
  obtain ⟨past,rfl,steady⟩ := half
  refine ⟨Nat.le_add_right_of_le past,rfl,?_⟩
  obtain none | one : t = 0 ∨ t = 1 := by
    have most := ticking.most
    omega
  · rw [none]
    exact steady
  · rw [one,ofNat_tick,uncarried (ticking.whole reading one)]
    exact steady

/-- How many ticks later a reading is. -/
theorem elapsed {d j : Nat} (later : d ≤ j) (fits : j < 2^64) :
    (T + UInt64.ofNat j - (T + UInt64.ofNat d)).toNat = j - d := by
  have whole : UInt64.ofNat j = UInt64.ofNat (j - d) + UInt64.ofNat d := by
    rw [← UInt64.ofNat_add,Nat.sub_add_cancel later]
  have difference : T + UInt64.ofNat j - (T + UInt64.ofNat d) = UInt64.ofNat (j - d) := by
    rw [UInt64.sub_eq_iff_eq_add,whole]
    ac_rfl
  rw [difference,UInt64.toNat_ofNat',Nat.mod_eq_of_lt]
  omega

theorem early_iff {d j : Nat} (later : d ≤ j) (fits : j < 2^64) :
    T + UInt64.ofNat j - (T + UInt64.ofNat d) < ms.toUInt64 ↔ j < d + ms.toNat := by
  rw [UInt64.lt_iff_toNat_lt,elapsed later fits,UInt32.toNat_toUInt64]
  omega

end

/-- What has been read are ticks that there were since the call, and it has only returned when there
have been enough. -/
def Sleeps (order : Halves) (ms : UInt32) (T : UInt64) (c n : Nat) : Msleep → Prop
  | .called => n = 0
  | .startHalf first => n = 1 ∧ ∃ i, Half order T c i first
  | .loop start => ∃ d ≤ c, start = T + UInt64.ofNat d
  | .half start first => ∃ d i, d ≤ i ∧ start = T + UInt64.ofNat d ∧ Half order T c i first
  | .compare start now => ∃ d j, d ≤ j ∧ j ≤ c ∧ start = T + UInt64.ofNat d ∧ now = T + UInt64.ofNat j
  | .haltCpu start => ∃ d ≤ c, start = T + UInt64.ofNat d
  | .returned => ms.toNat ≤ c

/-- The start has been read, when there were at most e ticks. -/
def Started (T : UInt64) (e : Nat) : Msleep → Prop
  | .called => False
  | .startHalf _ => False
  | .loop start => ∃ d ≤ e, start = T + UInt64.ofNat d
  | .half start _ => ∃ d ≤ e, start = T + UInt64.ofNat d
  | .compare start _ => ∃ d ≤ e, start = T + UInt64.ofNat d
  | .haltCpu start => ∃ d ≤ e, start = T + UInt64.ofNat d
  | .returned => True

/-- The call is k steps from its return, since the start was read when there were at most e ticks
and the clock was last read with ms more. -/
def Soon (order : Halves) (ms : UInt32) (T : UInt64) (e c k : Nat) : Msleep → Prop
  | .loop _ => 3 ≤ k
  | .half _ first => 2 ≤ k ∧ ∃ i, e + ms.toNat ≤ i ∧ Half order T c i first
  | .compare _ now => 1 ≤ k ∧ ∃ j, e + ms.toNat ≤ j ∧ j ≤ c ∧ now = T + UInt64.ofNat j
  | .returned => True
  | _ => False

/-- The call is k steps from hlt at most, with a reading that may be too old. -/
def Stale (k : Nat) : Msleep → Prop
  | .half _ _ => 2 ≤ k
  | .compare _ _ => 1 ≤ k
  | .haltCpu _ => True
  | _ => False

section
variable {order : Halves} {ms : UInt32} {T : UInt64} {c n e k t : Nat} {place : Msleep}

theorem Sleeps.step (sleeps : Sleeps order ms T c n place) (fits : c < 2^64) :
    Sleeps order ms T c (n + 1) (place.step order ms (T + UInt64.ofNat c)) := by
  cases place with
  | called => exact ⟨congrArg (· + 1) sleeps,c,half_now order T c⟩
  | startHalf first =>
    obtain ⟨_,i,half⟩ := sleeps
    obtain ⟨j,_,past,same⟩ := half.joined
    exact ⟨j,past,same⟩
  | loop start =>
    obtain ⟨d,past,same⟩ := sleeps
    exact ⟨d,c,past,same,half_now order T c⟩
  | half start first =>
    obtain ⟨d,i,later,same,half⟩ := sleeps
    obtain ⟨j,from_i,past,now⟩ := half.joined
    exact ⟨d,j,Nat.le_trans later from_i,past,same,now⟩
  | compare start now =>
    obtain ⟨d,j,later,past,rfl,rfl⟩ := sleeps
    have early : T + UInt64.ofNat j - (T + UInt64.ofNat d) < ms.toUInt64 ↔ j < d + ms.toNat :=
      early_iff later (Nat.lt_of_le_of_lt past fits)
    rw [Msleep.step_compare]
    split
    next => exact ⟨d,Nat.le_trans later past,rfl⟩
    next enough =>
      rw [early] at enough
      show ms.toNat ≤ c
      omega
  | haltCpu => exact sleeps
  | returned => exact sleeps

theorem Sleeps.interrupt (sleeps : Sleeps order ms T c n place) (ticking : Ticking T c t place) :
    Sleeps order ms T (c + t) n place.woken := by
  cases place with
  | called => exact sleeps
  | startHalf first =>
    obtain ⟨one,i,half⟩ := sleeps
    exact ⟨one,i,half.tick ticking rfl⟩
  | loop | haltCpu =>
    obtain ⟨d,past,same⟩ := sleeps
    exact ⟨d,Nat.le_add_right_of_le past,same⟩
  | half start first =>
    obtain ⟨d,i,later,same,half⟩ := sleeps
    exact ⟨d,i,later,same,half.tick ticking rfl⟩
  | compare start now =>
    obtain ⟨d,j,later,past,same,now⟩ := sleeps
    exact ⟨d,j,later,Nat.le_add_right_of_le past,same,now⟩
  | returned => exact Nat.le_add_right_of_le sleeps

/-- After two steps the start has been read. -/
theorem Sleeps.started (sleeps : Sleeps order ms T c n place) (two : 2 ≤ n) : Started T c place := by
  cases place with
  | called =>
    have none : n = 0 := sleeps
    omega
  | startHalf =>
    have one : n = 1 := sleeps.1
    omega
  | loop | haltCpu => exact sleeps
  | half =>
    obtain ⟨d,i,later,same,half⟩ := sleeps
    exact ⟨d,Nat.le_trans later half.past,same⟩
  | compare =>
    obtain ⟨d,j,later,past,same,_⟩ := sleeps
    exact ⟨d,Nat.le_trans later past,same⟩
  | returned => trivial

theorem Started.step (started : Started T e place) (now : UInt64) : Started T e (place.step order ms now) := by
  cases place with
  | called | startHalf => cases started
  | loop | half | haltCpu | returned => exact started
  | compare =>
    rw [Msleep.step_compare]
    split
    next => exact started
    next => trivial

theorem Started.interrupt (started : Started T e place) : Started T e place.woken := by
  cases place <;> exact started

theorem Soon.step (soon : Soon order ms T e c k place) (started : Started T e place)
    (enough : e + ms.toNat ≤ c) (fits : c < 2^64) :
    Soon order ms T e c (k - 1) (place.step order ms (T + UInt64.ofNat c)) := by
  cases place with
  | called | startHalf | haltCpu => cases soon
  | loop =>
    have three : 3 ≤ k := soon
    exact ⟨by omega,c,enough,half_now order T c⟩
  | half start first =>
    obtain ⟨two,i,late,half⟩ := soon
    obtain ⟨j,from_i,past,now⟩ := half.joined
    exact ⟨by omega,j,Nat.le_trans late from_i,past,now⟩
  | compare start now =>
    obtain ⟨_,j,late,past,rfl⟩ := soon
    obtain ⟨d,few,rfl⟩ := started
    have early : T + UInt64.ofNat j - (T + UInt64.ofNat d) < ms.toUInt64 ↔ j < d + ms.toNat :=
      early_iff (by omega) (Nat.lt_of_le_of_lt past fits)
    rw [Msleep.step_compare,if_neg (by rw [early]; omega)]
    trivial
  | returned => trivial

theorem Soon.interrupt (soon : Soon order ms T e c k place) (ticking : Ticking T c t place) :
    Soon order ms T e (c + t) k place.woken := by
  cases place with
  | called | startHalf | haltCpu => cases soon
  | loop => exact soon
  | half start first =>
    obtain ⟨two,i,late,half⟩ := soon
    exact ⟨two,i,late,half.tick ticking rfl⟩
  | compare start now =>
    obtain ⟨one,j,late,past,now⟩ := soon
    exact ⟨one,j,late,Nat.le_add_right_of_le past,now⟩
  | returned => trivial

theorem Stale.step (stale : Stale k place) (order : Halves) (ms : UInt32) (now : UInt64) :
    Stale (k - 1) (place.step order ms now) ∨ place.step order ms now = .returned := by
  cases place with
  | called | startHalf | loop | returned => cases stale
  | half =>
    have two : 2 ≤ k := stale
    exact .inl (by show 1 ≤ k - 1; omega)
  | compare =>
    rw [Msleep.step_compare]
    split
    next => exact .inl trivial
    next => exact .inr rfl
  | haltCpu => exact .inl trivial

/-- An interrupt leaves it so, or ends hlt. -/
theorem Stale.interrupt (stale : Stale k place) :
    Soon order ms T e c 3 place.woken ∨ Stale k place.woken := by
  cases place with
  | called | startHalf | loop | returned => cases stale
  | half | compare => exact .inr stale
  | haltCpu => exact .inl (Nat.le_refl 3)

theorem Stale.halted (stale : Stale 0 place) : Soon order ms T e c 3 place.woken := by
  cases place with
  | called | startHalf | loop | returned => cases stale
  | half => exact absurd stale (by show ¬2 ≤ 0; decide)
  | compare => exact absurd stale (by show ¬1 ≤ 0; decide)
  | haltCpu => exact Nat.le_refl 3

theorem Soon.mono (soon : Soon order ms T e c k place) {more : Nat} (le : k ≤ more) :
    Soon order ms T e c more place := by
  cases place with
  | called | startHalf | haltCpu => cases soon
  | loop => exact Nat.le_trans soon le
  | half => exact ⟨Nat.le_trans soon.1 le,soon.2⟩
  | compare => exact ⟨Nat.le_trans soon.1 le,soon.2⟩
  | returned => trivial

/-- The return is near, or hlt is. -/
def Drains (order : Halves) (ms : UInt32) (T : UInt64) (e c k : Nat) (place : Msleep) : Prop :=
  Soon order ms T e c 3 place ∨ Stale k place

/-- Once there are enough ticks, only what was read before can be too old. -/
theorem Started.drains (started : Started T e place) : Drains order ms T e c 2 place := by
  cases place with
  | called | startHalf => cases started
  | loop => exact .inl (Nat.le_refl 3)
  | half => exact .inr (Nat.le_refl 2)
  | compare => exact .inr (by decide : 1 ≤ 2)
  | haltCpu => exact .inr trivial
  | returned => exact .inl trivial

theorem Drains.step (drains : Drains order ms T e c k place) (started : Started T e place)
    (enough : e + ms.toNat ≤ c) (fits : c < 2^64) :
    Drains order ms T e c (k - 1) (place.step order ms (T + UInt64.ofNat c)) := by
  obtain soon | stale := drains
  · exact .inl ((soon.step started enough fits).mono (by decide))
  · obtain still | done := stale.step order ms (T + UInt64.ofNat c)
    · exact .inr still
    · rw [done]
      exact .inl trivial

theorem Drains.interrupt (drains : Drains order ms T e c k place) (ticking : Ticking T c t place) :
    Drains order ms T e (c + t) k place.woken := by
  obtain soon | stale := drains
  · exact .inl (soon.interrupt ticking)
  · exact stale.interrupt

theorem Drains.halted (drains : Drains order ms T e c 0 place) (ticking : Ticking T c t place) :
    Soon order ms T e (c + t) 3 place.woken := by
  obtain soon | stale := drains
  · exact soon.interrupt ticking
  · exact stale.halted

theorem Soon.returned (soon : Soon order ms T e c 0 place) : place = .returned := by
  cases place with
  | called | startHalf | haltCpu => cases soon
  | loop => exact absurd soon (by show ¬3 ≤ 0; decide)
  | half => exact absurd soon.1 (by decide)
  | compare => exact absurd soon.1 (by decide)
  | returned => rfl

end

/-! Runs. -/

structure Clock {σ : Type} (image : Image) (T : UInt64) (c : Nat) (s : Sleeper σ) : Prop where
  registered : Registered image .keyboardHandlerAsm s.machine.hal
  shows : getTicks s.machine.hal = T + UInt64.ofNat c

section
variable {σ : Type} {image : Image} {process : UInt8 → σ → σ} {order : Halves} {ms : UInt32} {T : UInt64}
  {c n : Nat} {s s' : Sleeper σ}

theorem Clock.interrupt (clock : Clock image T c s) {a : Arrival} (external : 32 ≤ a.interrupt.vector.toNat) :
    ∃ s', (Moment.interrupt a).run image process order ms s = some s' ∧
      Clock image T (c + (Moment.interrupt a).ticks) s' ∧ s'.place = s.place.woken := by
  have reached := clock.registered.reaches a
  obtain ⟨m,delivered,still,ticks⟩ := reached.registered.deliver external process
  refine ⟨⟨s.place.woken,m⟩,by rw [Moment.run,delivered]; rfl,⟨still,?_⟩,rfl⟩
  show m.hal.systemTicks = _
  have before : (a.reaches s.machine).hal.systemTicks = T + UInt64.ofNat c := reached.ticks.trans clock.shows
  rw [ticks,before,Moment.ticks]
  split
  next => exact (ofNat_tick T c).symm
  next => rfl

theorem Clock.halts (clock : Clock image T c s) {a : Arrival} (exception : a.interrupt.vector.toNat < 32) :
    (Moment.interrupt a).run image process order ms s = none := by
  rw [Moment.run,(clock.registered.reaches a).registered.deliver_halts exception process]
  rfl

theorem Clock.runs (clock : Clock image T c s) (moments : List Moment) :
    (runMoments image process order ms moments s).isSome ↔
      ∀ a, .interrupt a ∈ moments → 32 ≤ a.interrupt.vector.toNat := by
  induction moments generalizing c s with
  | nil => simp [runMoments]
  | cons moment moments ih =>
    rw [runMoments,Option.bind_eq_bind]
    cases moment with
    | step =>
      have rest := ih (c := c) (s := { s with place := s.place.step order ms s.machine.hal.systemTicks })
        ⟨clock.registered,clock.shows⟩
      rw [Moment.run,Option.bind_some,rest]
      simp
    | interrupt a =>
      by_cases external : 32 ≤ a.interrupt.vector.toNat
      · obtain ⟨next,ran,still,_⟩ : ∃ s', (Moment.interrupt a).run image process order ms s = some s' ∧ _ :=
          clock.interrupt external
        rw [ran,Option.bind_some,ih still]
        simp only [List.mem_cons,Moment.interrupt.injEq]
        exact ⟨fun rest b => Or.rec (fun same => same ▸ external) (rest b),fun all b member => all b (.inr member)⟩
      · rw [clock.halts (Nat.not_le.mp external),Option.bind_none]
        exact ⟨fun none => (by cases none),fun all => absurd (all a List.mem_cons_self) external⟩

/-- A moment that a run goes through, an interrupt that is not an exception. -/
theorem Clock.interrupted (clock : Clock image T c s) {a : Arrival}
    (whole : ¬(Moment.interrupt a).tears s)
    (ran : (Moment.interrupt a).run image process order ms s = some s') :
    Clock image T (c + (Moment.interrupt a).ticks) s' ∧ s'.place = s.place.woken ∧
      Ticking T c (Moment.interrupt a).ticks s.place := by
  by_cases external : 32 ≤ a.interrupt.vector.toNat
  · obtain ⟨next,run,still,place⟩ := clock.interrupt external
    obtain rfl : s' = next := Option.some.inj (ran.symm.trans run)
    refine ⟨still,place,?_,fun reading tick low => whole ⟨tick,reading,?_⟩⟩
    · rw [Moment.ticks]
      split <;> omega
    · exact (congrArg UInt64.toUInt32 clock.shows).trans low
  · rw [clock.halts (Nat.not_le.mp external)] at ran
    cases ran

/-- What the steps and the interrupts keep, a run keeps. -/
theorem Clock.kept {I : Nat → Nat → Msleep → Prop}
    (step : ∀ {c n place}, c < 2^64 → I c n place → I c (n + 1) (place.step order ms (T + UInt64.ofNat c)))
    (interrupt : ∀ {c n t place}, Ticking T c t place → I c n place → I (c + t) n place.woken)
    {moments : List Moment} (clock : Clock image T c s) (untorn : Untorn image process order ms moments s)
    (fits : c + ticks moments < 2^64) (holds : I c n s.place)
    (ran : runMoments image process order ms moments s = some s') :
    Clock image T (c + ticks moments) s' ∧ I (c + ticks moments) (n + steps moments) s'.place := by
  induction moments generalizing c n s with
  | nil =>
    cases ran
    exact ⟨clock,holds⟩
  | cons moment moments ih =>
    obtain ⟨one,first,onward⟩ := Option.bind_eq_some_iff.mp ran
    have rest := untorn.2 one first
    rw [ticks_cons] at fits ⊢
    rw [steps_cons,← Nat.add_assoc,← Nat.add_assoc]
    cases moment with
    | step =>
      cases first
      have place := step (Nat.lt_of_le_of_lt (Nat.le_add_right c _) fits) holds
      rw [← clock.shows] at place
      have still : Clock image T c ⟨s.place.step order ms s.machine.hal.systemTicks,s.machine⟩ :=
        ⟨clock.registered,clock.shows⟩
      exact ih still rest (by simpa [Moment.ticks] using fits) place onward
    | interrupt a =>
      obtain ⟨still,place,ticking⟩ := clock.interrupted untorn.1 first
      have holds := interrupt ticking holds
      rw [← place] at holds
      exact ih still rest (by omega) holds onward

theorem runMoments_append (first rest : List Moment) (s : Sleeper σ) :
    runMoments image process order ms (first ++ rest) s =
      (runMoments image process order ms first s).bind (runMoments image process order ms rest) := by
  induction first generalizing s with
  | nil => rfl
  | cons moment first ih =>
    rw [List.cons_append,runMoments,runMoments,Option.bind_eq_bind,Option.bind_assoc]
    exact congrArg _ (funext ih)

theorem Untorn.split {first rest : List Moment} (untorn : Untorn image process order ms (first ++ rest) s) :
    Untorn image process order ms first s ∧ ∀ s', runMoments image process order ms first s = some s' →
      Untorn image process order ms rest s' := by
  induction first generalizing s with
  | nil =>
    refine ⟨trivial,fun s' done => ?_⟩
    cases done
    exact untorn
  | cons moment first ih =>
    obtain ⟨whole,after⟩ := untorn
    refine ⟨⟨whole,fun one ran => (ih (after one ran)).1⟩,fun s' ran => ?_⟩
    obtain ⟨one,here,ran⟩ := Option.bind_eq_some_iff.mp ran
    exact (ih (after one here)).2 s' ran

/-- When there are ms ticks more than there were when the start was read, two steps, an interrupt and
three steps lead to the return. -/
theorem Clock.returns {e : Nat} (clock : Clock image T c s) (started : Started T e s.place)
    (enough : e + ms.toNat ≤ c) {before after : List Moment} {a : Arrival}
    (untorn : Untorn image process order ms (before ++ .interrupt a :: after) s)
    (fits : c + ticks (before ++ .interrupt a :: after) < 2^64)
    (ran : runMoments image process order ms (before ++ .interrupt a :: after) s = some s')
    (two : 2 ≤ steps before) (three : 3 ≤ steps after) : s'.place = .returned := by
  rw [runMoments_append] at ran
  obtain ⟨halted,first,ran⟩ := Option.bind_eq_some_iff.mp ran
  obtain ⟨woken,here,ran⟩ := Option.bind_eq_some_iff.mp ran
  obtain ⟨whole,untorn⟩ := untorn.split
  obtain ⟨between,rest⟩ := untorn halted first
  rw [ticks_append,ticks_cons] at fits
  have kept := clock.kept (n := 0) (I := fun c n place => e + ms.toNat ≤ c ∧ Started T e place ∧
      Drains order ms T e c (2 - n) place)
    (fun fits ⟨enough,started,drains⟩ =>
      ⟨enough,started.step _,by rw [← Nat.sub_sub]; exact drains.step started enough fits⟩)
    (fun ticking ⟨enough,started,drains⟩ =>
      ⟨Nat.le_add_right_of_le enough,started.interrupt,drains.interrupt ticking⟩)
    whole (by omega) ⟨enough,started,started.drains⟩ first
  obtain ⟨clock,enough,started,drained⟩ := kept
  obtain ⟨clock,place,ticking⟩ := clock.interrupted between here
  rw [Nat.zero_add,Nat.sub_eq_zero_of_le two] at drained
  have soon := drained.halted ticking
  have started := started.interrupt
  rw [← place] at soon started
  have kept := clock.kept (n := 0) (I := fun c n place => e + ms.toNat ≤ c ∧ Started T e place ∧
      Soon order ms T e c (3 - n) place)
    (fun fits ⟨enough,started,soon⟩ =>
      ⟨enough,started.step _,by rw [← Nat.sub_sub]; exact soon.step started enough fits⟩)
    (fun ticking ⟨enough,started,soon⟩ =>
      ⟨Nat.le_add_right_of_le enough,started.interrupt,soon.interrupt ticking⟩)
    (rest woken here) (by omega) ⟨Nat.le_add_right_of_le enough,started,soon⟩ ran
  obtain ⟨_,_,_,soon⟩ := kept
  rw [Nat.zero_add,Nat.sub_eq_zero_of_le three] at soon
  exact soon.returned

/-- No read is torn while the lower half is far from its end. -/
theorem Clock.untorn (clock : Clock image T c s) {moments : List Moment}
    (far : (T + UInt64.ofNat c).toNat % 2^32 + ticks moments < 2^32) :
    Untorn image process order ms moments s := by
  induction moments generalizing c s with
  | nil => trivial
  | cons moment moments ih =>
    rw [ticks_cons] at far
    have whole : ¬moment.tears s := by
      rintro ⟨tick,_,low⟩
      have low : (T + UInt64.ofNat c).toNat % 2^32 = 0xFFFFFFFF := by
        rw [← UInt64.toNat_toUInt32]
        exact congrArg UInt32.toNat ((congrArg UInt64.toUInt32 clock.shows.symm).trans low)
      omega
    refine ⟨whole,fun s' ran => ?_⟩
    cases moment with
    | step =>
      cases ran
      exact ih (c := c) ⟨clock.registered,clock.shows⟩ (by simpa [Moment.ticks] using far)
    | interrupt a =>
      obtain ⟨still,_,ticking⟩ := clock.interrupted whole ran
      apply ih still
      obtain none | one : (Moment.interrupt a).ticks = 0 ∨ (Moment.interrupt a).ticks = 1 := by
        have most := ticking.most
        omega
      · rw [none] at far ⊢
        rw [Nat.zero_add] at far
        exact far
      · rw [one] at far ⊢
        rw [ofNat_tick,UInt64.toNat_add]
        change ((T + UInt64.ofNat c).toNat + 1) % 2^64 % 2^32 + _ < _
        omega

end

end Xbtos.Hal
