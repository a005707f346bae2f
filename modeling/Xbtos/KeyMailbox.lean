import Xbtos.KeyDelivery

/-! The keyboard mailbox of the HAL under interruption. It holds one scancode: an interrupt
puts its own over the one before, also while keyboard_read_scancode is under way. -/
namespace Xbtos.Hal
open Function

/-- Where keyboard_read_scancode is: it has not been called, it has found keyboard_ready set,
or it has read last_scancode. -/
inductive Reader
  | outside
  | checked
  | fetched (code : UInt8)

structure Reading where
  hal : State
  reader : Reader
  /-- What the calls so far have returned. -/
  returned : List UInt8

/-- The next step of keyboard_read_scancode, which is called again when it has returned. -/
def Reading.advance (r : Reading) : Reading :=
  match r.reader with
  | .outside =>
    if ¬r.hal.keyboardReady then { r with returned := r.returned ++ [0] }
    else { r with reader := .checked }
  | .checked => { r with reader := .fetched r.hal.lastScancode }
  | .fetched code =>
    ⟨{ r.hal with keyboardReady := false },.outside,r.returned ++ [code]⟩

/-- A turn of the machine: IRQ1 fires, or the reader takes a step. -/
inductive Turn
  | irq (status scancode : UInt8)
  | advance

def Turn.run : Turn → Reading → Reading
  | .irq status scancode, r => { r with hal := keyboardHandler (present status scancode r.hal) }
  | .advance, r => r.advance

def runTurns (turns : List Turn) (r : Reading) : Reading := turns.foldl (fun r turn => turn.run r) r

def Turn.scancode : Turn → Option UInt8
  | .irq _ scancode => some scancode
  | .advance => none

def sent (turns : List Turn) : List UInt8 := turns.filterMap Turn.scancode

/-- The codes that were returned. A call that finds nothing returns zero. -/
def Reading.answered (r : Reading) : List UInt8 := r.returned.filter (· ≠ 0)

def Reading.pending (r : Reading) : List UInt8 :=
  if r.hal.keyboardReady then [r.hal.lastScancode] else []

/-- The codes that were returned, followed by the one still pending. -/
def Reading.received (r : Reading) : List UInt8 := r.answered ++ r.pending

/-- What a call under way has read. -/
def Reader.held : Reader → List UInt8
  | .fetched code => [code]
  | _ => []

/-- The codes that were returned, followed by the one that a call under way has read or, if
there is none, by the one still pending. -/
def Reading.taken (r : Reading) : List UInt8 :=
  r.answered ++ match r.reader with
    | .fetched code => [code]
    | _ => r.pending

/-- Whether no interrupt comes before the reader's next read of last_scancode. -/
def undisturbed : List Turn → Reading → Bool
  | [], _ => true
  | .irq _ _ :: _, _ => false
  | .advance :: turns, r =>
    match r.reader with
    | .checked => true
    | _ => undisturbed turns r.advance

/-- What is left of the codes that the turns deliver: those that no other is delivered behind
before the reader's next read of last_scancode. Nothing is said of a code that comes between
that read and the clearing of keyboard_ready. -/
inductive Left : Reading → List Turn → List UInt8 → Prop
  | none (r : Reading) : Left r [] []
  | delivered {r turns codes} (status scancode : UInt8) (unread : r.reader.held = [])
    (rest : Left (Turn.run (.irq status scancode) r) turns codes) :
    Left r (.irq status scancode :: turns)
      (if undisturbed turns (Turn.run (.irq status scancode) r) then scancode :: codes else codes)
  | between {r turns codes code} (status scancode : UInt8) (read : r.reader = .fetched code) (held : Bool)
    (rest : Left (Turn.run (.irq status scancode) r) turns codes) :
    Left r (.irq status scancode :: turns) (if held then scancode :: codes else codes)
  | advance {r turns codes} (rest : Left r.advance turns codes) : Left r (.advance :: turns) codes

/-! One turn. -/

/-- Left alone, the steps of a call are the call. -/
theorem advance_alone {s : State} (returned : List UInt8) :
    runTurns (if s.keyboardReady then [.advance,.advance,.advance] else [.advance])
        ⟨s,.outside,returned⟩ =
      ⟨(keyboardReadScancode s).2,.outside,returned ++ [(keyboardReadScancode s).1]⟩ := by
  cases ready : s.keyboardReady <;>
    simp [runTurns,Turn.run,Reading.advance,keyboardReadScancode,ready]

/-- What a step of the reader can be. -/
inductive Advanced : Reading → Reading → Prop
  | found {s returned} (ready : s.keyboardReady = true) :
    Advanced ⟨s,.outside,returned⟩ ⟨s,.checked,returned⟩
  | nothing {s returned} (empty : ¬s.keyboardReady = true) :
    Advanced ⟨s,.outside,returned⟩ ⟨s,.outside,returned ++ [0]⟩
  | fetch {s returned} :
    Advanced ⟨s,.checked,returned⟩ ⟨s,.fetched s.lastScancode,returned⟩
  | clear {s code returned} : Advanced ⟨s,.fetched code,returned⟩
    ⟨{ s with keyboardReady := false },.outside,returned ++ [code]⟩

theorem Reading.advanced (r : Reading) : Advanced r r.advance := by
  obtain ⟨s,reader,returned⟩ := r
  cases reader with
  | outside =>
    unfold Reading.advance
    split_ifs with ready
    · exact .found ready
    · exact .nothing ready
  | checked => exact .fetch
  | fetched => exact .clear

/-! No code comes twice, out of order or from nowhere. -/

structure Faithful (codes : List UInt8) (r : Reading) : Prop where
  inside : r.reader ≠ .outside → r.hal.keyboardReady = true
  received : r.received.Sublist codes
  held : (r.answered ++ r.reader.held).Sublist codes

theorem answered_zero (s : State) (reader : Reader) (returned : List UInt8) :
    Reading.answered ⟨s,reader,returned ++ [0]⟩ = returned.filter (· ≠ 0) := by
  simp [Reading.answered]

theorem pending_ready {r : Reading} (ready : r.hal.keyboardReady = true) :
    r.pending = [r.hal.lastScancode] := if_pos ready

theorem Faithful.irq {codes : List UInt8} {r : Reading} (faithful : Faithful codes r)
    (status scancode : UInt8) :
    Faithful (codes ++ [scancode]) (Turn.run (.irq status scancode) r) := by
  obtain ⟨ready,code⟩ := keyboardHandler_present status scancode r.hal
  have answered : r.answered.Sublist codes := (List.sublist_append_left _ _).trans faithful.received
  refine ⟨fun _ => ready,?_,faithful.held.trans (List.sublist_append_left _ _)⟩
  have next : (Turn.run (.irq status scancode) r).pending = [scancode] := by
    rw [pending_ready ready]
    exact congrArg (fun c => [c]) code
  rw [Reading.received,next]
  exact answered.append_right [scancode]

theorem Faithful.advance {codes : List UInt8} {r : Reading} (faithful : Faithful codes r) :
    Faithful codes r.advance := by
  obtain ⟨inside,received,held⟩ := faithful
  have step := r.advanced
  generalize r.advance = next at step ⊢
  cases step with
  | found ready => exact ⟨fun _ => ready,received,held⟩
  | nothing =>
    refine ⟨fun out => absurd rfl out,?_,?_⟩
    · rw [Reading.received,answered_zero]
      exact received
    · rw [answered_zero]
      exact held
  | fetch =>
    have found := received
    rw [Reading.received,pending_ready (inside nofun)] at found
    exact ⟨fun _ => inside nofun,received,found⟩
  | @clear s code returned =>
    have answered : (Reading.answered
        ⟨{ s with keyboardReady := false },.outside,returned ++ [code]⟩).Sublist codes := by
      refine List.Sublist.trans ?_ held
      rw [Reading.answered,List.filter_append]
      exact (List.Sublist.refl _).append List.filter_sublist
    have rest := answered
    rw [← List.append_nil (Reading.answered _)] at rest
    exact ⟨fun out => absurd rfl out,rest,rest⟩

theorem Faithful.run {codes : List UInt8} {r : Reading} (faithful : Faithful codes r)
    (turns : List Turn) : Faithful (codes ++ sent turns) (runTurns turns r) := by
  induction turns generalizing codes r with
  | nil => simpa [sent,runTurns] using faithful
  | cons turn turns ih =>
    cases turn with
    | irq status scancode =>
      have split : codes ++ sent (.irq status scancode :: turns) = codes ++ [scancode] ++ sent turns := by
        simp [sent,Turn.scancode]
      rw [split]
      exact ih (faithful.irq status scancode)
    | advance => exact ih faithful.advance

/-! What is left of the codes. -/

/-- What a reader can have found and read. -/
structure Reachable (r : Reading) : Prop where
  inside : r.reader ≠ .outside → r.hal.keyboardReady = true
  pending : r.hal.keyboardReady = true → r.hal.lastScancode ≠ 0
  read : ∀ code, r.reader = .fetched code → code ≠ 0

theorem Reachable.irq {r : Reading} (reachable : Reachable r) {scancode : UInt8} (status : UInt8)
    (nonzero : scancode ≠ 0) : Reachable (Turn.run (.irq status scancode) r) := by
  obtain ⟨ready,code⟩ := keyboardHandler_present status scancode r.hal
  exact ⟨fun _ => ready,fun _ zero => nonzero (code.symm.trans zero),reachable.read⟩

theorem Reachable.advance {r : Reading} (reachable : Reachable r) : Reachable r.advance := by
  obtain ⟨inside,pending,read⟩ := reachable
  have step := r.advanced
  generalize r.advance = next at step ⊢
  cases step with
  | found ready => exact ⟨fun _ => ready,pending,nofun⟩
  | nothing empty => exact ⟨fun out => absurd rfl out,pending,nofun⟩
  | fetch =>
    have ready := inside nofun
    refine ⟨fun _ => ready,pending,fun code fetched => ?_⟩
    cases fetched
    exact pending ready
  | clear => exact ⟨fun out => absurd rfl out,nofun,nofun⟩

/-- What the rest of a run leaves of the code that is read or pending. -/
def Reading.remaining (r : Reading) (turns : List Turn) : List UInt8 :=
  match r.reader with
  | .fetched code => [code]
  | _ => if undisturbed turns r then r.pending else []

theorem remaining_unread {r : Reading} (unread : r.reader.held = []) (turns : List Turn) :
    r.remaining turns = if undisturbed turns r then r.pending else [] := by
  unfold Reading.remaining
  split
  next code read =>
    rw [read] at unread
    cases unread
  next => rfl

theorem remaining_last (r : Reading) : r.answered ++ r.remaining [] = r.taken := rfl

/-- A step of the reader takes nothing away: what it read it returns, and what it did not read
is pending as before. -/
theorem Reachable.carried {r : Reading} (reachable : Reachable r) (turns : List Turn) :
    r.advance.answered ++ r.advance.remaining turns = r.answered ++ r.remaining (.advance :: turns) := by
  obtain ⟨inside,_,read⟩ := reachable
  have step := r.advanced
  generalize after : r.advance = next at step ⊢
  cases step with
  | found ready =>
    rw [remaining_unread rfl,remaining_unread rfl,undisturbed,after]
    rfl
  | @nothing s returned empty =>
    have nothing : Reading.pending ⟨s,.outside,returned⟩ = [] := if_neg empty
    have still : Reading.pending ⟨s,.outside,returned ++ [0]⟩ = [] := if_neg empty
    rw [remaining_unread rfl,remaining_unread rfl,nothing,still,ite_self,ite_self,answered_zero]
    rfl
  | @fetch s returned =>
    have ready : s.keyboardReady = true := inside nofun
    have pending : Reading.pending ⟨s,.checked,returned⟩ = [s.lastScancode] := pending_ready ready
    rw [remaining_unread (r := ⟨s,.checked,returned⟩) rfl,undisturbed,if_pos rfl,pending]
    rfl
  | @clear s code returned =>
    have nonzero : code ≠ 0 := read code rfl
    have cleared : Reading.pending
      ⟨{ s with keyboardReady := false },.outside,returned ++ [code]⟩ = [] := rfl
    rw [remaining_unread rfl,cleared,ite_self]
    simp [Reading.answered,Reading.remaining,nonzero]

theorem Reachable.left {r : Reading} (reachable : Reachable r) {turns : List Turn}
    (nonzero : ∀ code ∈ sent turns, code ≠ 0) : ∃ codes, Left r turns codes ∧
      (runTurns turns r).taken = r.answered ++ r.remaining turns ++ codes := by
  induction turns generalizing r with
  | nil => exact ⟨[],.none r,(remaining_last r).symm.trans (List.append_nil _).symm⟩
  | cons turn turns ih =>
    cases turn with
    | advance =>
      obtain ⟨codes,left,taken⟩ := ih reachable.advance nonzero
      exact ⟨codes,.advance left,taken.trans (congrArg (· ++ codes) (reachable.carried turns))⟩
    | irq status scancode =>
      have first : scancode ≠ 0 := nonzero scancode List.mem_cons_self
      obtain ⟨codes,left,taken⟩ := ih (reachable.irq status first)
        fun code member => nonzero code (List.mem_cons_of_mem _ member)
      obtain ⟨ready,code⟩ := keyboardHandler_present status scancode r.hal
      have pending : (Turn.run (.irq status scancode) r).pending = [scancode] := by
        rw [pending_ready ready]
        exact congrArg (fun c => [c]) code
      cases held : r.reader with
      | fetched code =>
        -- the call under way goes on to return what it has read
        refine ⟨codes,.between status scancode held false left,taken.trans ?_⟩
        simp only [Reading.remaining,Turn.run,held]
        rfl
      | outside | checked =>
        have unread : r.reader.held = [] := congrArg Reader.held held
        have behind : undisturbed (.irq status scancode :: turns) r = false := rfl
        refine ⟨_,.delivered status scancode unread left,taken.trans ?_⟩
        rw [remaining_unread (r := Turn.run (.irq status scancode) r) unread,
          remaining_unread unread,pending,behind,if_neg Bool.false_ne_true]
        split
        · simp [Reading.answered,Turn.run]
        · rfl

end Xbtos.Hal
