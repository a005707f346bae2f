import Xbtos.HeapOwners
import Mathlib.Data.List.Induction

/-! Two runs of the heap in which the same calls are made. What the memory held before and what the
owners store there makes no difference to the answers. -/
namespace Xbtos.Heap
open Foundation.ByteMemory Foundation.Objects

/-- The call that was answered: how much was given, or what was freed. -/
def answered : Event UInt8 → Option (Nat ⊕ Nat)
  | .make _ content => some (.inl content.length)
  | .drop p => some (.inr p)
  | .put _ _ _ => none
  | .nothing => none

def calls (events : List (Event UInt8)) : List (Nat ⊕ Nat) := events.filterMap answered

section
variable {h g : State} {blocks : List Nat}

theorem SameHeaders.symm (same : SameHeaders h g blocks) : SameHeaders g h blocks :=
  ⟨same.1.symm,fun b member => (same.2 b member).symm⟩

theorem SameHeaders.fits_iff (same : SameHeaders h g blocks) {b : Nat} (member : b ∈ blocks) (totalSize : Nat) :
    fits g.memory totalSize b ↔ fits h.memory totalSize b := by
  unfold fits
  rw [fields_free (same.2 b member),fields_size (same.2 b member)]

theorem SameHeaders.visit (same : SameHeaders h g blocks) (shape : Shape h blocks) {totalSize curr prev : Nat}
    (visit : Visit h totalSize curr prev) : Visit g totalSize curr prev := by
  induction visit with
  | start =>
    rw [← same.1]
    exact .start
  | step curr prev before real skipped ih =>
    have member := shape.visited before real
    rw [← fields_next (same.2 curr member)]
    exact .step curr prev ih real ((same.fits_iff member totalSize).not.mpr skipped)

/-- The loop of kmalloc takes the same way through both heaps. -/
theorem SameHeaders.kmallocLoop (same : SameHeaders h g blocks) (shape : Shape h blocks)
    {totalSize fuel curr prev : Nat} (visit : Visit h totalSize curr prev) {p : Nat} {h' : State}
    (returned : Heap.kmallocLoop h totalSize fuel curr prev = some (p,h')) :
    ∃ g', Heap.kmallocLoop g totalSize fuel curr prev = some (p,g') ∧
      ((h' = h ∧ g' = g) ∨ ∃ c before, Visit h totalSize c before ∧ c ≠ 0 ∧ fits h.memory totalSize c ∧
        h' = takeBlock h totalSize c before ∧ g' = takeBlock g totalSize c before) := by
  induction fuel generalizing curr prev with
  | zero => simp [Heap.kmallocLoop] at returned
  | succ fuel ih =>
    unfold Heap.kmallocLoop at returned ⊢
    split at returned
    next none =>
      obtain ⟨rfl,rfl⟩ := Prod.mk.inj (Option.some.inj returned)
      rw [if_pos none]
      exact ⟨g,rfl,.inl ⟨rfl,rfl⟩⟩
    next real =>
      have member := shape.visited visit real
      rw [if_neg real]
      split at returned
      next good =>
        obtain ⟨rfl,rfl⟩ := Prod.mk.inj (Option.some.inj returned)
        rw [if_pos ((same.fits_iff member totalSize).mpr good)]
        exact ⟨_,rfl,.inr ⟨curr,prev,visit,real,good,rfl,rfl⟩⟩
      next skipped =>
        rw [if_neg ((same.fits_iff member totalSize).not.mpr skipped),fields_next (same.2 curr member)]
        exact ih (.step curr prev visit real skipped) returned

theorem Split.alike {h' g' : State} {c totalSize : Nat} (same : SameHeaders h g blocks) (member : c ∈ blocks)
    (first : Split h h' blocks c totalSize) (second : Split g g' blocks c totalSize) {cut : List Nat}
    (members : ∀ b, b ∈ cut ↔ b ∈ blocks ∨ b = c + totalSize) : SameHeaders h' g' cut := by
  have front := same.2 c member
  refine ⟨second.head.trans (same.1.trans first.head.symm),fun b inside => ?_⟩
  by_cases start : b = c
  · rw [start,first.front,second.front]
  rcases (members b).mp inside with old | rfl
  · rw [first.rest b old start,second.rest b old start,same.2 b old]
  · rw [first.back,second.back,fields_size front,fields_next front]

theorem Taken.alike {h' g' : State} {c prev : Nat} (same : SameHeaders h g blocks) (member : c ∈ blocks)
    (first : Taken h h' blocks c prev) (second : Taken g g' blocks c prev) : SameHeaders h' g' blocks := by
  have link := fields_next (same.2 c member)
  have sizes : ∀ b ∈ blocks, size g'.memory b = size h'.memory b := by
    intro b inside
    rw [first.sizes b inside,second.sizes b inside,fields_size (same.2 b inside)]
  have flags : ∀ b ∈ blocks, free g'.memory b = free h'.memory b := by
    intro b inside
    by_cases taken : b = c
    · rw [taken,first.flag,second.flag]
    · rw [first.flags b inside taken,second.flags b inside taken,fields_free (same.2 b inside)]
  have links : g'.freeList = h'.freeList ∧ ∀ b ∈ blocks, next g'.memory b = next h'.memory b := by
    by_cases start : prev = 0
    · obtain ⟨_,head,rest⟩ := first.first start
      obtain ⟨_,top,others⟩ := second.first start
      refine ⟨by rw [head,top,link],fun b inside => ?_⟩
      rw [rest b inside,others b inside,fields_next (same.2 b inside)]
    · obtain ⟨_,_,_,_,head,bypass,rest⟩ := first.later start
      obtain ⟨_,_,_,_,top,around,others⟩ := second.later start
      refine ⟨by rw [head,top,same.1],fun b inside => ?_⟩
      by_cases before : b = prev
      · rw [before,bypass,around,link]
      · rw [rest b inside before,others b inside before,fields_next (same.2 b inside)]
  refine ⟨links.1,fun b inside => ?_⟩
  unfold fields
  rw [sizes b inside,flags b inside,links.2 b inside]

theorem SameHeaders.takeBlock (same : SameHeaders h g blocks) (shape : Shape h blocks) {totalSize c prev : Nat}
    (visit : Visit h totalSize c prev) (real : c ≠ 0) (good : fits h.memory totalSize c)
    (positive : sizeofHeader < totalSize) : ∃ blocks', Shape (Heap.takeBlock h totalSize c prev) blocks' ∧
      SameHeaders (Heap.takeBlock h totalSize c prev) (Heap.takeBlock g totalSize c prev) blocks' := by
  have member := shape.visited visit real
  have still := same.visit shape visit
  have fitting := (same.fits_iff member totalSize).mpr good
  have size := fields_size (same.2 c member)
  unfold Heap.takeBlock
  rw [shape.room member good.2,size]
  split
  next wide =>
    have first := splitBlock_split shape visit real good positive wide
    have second := splitBlock_split (same.shape shape) still real fitting positive (size ▸ wide)
    obtain ⟨cut,shape',members⟩ := first.shape shape member
    exact ⟨cut,shape',first.alike same member second members⟩
  next narrow =>
    have first := takeWhole_taken shape visit real good
    have second := takeWhole_taken (same.shape shape) still real fitting
    exact ⟨blocks,first.shape shape member,first.alike same member second⟩

theorem SameHeaders.kmalloc (same : SameHeaders h g blocks) (shape : Shape h blocks) {fuel requested p : Nat}
    {h' : State} (returned : Heap.kmalloc fuel requested h = some (p,h')) :
    ∃ g', Heap.kmalloc fuel requested g = some (p,g') ∧ (requested + sizeofHeader < 2^32 →
      ∃ blocks', Shape h' blocks' ∧ SameHeaders h' g' blocks') := by
  unfold Heap.kmalloc at returned ⊢
  split at returned
  next none =>
    obtain ⟨rfl,rfl⟩ := Prod.mk.inj (Option.some.inj returned)
    rw [if_pos none]
    exact ⟨g,rfl,fun _ => ⟨blocks,shape,same⟩⟩
  next some =>
    obtain ⟨g',answer,unchanged | ⟨c,prev,visit,real,good,rfl,rfl⟩⟩ := same.kmallocLoop shape .start returned
    · obtain ⟨rfl,rfl⟩ := unchanged
      rw [if_neg some,same.1,answer]
      exact ⟨_,rfl,fun _ => ⟨blocks,shape,same⟩⟩
    · rw [if_neg some,same.1,answer]
      refine ⟨_,rfl,fun word => same.takeBlock shape visit real good ?_⟩
      rw [wrap_of_lt word]
      omega

end

/-- How much fuel there is does not matter to a call that returns. -/
theorem kmallocLoop_fuel {h : State} {totalSize fuel more curr prev : Nat} {r r' : Nat × State}
    (first : kmallocLoop h totalSize fuel curr prev = some r)
    (second : kmallocLoop h totalSize more curr prev = some r') : r = r' := by
  induction fuel generalizing more curr prev with
  | zero => simp [kmallocLoop] at first
  | succ fuel ih =>
    cases more with
    | zero => simp [kmallocLoop] at second
    | succ more =>
      unfold kmallocLoop at first second
      split_ifs at first second
      · exact Option.some.inj (first.symm.trans second)
      · exact Option.some.inj (first.symm.trans second)
      · exact ih first second

theorem kmalloc_fuel {h : State} {fuel more requested : Nat} {r r' : Nat × State}
    (first : kmalloc fuel requested h = some r) (second : kmalloc more requested h = some r') : r = r' := by
  unfold kmalloc at first second
  split_ifs at first second
  · exact Option.some.inj (first.symm.trans second)
  · exact kmallocLoop_fuel first second

/-! Runs. -/

/-- Two systems that the calls do not tell apart. -/
structure Indistinct (s t : System) : Prop where
  live : t.live = s.live
  headers : ∃ blocks, Shape s.heap blocks ∧ Owned s.live s.heap blocks ∧ SameHeaders s.heap t.heap blocks

theorem Indistinct.symm {s t : System} (indistinct : Indistinct s t) : Indistinct t s := by
  obtain ⟨live,blocks,shape,owned,same⟩ := indistinct
  refine ⟨live.symm,blocks,same.shape shape,?_,same.symm⟩
  rw [live]
  exact same.owned owned

theorem Indistinct.trans {s t u : System} (first : Indistinct s t) (second : Indistinct t u) : Indistinct s u := by
  obtain ⟨live,blocks,shape,owned,same⟩ := first
  obtain ⟨alive,others,shaped,_,again⟩ := second
  rw [shaped.tiles.unique (same.shape shape).tiles] at again
  exact ⟨alive.trans live,blocks,shape,owned,again.1.trans same.1,
    fun b member => (again.2 b member).trans (same.2 b member)⟩

/-- What is not a call that is answered goes unnoticed. -/
theorem Does.unnoticed {s s' : System} {event : Event UInt8} {blocks : List Nat} (shape : Shape s.heap blocks)
    (owned : Owned s.live s.heap blocks) (does : Does s event s') (quiet : answered event = none) :
    Indistinct s s' := by
  cases does with
  | malloc => simp [answered] at quiet
  | free => simp [answered] at quiet
  | freeNull => exact ⟨rfl,blocks,shape,owned,rfl,fun _ _ => rfl⟩
  | store p size i v member inside =>
    exact ⟨rfl,blocks,shape,owned,owned.storeByte shape member inside v⟩
  | refused fuel size h' word returned =>
    unfold Stdlib.malloc at returned
    rw [wrap_of_lt (by omega)] at returned
    rcases kmalloc_outcome shape word returned with ⟨_,rfl⟩ | ⟨c,_,null,_⟩
    · exact ⟨rfl,blocks,shape,owned,rfl,fun _ _ => rfl⟩
    · unfold sizeofHeader at null
      omega

theorem Does.given {s s' : System} {event : Event UInt8} {size : Nat} (does : Does s event s')
    (call : answered event = some (.inl size)) : ∃ fuel p h', size + sizeofHeader < 2^32 ∧ p ≠ 0 ∧
      kmalloc fuel size s.heap = some (p,h') ∧ s' = ⟨h',(p,size)::s.live⟩ := by
  cases does with
  | malloc fuel asked p h' word returned real =>
    have length : asked = size := by simpa [answered,region] using call
    subst length
    unfold Stdlib.malloc at returned
    rw [wrap_of_lt (by omega)] at returned
    exact ⟨fuel,p,h',word,real,returned,rfl⟩
  | refused => simp [answered] at call
  | free => simp [answered] at call
  | freeNull => simp [answered] at call
  | store => simp [answered] at call

theorem Does.freed {s s' : System} {event : Event UInt8} {p : Nat} (does : Does s event s')
    (call : answered event = some (.inr p)) :
    (∃ size, (p,size) ∈ s.live) ∧ s' = ⟨Stdlib.free p s.heap,s.live.filter fun e => e.1 ≠ p⟩ := by
  cases does with
  | free freed size held =>
    have same : freed = p := by simpa [answered] using call
    subst same
    exact ⟨⟨size,held⟩,rfl⟩
  | malloc => simp [answered] at call
  | refused => simp [answered] at call
  | freeNull => simp [answered] at call
  | store => simp [answered] at call

theorem Freed.alike {h g h' g' : State} {blocks : List Nat} {b : Nat} (same : SameHeaders h g blocks)
    (member : b ∈ blocks) (first : Freed h h' blocks b) (second : Freed g g' blocks b) :
    SameHeaders h' g' blocks := by
  refine ⟨second.head.trans first.head.symm,fun a inside => ?_⟩
  by_cases start : a = b
  · rw [start,first.front,second.front,fields_size (same.2 b member),same.1]
  · rw [first.rest a inside start,second.rest a inside start,same.2 a inside]

/-- The same call has the same answer. -/
theorem Does.indistinct {s s' t t' : System} {event other : Event UInt8} {call : Nat ⊕ Nat}
    (indistinct : Indistinct s t) (does : Does s event s') (does' : Does t other t')
    (first : answered event = some call) (second : answered other = some call) : Indistinct s' t' := by
  obtain ⟨live,blocks,shape,owned,same⟩ := indistinct
  cases call with
  | inl size =>
    obtain ⟨fuel,p,h',word,real,returned,rfl⟩ := does.given first
    obtain ⟨more,q,g',_,_,again,rfl⟩ := does'.given second
    obtain ⟨g,answer,alike⟩ := same.kmalloc shape returned
    obtain ⟨rfl,rfl⟩ := Prod.mk.inj (kmalloc_fuel answer again)
    obtain ⟨others,shaped,headers⟩ := alike word
    have step : Step anyLive s _ := .kmalloc s fuel size p h' word returned
    rw [if_neg real] at step
    obtain ⟨blocks',shape',owned'⟩ := step.shape shape owned
    rw [shaped.tiles.unique shape'.tiles] at headers
    exact ⟨congrArg (_ :: ·) live,blocks',shape',owned',headers⟩
  | inr p =>
    obtain ⟨⟨size,held⟩,rfl⟩ := does.freed first
    obtain ⟨_,rfl⟩ := does'.freed second
    obtain ⟨b,inside,address,_,_⟩ := owned.block _ held
    dsimp only at address
    subst address
    have real : b + sizeofHeader ≠ 0 := by unfold sizeofHeader; omega
    have freed := kfree_freed shape inside
    have again := kfree_freed (same.shape shape) inside
    unfold Stdlib.free
    rw [if_pos real,if_pos real]
    exact ⟨congrArg (List.filter _) live,blocks,freed.shape shape inside,owned.take freed,
      freed.alike same inside again⟩

theorem calls_quiet {event : Event UInt8} (events : List (Event UInt8)) (quiet : answered event = none) :
    calls (events ++ [event]) = calls events := by
  simp [calls,quiet]

theorem calls_answered {event : Event UInt8} {call : Nat ⊕ Nat} (events : List (Event UInt8))
    (answer : answered event = some call) : calls (events ++ [event]) = calls events ++ [call] := by
  simp [calls,answer]

theorem OwnersRun.refl {memory : Memory} {events : List (Event UInt8)} {s : System}
    (run : OwnersRun memory events s) : Indistinct s s := by
  obtain ⟨blocks,shape,owned⟩ := run.kept.blocks
  exact ⟨rfl,blocks,shape,owned,rfl,fun _ _ => rfl⟩

theorem boot_indistinct (memory memory' : Memory) : Indistinct (boot memory) (boot memory') := by
  refine ⟨rfl,[heapStart],heapInit_shape memory,⟨by simp [boot],by simp [boot]⟩,rfl,fun b member => ?_⟩
  rw [List.mem_singleton.mp member]
  exact (heapInit_fields memory').trans (heapInit_fields memory).symm

/-- What a run has come to: nothing noticed yet, or a last call with nothing noticed after it. -/
inductive Latest (memory : Memory) (s : System) (made : List (Nat ⊕ Nat)) : Prop
  | quiet (none : made = []) (start : Indistinct (boot memory) s) : Latest memory s made
  | call {events : List (Event UInt8)} {event : Event UInt8} {before after : System} {call : Nat ⊕ Nat}
      (run : OwnersRun memory events before) (does : Does before event after) (answer : answered event = some call)
      (whole : made = calls events ++ [call]) (rest : Indistinct after s) : Latest memory s made

theorem OwnersRun.latest {memory : Memory} {events : List (Event UInt8)} {s : System}
    (run : OwnersRun memory events s) : Latest memory s (calls events) := by
  induction run with
  | boot => exact .quiet rfl (boot_indistinct memory memory)
  | @step events event s s' before does ih =>
    cases answer : answered event with
    | some call => exact .call before does answer (calls_answered events answer) (before.step does).refl
    | none =>
      obtain ⟨blocks,shape,owned⟩ := before.kept.blocks
      have unnoticed := does.unnoticed shape owned answer
      rw [calls_quiet events answer]
      cases ih with
      | quiet none start => exact .quiet none (start.trans unnoticed)
      | call run last answer whole rest => exact .call run last answer whole (rest.trans unnoticed)

theorem Latest.indistinct {memory memory' : Memory} {made : List (Nat ⊕ Nat)} {s t : System}
    (first : Latest memory s made) (second : Latest memory' t made) : Indistinct s t := by
  induction made using List.reverseRecOn generalizing s t with
  | nil =>
    cases first with
    | call _ _ _ whole _ => simp at whole
    | quiet _ start =>
      cases second with
      | call _ _ _ whole _ => simp at whole
      | quiet _ other => exact (start.symm.trans (boot_indistinct memory memory')).trans other
  | append_singleton made call ih =>
    cases first with
    | quiet none _ => simp at none
    | call run does answer whole rest =>
      cases second with
      | quiet none _ => simp at none
      | call run' does' answer' whole' rest' =>
        obtain ⟨rfl,same⟩ := List.append_inj' whole rfl
        obtain ⟨earlier,same'⟩ := List.append_inj' whole' rfl
        obtain rfl := List.singleton_inj.mp same
        obtain rfl := List.singleton_inj.mp same'
        have before := ih run.latest (earlier ▸ run'.latest)
        exact (rest.symm.trans (does.indistinct before does' answer answer')).trans rest'

/-- Runs in which the same calls are answered, whatever the memory holds at first and whatever is stored
in between: the pointers given are the same, and so is what any further malloc gives. -/
theorem answers_blind {memory memory' : Memory} {events events' : List (Event UInt8)} {s t : System}
    (run : OwnersRun memory events s) (other : OwnersRun memory' events' t) (same : calls events = calls events') :
    t.live = s.live ∧ ∀ fuel size p,
      (∃ h, Stdlib.malloc fuel size s.heap = some (p,h)) ↔ ∃ h, Stdlib.malloc fuel size t.heap = some (p,h) := by
  have indistinct := run.latest.indistinct (same ▸ other.latest)
  obtain ⟨live,blocks,shape,_,headers⟩ := indistinct
  refine ⟨live,fun fuel size p => ⟨?_,?_⟩⟩
  · rintro ⟨h,returned⟩
    obtain ⟨g,answer,_⟩ := headers.kmalloc shape returned
    exact ⟨g,answer⟩
  · rintro ⟨g,returned⟩
    obtain ⟨h,answer,_⟩ := headers.symm.kmalloc (headers.shape shape) returned
    exact ⟨h,answer⟩

theorem answers_blind_stores : ∃ s t events events', OwnersRun (fun _ => 0) events s ∧
    OwnersRun (fun _ => 0xFF) events' t ∧ events.length ≠ events'.length ∧ t.live = s.live ∧
      ∀ fuel size p, (∃ h, Stdlib.malloc fuel size s.heap = some (p,h)) ↔
        ∃ h, Stdlib.malloc fuel size t.heap = some (p,h) := by
  have malloc : ∀ memory, Stdlib.malloc 1 100 (heapInit memory) =
      some (0x20000C,takeBlock (heapInit memory) 112 heapStart 0) :=
    fun memory => kmalloc_first memory (by decide) (by decide)
  have given := fun memory => (OwnersRun.boot : OwnersRun memory [] (boot memory)).step
    (.malloc (boot memory) 1 100 0x20000C _ (by decide) (malloc memory) (by decide))
  have stored := (given fun _ => 0).step (.store _ 0x20000C 100 99 0xFF (List.mem_singleton.mpr rfl) (by decide))
  obtain ⟨live,answers⟩ := answers_blind stored (given fun _ => 0xFF) (by simp [calls,answered,region])
  exact ⟨_,_,_,_,stored,given _,by simp,live,answers⟩

end Xbtos.Heap
