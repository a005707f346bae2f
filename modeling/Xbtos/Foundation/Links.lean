import Mathlib.Data.List.Nodup

/-! Singly linked nodes: a link function and a distinguished null node. What is
reachable, whether the walk ends, and what the pointer updates of a linked list
(push, unlink, insert) do to both, without assuming that the walk ends. -/
namespace Foundation.Links

inductive Linked {α : Type} (next : α → α) (null head : α) : α → Prop
  | head (real : head ≠ null) : Linked next null head head
  | next (a : α) (before : Linked next null head a) (real : next a ≠ null) :
      Linked next null head (next a)

/-- Reachable without leaving `stop` along its link. -/
inductive Ahead {α : Type} (next : α → α) (null head stop : α) : α → Prop
  | head (real : head ≠ null) : Ahead next null head stop head
  | next (a : α) (before : Ahead next null head stop a) (other : a ≠ stop)
      (real : next a ≠ null) : Ahead next null head stop (next a)

/-- The walk from a node reaches null. -/
inductive Ends {α : Type} (next : α → α) (null : α) : α → Prop
  | null : Ends next null null
  | link (a : α) (real : a ≠ null) (rest : Ends next null (next a)) : Ends next null a

def Chain {α : Type} (next : α → α) (null : α) : α → List α → Prop
  | head, [] => head = null
  | head, a::rest => head = a ∧ a ≠ null ∧ Chain next null (next a) rest

theorem Linked.real {α : Type} {next : α → α} {null head a : α}
    (linked : Linked next null head a) : a ≠ null := by
  cases linked with
  | head real => exact real
  | next before real => assumption

theorem Linked.split {α : Type} {next : α → α} {null head a : α}
    (linked : Linked next null head a) : a = head ∨ Linked next null (next head) a := by
  induction linked with
  | head => exact .inl rfl
  | next b before target ih =>
    rcases ih with rfl | later
    · exact .inr (.head target)
    · exact .inr (.next b later target)

theorem Linked.before {α : Type} {next : α → α} {null head a : α}
    (linked : Linked next null (next head) a) (real : head ≠ null) : Linked next null head a := by
  induction linked with
  | head target => exact .next head (.head real) target
  | next b before target ih => exact .next b ih target

theorem not_linked_null {α : Type} {next : α → α} {null a : α} : ¬ Linked next null null a := by
  intro linked
  induction linked with
  | head real => exact real rfl
  | next b before real ih => exact ih

theorem Linked.inside {α : Type} {next : α → α} {null head a : α} {S : α → Prop}
    (closed : ∀ x, S x → next x ≠ null → S (next x)) (start : head ≠ null → S head)
    (linked : Linked next null head a) : S a := by
  induction linked with
  | head real => exact start real
  | next b before real ih => exact closed b ih real

theorem Ahead.linked {α : Type} {next : α → α} {null head stop a : α}
    (ahead : Ahead next null head stop a) : Linked next null head a := by
  induction ahead with
  | head real => exact .head real
  | next b before other real ih => exact .next b ih real

theorem Ahead.eq_head {α : Type} {next : α → α} {null head a : α}
    (ahead : Ahead next null head head a) : a = head := by
  induction ahead with
  | head => rfl
  | next b before other real ih => exact absurd ih other

theorem Ends.next {α : Type} {next : α → α} {null a : α} (ends : Ends next null a)
    (real : a ≠ null) : Ends next null (next a) := by
  cases ends with
  | null => contradiction
  | link _ rest => assumption

theorem Ends.chain {α : Type} {next : α → α} {null head : α} (ends : Ends next null head) :
    ∃ nodes, Chain next null head nodes := by
  induction ends with
  | null => exact ⟨[],rfl⟩
  | link a real rest ih =>
    obtain ⟨nodes,chain⟩ := ih
    exact ⟨a::nodes,rfl,real,chain⟩

theorem Chain.ends {α : Type} {next : α → α} {null head : α} {nodes : List α}
    (chain : Chain next null head nodes) : Ends next null head := by
  induction nodes generalizing head with
  | nil => cases chain; exact .null
  | cons a rest ih =>
    obtain ⟨rfl,real,chain⟩ := chain
    exact .link head real (ih chain)

theorem Chain.unique {α : Type} {next : α → α} {null head : α} {first second : List α}
    (one : Chain next null head first) (two : Chain next null head second) : first = second := by
  induction first generalizing head second with
  | nil =>
    cases one
    cases second with
    | nil => rfl
    | cons a rest => exact absurd two.1.symm two.2.1
  | cons a rest ih =>
    obtain ⟨rfl,real,one⟩ := one
    cases second with
    | nil => exact absurd two real
    | cons b tail =>
      obtain ⟨rfl,_,two⟩ := two
      rw [ih one two]

theorem Chain.suffix {α : Type} {next : α → α} {null head a : α} {nodes : List α}
    (chain : Chain next null head nodes) (member : a ∈ nodes) :
    ∃ tail, Chain next null a tail ∧ tail.length ≤ nodes.length := by
  induction nodes generalizing head with
  | nil => simp at member
  | cons b rest ih =>
    obtain ⟨rfl,real,chain⟩ := chain
    rcases List.mem_cons.mp member with rfl | later
    · exact ⟨a::rest,⟨rfl,real,chain⟩,Nat.le_refl _⟩
    · obtain ⟨tail,found,shorter⟩ := ih chain later
      exact ⟨tail,found,Nat.le_succ_of_le shorter⟩

theorem Chain.mem_iff {α : Type} {next : α → α} {null head a : α} {nodes : List α}
    (chain : Chain next null head nodes) : a ∈ nodes ↔ Linked next null head a := by
  induction nodes generalizing head with
  | nil =>
    cases chain
    exact ⟨fun member => absurd member List.not_mem_nil,fun linked => absurd linked not_linked_null⟩
  | cons b rest ih =>
    obtain ⟨rfl,real,chain⟩ := chain
    rw [List.mem_cons,ih chain]
    constructor
    · rintro (rfl | later)
      · exact .head real
      · exact later.before real
    · exact Linked.split

theorem Chain.nodup {α : Type} {next : α → α} {null head : α} {nodes : List α}
    (chain : Chain next null head nodes) : nodes.Nodup := by
  induction nodes generalizing head with
  | nil => exact List.nodup_nil
  | cons a rest ih =>
    obtain ⟨rfl,real,tail⟩ := chain
    refine List.nodup_cons.mpr ⟨?_,ih tail⟩
    intro member
    obtain ⟨again,found,shorter⟩ := tail.suffix member
    have same : head::rest = again := Chain.unique ⟨rfl,real,tail⟩ found
    rw [← same,List.length_cons] at shorter
    omega

/-! Pointer updates. `S` is a set of nodes closed under the old links on which the
new links are known; outside `S` nothing is assumed. -/

theorem Ends.congr {α : Type} {next next' : α → α} {null head : α} {S : α → Prop}
    (closed : ∀ x, S x → next x ≠ null → S (next x))
    (agree : ∀ x, S x → next' x = next x)
    (inside : head ≠ null → S head) (ends : Ends next null head) : Ends next' null head := by
  induction ends with
  | null => exact .null
  | link a real rest ih =>
    have member := inside real
    exact .link a real (by rw [agree a member]; exact ih (closed a member))

theorem Ends.unlink {α : Type} {next next' : α → α} {null head prev : α} {S : α → Prop}
    (closed : ∀ x, S x → next x ≠ null → S (next x))
    (target : next prev ≠ null) (bypass : next' prev = next (next prev))
    (agree : ∀ x, S x → x ≠ prev → next' x = next x)
    (inside : head ≠ null → S head) (ends : Ends next null head) : Ends next' null head := by
  induction ends with
  | null => exact .null
  | link a real rest ih =>
    have member := inside real
    have tail := ih (closed a member)
    refine .link a real ?_
    by_cases here : a = prev
    · subst here
      -- The bypassed node's own link is kept, unless it is the node itself.
      have after : next' (next a) = next (next a) := by
        by_cases again : next a = a
        · rw [again] at bypass ⊢
          rw [bypass,again]
        · exact agree _ (closed a member target) again
      rw [bypass,← after]
      exact tail.next target
    · rw [agree a member here]
      exact tail

theorem Ends.insert {α : Type} {next next' : α → α} {null head a fresh : α} {S : α → Prop}
    (closed : ∀ x, S x → next x ≠ null → S (next x)) (real : fresh ≠ null)
    (first : next' a = fresh) (second : next' fresh = next a)
    (agree : ∀ x, S x → x ≠ a → next' x = next x)
    (inside : head ≠ null → S head) (ends : Ends next null head) : Ends next' null head := by
  induction ends with
  | null => exact .null
  | link b present rest ih =>
    have member := inside present
    have tail := ih (closed b member)
    refine .link b present ?_
    by_cases here : b = a
    · subst here
      rw [first]
      exact .link fresh real (by rw [second]; exact tail)
    · rw [agree b member here]
      exact tail

theorem Ends.push {α : Type} {next next' : α → α} {null head a : α} {S : α → Prop}
    (closed : ∀ x, S x → next x ≠ null → S (next x)) (real : a ≠ null)
    (first : next' a = head) (agree : ∀ x, S x → x ≠ a → next' x = next x)
    (inside : head ≠ null → S head) (absent : ¬ Linked next null head a)
    (ends : Ends next null head) : Ends next' null a := by
  refine .link a real ?_
  rw [first]
  refine Ends.congr (S := fun x => S x ∧ Linked next null head x) ?_ ?_ ?_ ends
  · rintro x ⟨member,linked⟩ target
    exact ⟨closed x member target,.next x linked target⟩
  · rintro x ⟨member,linked⟩
    exact agree x member (fun same => absent (same ▸ linked))
  · exact fun present => ⟨inside present,.head present⟩

/-- Pushing a node that is still reachable closes a cycle. -/
theorem Ends.push_linked {α : Type} {next next' : α → α} {null head a : α} {S : α → Prop}
    (closed : ∀ x, S x → next x ≠ null → S (next x))
    (first : next' a = head) (agree : ∀ x, S x → x ≠ a → next' x = next x)
    (inside : head ≠ null → S head) (linked : Linked next null head a) :
    ¬ Ends next' null a := by
  -- Every node of the new walk can still reach the pushed node along the old links.
  have returns : ∀ x, Ends next' null x → (x ≠ null → S x) → ¬ Linked next null x a := by
    intro x walk
    induction walk with
    | null => exact fun _ => not_linked_null
    | link x real rest ih =>
      intro member reached
      by_cases here : x = a
      · subst here
        rw [first] at ih
        exact ih inside linked
      · rw [agree x (member real) here] at ih
        exact ih (closed x (member real)) (reached.split.resolve_left (Ne.symm here))
  intro ends
  have member := linked.inside closed inside
  exact returns a ends (fun _ => member) (.head linked.real)

/-! The same updates on reachability alone, for walks that may never end. -/

theorem Linked.congr {α : Type} {next next' : α → α} {null head b : α} {S : α → Prop}
    (closed : ∀ x, S x → next x ≠ null → S (next x)) (agree : ∀ x, S x → next' x = next x)
    (inside : head ≠ null → S head) (linked : Linked next null head b) :
    Linked next' null head b := by
  induction linked with
  | head present => exact .head present
  | next x before target ih =>
    have same := agree x (before.inside closed inside)
    exact same ▸ .next x ih (same ▸ target)

theorem Linked.push_iff {α : Type} {next next' : α → α} {null head a b : α} {S : α → Prop}
    (closed : ∀ x, S x → next x ≠ null → S (next x)) (real : a ≠ null)
    (first : next' a = head) (agree : ∀ x, S x → x ≠ a → next' x = next x)
    (inside : head ≠ null → S head) :
    Linked next' null a b ↔ b = a ∨ Ahead next null head a b := by
  constructor
  · intro linked
    induction linked with
    | head => exact .inl rfl
    | next x before target ih =>
      right
      by_cases here : x = a
      · subst here
        rw [first] at target ⊢
        exact .head target
      · have reached := ih.resolve_left here
        have same := agree x (reached.linked.inside closed inside) here
        rw [same] at target ⊢
        exact .next x reached here target
  · rintro (rfl | reached)
    · exact .head real
    · induction reached with
      | head present => exact first ▸ .next a (.head real) (first ▸ present)
      | next x before other target ih =>
        have same := agree x (before.linked.inside closed inside) other
        exact same ▸ .next x ih (same ▸ target)

theorem Linked.insert {α : Type} {next next' : α → α} {null head a fresh b : α} {S : α → Prop}
    (closed : ∀ x, S x → next x ≠ null → S (next x)) (real : fresh ≠ null)
    (first : next' a = fresh) (second : next' fresh = next a)
    (agree : ∀ x, S x → x ≠ a → next' x = next x)
    (inside : head ≠ null → S head) (linked : Linked next null head b) :
    Linked next' null head b := by
  induction linked with
  | head present => exact .head present
  | next x before target ih =>
    by_cases here : x = a
    · subst here
      have middle : Linked next' null head fresh := first ▸ .next x ih (first ▸ real)
      exact second ▸ .next fresh middle (second ▸ target)
    · have same := agree x (before.inside closed inside) here
      exact same ▸ .next x ih (same ▸ target)

/-- Bypassing a node loses no other node, when the predecessor was found before
the node itself. -/
theorem Linked.unlink {α : Type} {next next' : α → α} {null head prev b : α} {S : α → Prop}
    (closed : ∀ x, S x → next x ≠ null → S (next x))
    (found : Ahead next null head (next prev) prev) (apart : prev ≠ next prev)
    (bypass : next' prev = next (next prev)) (agree : ∀ x, S x → x ≠ prev → next' x = next x)
    (inside : head ≠ null → S head) (linked : Linked next null head b) (other : b ≠ next prev) :
    Linked next' null head b := by
  have early : ∀ x, Ahead next null head (next prev) x → x ≠ next prev →
      Linked next' null head x := by
    intro x ahead
    induction ahead with
    | head present => exact fun _ => .head present
    | next x before different target ih =>
      intro notTarget
      have notPrev : x ≠ prev := fun same => notTarget (congrArg next same)
      have same := agree x (before.linked.inside closed inside) notPrev
      exact same ▸ .next x (ih different) (same ▸ target)
  have start := early prev found apart
  have step : ∀ x, Linked next null head x →
      (x ≠ next prev → Linked next' null head x) ∧
      (x = next prev → next x ≠ null → Linked next' null head (next x)) := by
    intro x reached
    have through : ∀ y, y = next prev → next y ≠ null → Linked next' null head (next y) := by
      rintro y rfl target
      exact bypass ▸ .next prev start (bypass ▸ target)
    refine ⟨?_,through x⟩
    induction reached with
    | head present => exact fun _ => .head present
    | next x before target ih =>
      intro notTarget
      by_cases middle : x = next prev
      · exact through x middle target
      · have notPrev : x ≠ prev := fun same => notTarget (congrArg next same)
        have same := agree x (before.inside closed inside) notPrev
        exact same ▸ .next x (ih middle) (same ▸ target)
  exact (step b linked).1 other

theorem Linked.pop {α : Type} {next : α → α} {null head b : α}
    (linked : Linked next null head b) (other : b ≠ head) : Linked next null (next head) b :=
  linked.split.resolve_left other

end Foundation.Links
