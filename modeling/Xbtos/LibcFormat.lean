import Xbtos.Libc
import Xbtos.Foundation.Pieces

/-! What printf reads of its format and takes of its arguments. It takes the character behind a
'%' as a conversion, whatever it is; where that is the terminator it reads on behind it. -/
namespace Xbtos.Libc
open Foundation.Buffer Foundation.Pieces Strings

/-- The characters behind a '%', in the order of the scan. -/
def conversions : Bytes → Bytes
  | [] => []
  | c :: format =>
    if c ≠ percent then conversions format
    else
      match format with
      | [] => []
      | d :: format => d :: conversions format

/-- Whether a conversion takes an argument. -/
def takes (conversion : UInt8) : Bool := conversion ∈ literal "sdiuxc"

def taken : Event → Option (UInt8 × Nat)
  | .argument conversion slot => some (conversion,slot)
  | _ => none

/-- How many characters belong to the one that begins a piece of a format. -/
def announced (c : UInt8) : Nat := if c = percent then 1 else 0

theorem takes_iff (c : UInt8) :
    takes c = true ↔ c = 115 ∨ c = 100 ∨ c = 105 ∨ c = 117 ∨ c = 120 ∨ c = 99 := by
  have letters : literal "sdiuxc" = [115,100,105,117,120,99] := rfl
  rw [takes,letters]
  simp

theorem conversions_plain {c : UInt8} (plain : c ≠ percent) (format : Bytes) :
    conversions (c :: format) = conversions format := by
  rw [conversions.eq_def]
  exact if_pos plain

theorem conversions_percent (d : UInt8) (format : Bytes) :
    conversions (percent :: d :: format) = d :: conversions format := by
  rw [conversions,if_neg fun differs => differs rfl]

theorem printfFrom_plain {c : UInt8} (slots : Nat → UInt32) (nonzero : c ≠ 0) (plain : c ≠ percent)
    (i k : Nat) (format : Bytes) : printfFrom slots i k (c :: format) =
      .read i :: .call (.printChar c) :: printfFrom slots (i+1) k format := by
  rw [printfFrom.eq_def]
  simp only [if_neg nonzero,if_pos plain]

theorem printfFrom_percent (slots : Nat → UInt32) (i k : Nat) (d : UInt8) (format : Bytes) :
    printfFrom slots i k (percent :: d :: format) =
      .read i :: .read (i+1) :: (convert slots k d).1 ++
        printfFrom slots (i+2) (convert slots k d).2 format := by
  rw [printfFrom,if_neg (show percent ≠ 0 by decide),if_neg fun differs => differs rfl]
  rfl

/-- A conversion takes the next argument or none, and reads nothing. -/
structure Converted (slots : Nat → UInt32) (k : Nat) (c : UInt8) : Prop where
  next : (convert slots k c).2 = k + if takes c then 1 else 0
  taken : (convert slots k c).1.filterMap taken = if takes c then [(c,k)] else []
  reads : ∀ i, Event.read i ∉ (convert slots k c).1

theorem convert_converted (slots : Nat → UInt32) (k : Nat) (c : UInt8) : Converted slots k c := by
  cases argument : takes c with
  | true =>
    rcases (takes_iff c).mp argument with rfl | rfl | rfl | rfl | rfl | rfl
    all_goals exact ⟨rfl,rfl,fun i => by simp [convert]⟩
  | false =>
    have others : ¬takes c = true := Bool.eq_false_iff.mp argument
    rw [takes_iff] at others
    push Not at others
    obtain ⟨notS,notD,notI,notU,notX,notC⟩ := others
    have signed : ¬(c = 100 ∨ c = 105) := not_or.mpr ⟨notD,notI⟩
    have plain : convert slots k c =
        (if c = percent then [.call (.printChar percent)]
          else [.call (.printChar percent),.call (.printChar c)],k) := by
      rw [convert,if_neg notS,if_neg signed,if_neg notU,if_neg notX,if_neg notC]
      split <;> rfl
    constructor <;> rw [plain]
    · simp [argument]
    · split <;> simp [taken,argument]
    · split <;> simp

/-- What the loop does over a front of the format, from format[i] and slot k on: it reads nothing
else, and takes the arguments of the conversions. -/
structure Passes (slots : Nat → UInt32) (i k : Nat) (front : Bytes) (events : List Event) :
    Prop where
  run : ∀ text, printfFrom slots i k (front ++ text) = events ++
    printfFrom slots (i + front.length) (k + (conversions front).countP takes) text
  reads : ∀ j, .read j ∈ events → j < i + front.length
  arguments : events.filterMap taken = ((conversions front).filter takes).zipIdx k

section
variable {slots : Nat → UInt32} {i k : Nat} {front : Bytes} {events : List Event}

theorem Passes.plain {c : UInt8} (nonzero : c ≠ 0) (plain : c ≠ percent)
    (passes : Passes slots (i+1) k front events) :
    Passes slots i k (c :: front) (.read i :: .call (.printChar c) :: events) := by
  have length : i + (c :: front).length = i + 1 + front.length := by
    rw [List.length_cons]
    omega
  constructor
  · intro text
    rw [length,conversions_plain plain,List.cons_append,printfFrom_plain slots nonzero plain,
      passes.run]
    rfl
  · intro j member
    rw [length]
    simp only [List.mem_cons,Event.read.injEq,reduceCtorEq,false_or] at member
    rcases member with rfl | later
    · omega
    · exact passes.reads j later
  · rw [conversions_plain plain]
    exact passes.arguments

theorem Passes.conversion {d : UInt8} (passes : Passes slots (i+2) (convert slots k d).2 front events) :
    Passes slots i k (percent :: d :: front)
      (.read i :: .read (i+1) :: (convert slots k d).1 ++ events) := by
  have converted := convert_converted slots k d
  have length : i + (percent :: d :: front).length = i + 2 + front.length := by
    simp only [List.length_cons]
    omega
  constructor
  · intro text
    have slot : k + ((conversions front).countP takes + if takes d = true then 1 else 0) =
        (convert slots k d).2 + (conversions front).countP takes := by
      rw [converted.next]
      omega
    rw [length,conversions_percent,List.countP_cons,slot,List.cons_append,List.cons_append,
      printfFrom_percent,passes.run,List.append_assoc]
  · intro j member
    rw [length]
    rcases List.mem_append.mp member with early | later
    · have none_read := converted.reads j
      simp only [List.mem_cons,none_read,Event.read.injEq,or_false] at early
      omega
    · exact passes.reads j later
  · have here : ([Event.read i,Event.read (i+1)] ++ (convert slots k d).1).filterMap taken =
        if takes d then [(d,k)] else [] := converted.taken
    rw [conversions_percent,List.filterMap_append]
    apply (congrArg (· ++ _) here).trans
    rw [passes.arguments,converted.next,List.filter_cons]
    cases takes d <;> rfl

theorem printfFrom_whole (slots : Nat → UInt32) (whole : Whole announced front) (noNul : 0 ∉ front)
    (i k : Nat) : ∃ events, Passes slots i k front events := by
  induction whole generalizing i k with
  | nil => exact ⟨[],fun _ => rfl,by simp,rfl⟩
  | piece first tail rest counted after ih =>
    rw [List.mem_append,not_or] at noNul
    have nonzero : first ≠ 0 := fun zero => noNul.1 (zero ▸ List.mem_cons_self)
    by_cases begins : first = percent
    · subst begins
      obtain ⟨d,rfl⟩ := List.length_eq_one_iff.mp counted
      obtain ⟨events,passes⟩ := ih noNul.2 (i+2) (convert slots k d).2
      exact ⟨_,passes.conversion⟩
    · rw [announced,if_neg begins,List.length_eq_zero_iff] at counted
      subst counted
      obtain ⟨events,passes⟩ := ih noNul.2 (i+1) k
      exact ⟨_,passes.plain nonzero begins⟩

end

theorem printfFrom_first (slots : Nat → UInt32) (i k : Nat) (format : Bytes) :
    .read i ∈ printfFrom slots i k format := by
  cases format with
  | nil => exact List.mem_cons_self
  | cons c format =>
    rw [printfFrom.eq_def]
    exact List.mem_cons_self

/-- No byte behind the terminator is read, nothing is done after the terminator is, and each
conversion that takes an argument takes the next one. -/
structure InFormat (format : CString) (slots : Nat → UInt32) : Prop where
  reads : ∀ i, .read i ∈ printf (some format.pointer) slots → i ≤ format.bytes.length
  stops : (printf (some format.pointer) slots).getLast? = some (.read format.bytes.length)
  arguments : (printf (some format.pointer) slots).filterMap taken =
    ((conversions format.bytes).filter takes).zipIdx

theorem InFormat.whole {format : CString} {slots : Nat → UInt32} (inside : InFormat format slots) :
    Whole announced format.bytes := by
  apply (whole_or_cut announced format.bytes).resolve_right
  rintro ⟨front,first,tail,cut⟩
  have noNul := format.noNul
  rw [cut.layout,List.mem_append,not_or] at noNul
  have short := cut.short
  have length := cut.length
  unfold announced at short
  split_ifs at short with begins
  · have alone : tail = [] := List.length_eq_zero_iff.mp (by omega)
    subst begins alone
    -- The terminator is taken as the conversion, and the loop reads on behind it.
    obtain ⟨events,passes⟩ := printfFrom_whole slots cut.whole noNul.1 0 0
    have beyond := inside.reads (front.length + 2) (by
      rw [printf,CString.pointer,cut.layout,List.append_assoc,List.singleton_append,passes.run,
        printfFrom_percent,Nat.zero_add]
      exact List.mem_append_right _ (List.mem_append_right _ (printfFrom_first ..)))
    rw [List.length_nil] at length
    omega
  · exact absurd short (Nat.not_lt_zero _)

theorem inFormat_whole {format : CString} (slots : Nat → UInt32)
    (whole : Whole announced format.bytes) : InFormat format slots := by
  obtain ⟨events,passes⟩ := printfFrom_whole slots whole format.noNul 0 0
  have terminator : ∀ i k, printfFrom slots i k (0 :: format.after) = [.read i] := by
    intro i k
    rw [printfFrom.eq_def]
    rfl
  have output : printf (some format.pointer) slots = events ++ [.read format.bytes.length] := by
    rw [printf,CString.pointer,passes.run,terminator,Nat.zero_add]
  constructor
  · intro i member
    rw [output] at member
    rcases List.mem_append.mp member with early | last
    · have below := passes.reads i early
      omega
    · cases List.mem_singleton.mp last
      exact Nat.le_refl _
  · rw [output]
    exact List.getLast?_concat ..
  · rw [output,List.filterMap_append,passes.arguments]
    exact List.append_nil _

/-- printf stays inside its format exactly when no '%' that begins a conversion is its end. -/
theorem printf_inside_iff (format : CString) (slots : Nat → UInt32) :
    InFormat format slots ↔ Whole announced format.bytes :=
  ⟨InFormat.whole,inFormat_whole slots⟩

/-- A format that is a '%' alone. -/
def lonePercent : CString := ⟨[percent],[115,0],by decide,by decide⟩

/-- The terminator is taken as a conversion and put, and the bytes behind it are read as a
format. -/
theorem lone_percent_overrun : ¬InFormat lonePercent (fun _ => 0) ∧
    printf (some lonePercent.pointer) (fun _ => 0) =
      [.read 0,.read 1,.call (.printChar percent),.call (.printChar 0),
        .read 2,.call (.printChar 115),.read 3] := by
  have output : printf (some lonePercent.pointer) (fun _ => 0) =
      [.read 0,.read 1,.call (.printChar percent),.call (.printChar 0),
        .read 2,.call (.printChar 115),.read 3] := by decide
  refine ⟨fun inside => ?_,output⟩
  have beyond := inside.reads 2 (by
    rw [output]
    decide)
  exact absurd beyond (by decide)

end Xbtos.Libc
