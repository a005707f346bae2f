import Xbtos.LibcFormat
import Xbtos.LibcNumbers
import Xbtos.LibcRoundTrip
import Xbtos.ConsoleText

/-! What printf shows. A format is a text with places for values, and the screen comes out as if the
text with the values in their places had been put on it, character by character. -/
namespace Xbtos.Libc
open Foundation.Buffer Foundation.Numeral Foundation.Pieces Strings Console

/-! The calls, on the console. An address has the C string there, and none where it is null. -/

/-- The calls of print_unsigned and print_signed, which only put characters. -/
def printChars : List Call → Console.State → Option Console.State
  | [], s => some s
  | .printChar c :: calls, s => do printChars calls (← vgaPutChar c s)
  | _ :: _, _ => none

def Call.run (texts : UInt32 → Option CString) : Call → Console.State → Option Console.State
  | .printChar c, s => vgaPutChar c s
  | .printString text, s => vgaWrite ((texts text).map CString.pointer) s
  | .printUnsigned value base, s => do printChars (← Libc.printUnsigned value base) s
  | .printSigned value, s => do printChars (← Libc.printSigned value) s

def runEvents (texts : UInt32 → Option CString) : List Event → Console.State → Option Console.State
  | [], s => some s
  | .call call :: events, s => do runEvents texts events (← call.run texts s)
  | _ :: events, s => runEvents texts events s

def putchar (c : UInt32) (s : Console.State) : Option Console.State := vgaPutChar c.toUInt8 s

def puts (text : Option Bytes) (s : Console.State) : Option Console.State := do
  vgaPutChar newline (← vgaWrite text s)

/-! Templates. -/

/-- A character of the text, or a place with its value. -/
inductive Piece
  | char (c : UInt8) (plain : c ≠ 0 ∧ c ≠ percent)
  | percentSign
  /-- A '%' and a character that is no conversion stand for themselves. -/
  | unknown (c : UInt8) (other : takes c = false ∧ c ≠ percent)
  | string (text : Option CString)
  | signed (letter : UInt8) (either : letter = 100 ∨ letter = 105) (value : Int32)
  | unsigned (value : UInt32)
  | hexadecimal (value : UInt32)
  | character (value : UInt32)

def Piece.spelled : Piece → Bytes
  | .char c _ => [c]
  | .percentSign => [percent,percent]
  | .unknown c _ => [percent,c]
  | .string _ => [percent,115]
  | .signed letter _ _ => [percent,letter]
  | .unsigned _ => [percent,117]
  | .hexadecimal _ => [percent,120]
  | .character _ => [percent,99]

/-- The words that are passed for a piece. -/
def Piece.words : Piece → Nat
  | .char _ _ => 0
  | .percentSign => 0
  | .unknown _ _ => 0
  | _ => 1

/-- A word that passes the value. -/
def Piece.Passed (texts : UInt32 → Option CString) (word : UInt32) : Piece → Prop
  | .string text => texts word = text
  | .signed _ _ value => word.toInt32 = value
  | .unsigned value => word = value
  | .hexadecimal value => word = value
  | .character value => word = value
  | _ => True

/-- The text of a number. The least one has none: it cannot be negated. -/
def signedText (value : Int32) : Option Bytes :=
  if value = Int32.minValue then none
  else some ((if value < 0 then [minus] else []) ++ glyphs (numeral 10 value.toInt.natAbs))

def Piece.text : Piece → Option Bytes
  | .char c _ => some [c]
  | .percentSign => some [percent]
  | .unknown c _ => some [percent,c]
  | .string text => some ((text.map CString.bytes).getD (literal "(null)"))
  | .signed _ _ value => signedText value
  | .unsigned value => some (glyphs (numeral 10 value.toNat))
  | .hexadecimal value => some (glyphs (numeral 16 value.toNat))
  | .character value => some [value.toUInt8]

def spelled (pieces : List Piece) : Bytes := pieces.flatMap Piece.spelled

def Passed (texts : UInt32 → Option CString) (slots : Nat → UInt32) : Nat → List Piece → Prop
  | _, [] => True
  | k, piece :: pieces => piece.Passed texts (slots k) ∧ Passed texts slots (k + piece.words) pieces

/-- The text with the values in their places. -/
def filled : List Piece → Option Bytes
  | [] => some []
  | piece :: pieces => do return (← piece.text) ++ (← filled pieces)

/-! The calls put the texts. -/

theorem printChars_text (chars : Bytes) (s : Console.State) :
    printChars (chars.map .printChar) s = putAll chars s := by
  induction chars generalizing s with
  | nil => rfl
  | cons c chars ih => exact congrArg _ (funext ih)

theorem signed_text (value : Int32) :
    printSigned value = (signedText value).map fun chars => chars.map .printChar := by
  unfold signedText
  split
  next least =>
    subst least
    exact printSigned_least
  next other =>
    have lower := value.le_toInt
    have upper := value.toInt_lt
    have apart : value.toInt ≠ -2^31 := fun same => other (Int32.toInt_inj.mp same)
    rw [Option.map_some,printSigned]
    by_cases negative : value < 0
    · have below := Int32.lt_iff_toInt_lt.mp negative
      rw [Int32.toInt_zero] at below
      obtain ⟨magnitude,negated,same⟩ := int_inside (-value.toInt) (by omega) (by omega)
      have word := toUInt32_natural (v := magnitude) (by omega)
      have size : magnitude.toUInt32.toNat = value.toInt.natAbs := by omega
      rw [if_pos negative,if_pos negative,negated,Option.bind_eq_bind,Option.bind_some,
        printUnsigned_glyphs (by decide) (by decide),size]
      rfl
    · have above : ¬value.toInt < 0 := fun below => negative (Int32.lt_iff_toInt_lt.mpr below)
      have word := toUInt32_natural (v := value) (by omega)
      have size : value.toUInt32.toNat = value.toInt.natAbs := by omega
      rw [if_neg negative,if_neg negative,printUnsigned_glyphs (by decide) (by decide),size]
      rfl

theorem vgaWrite_text (address : Option CString) (s : Console.State) :
    vgaWrite (address.map CString.pointer) s = putAll ((address.map CString.bytes).getD (literal "(null)")) s := by
  cases address with
  | none => exact writeFrom_text [] (by decide) s
  | some address => exact writeFrom_text address.after address.noNul s

theorem runEvents_append (texts : UInt32 → Option CString) (first second : List Event) (s : Console.State) :
    runEvents texts (first ++ second) s = (runEvents texts first s).bind (runEvents texts second) := by
  induction first generalizing s with
  | nil => rfl
  | cons event first ih =>
    cases event with
    | read => exact ih s
    | argument => exact ih s
    | call call =>
      rw [List.cons_append,runEvents,runEvents]
      cases call.run texts s with
      | none => rfl
      | some s' => exact ih s'

/-! One piece. -/

section
variable (texts : UInt32 → Option CString) (slots : Nat → UInt32)

theorem run_call (call : Call) (s : Console.State) : runEvents texts [.call call] s = call.run texts s := by
  rw [runEvents]
  exact bind_pure _

/-- What printf does at a piece of its format, and what is seen of it. -/
structure Prints (i k : Nat) (piece : Piece) (events : List Event) : Prop where
  run : ∀ format, printfFrom slots i k (piece.spelled ++ format) =
    events ++ printfFrom slots (i + piece.spelled.length) (k + piece.words) format
  seen : ∀ s, runEvents texts events s = piece.text.bind fun chars => putAll chars s

theorem prints_conversion {i k : Nat} {piece : Piece} {d : UInt8} (spelled : piece.spelled = [percent,d])
    (next : (convert slots k d).2 = k + piece.words)
    (seen : ∀ s, runEvents texts (convert slots k d).1 s = piece.text.bind fun chars => putAll chars s) :
    Prints texts slots i k piece (.read i :: .read (i+1) :: (convert slots k d).1) := by
  refine ⟨fun format => ?_,seen⟩
  rw [spelled,List.cons_append,List.cons_append,List.nil_append,printfFrom_percent,next]
  rfl

theorem convert_unknown {c : UInt8} (other : takes c = false) (notPercent : c ≠ percent) (k : Nat) :
    convert slots k c = ([.call (.printChar percent),.call (.printChar c)],k) := by
  have others := Bool.eq_false_iff.mp other
  rw [ne_eq,takes_iff] at others
  push Not at others
  obtain ⟨notS,notD,notI,notU,notX,notC⟩ := others
  have signed : ¬(c = 100 ∨ c = 105) := not_or.mpr ⟨notD,notI⟩
  rw [convert,if_neg notS,if_neg signed,if_neg notU,if_neg notX,if_neg notC,if_neg notPercent]

theorem putAll_one (c : UInt8) (s : Console.State) : putAll [c] s = vgaPutChar c s := bind_pure _

theorem Piece.prints (piece : Piece) (i k : Nat) (passed : piece.Passed texts (slots k)) :
    ∃ events, Prints texts slots i k piece events := by
  cases piece with
  | char c plain =>
    refine ⟨[.read i,.call (.printChar c)],printfFrom_plain slots plain.1 plain.2 i k,fun s => ?_⟩
    exact (run_call texts _ s).trans (putAll_one c s).symm
  | percentSign =>
    refine ⟨_,prints_conversion texts slots rfl rfl fun s => ?_⟩
    exact (run_call texts _ s).trans (putAll_one percent s).symm
  | unknown c other =>
    have converted := convert_unknown slots other.1 other.2 k
    refine ⟨_,prints_conversion texts slots rfl (by rw [converted]; rfl) fun s => ?_⟩
    rw [converted]
    rfl
  | string address =>
    refine ⟨_,prints_conversion texts slots rfl rfl fun s => (run_call texts (.printString (slots k)) s).trans ?_⟩
    have found : texts (slots k) = address := passed
    rw [Call.run,found,vgaWrite_text]
    rfl
  | signed letter either value =>
    have converted : convert slots k letter =
        ([.argument letter k,.call (.printSigned (slots k).toInt32)],k+1) := by
      rcases either with rfl | rfl <;> rfl
    have word : (slots k).toInt32 = value := passed
    refine ⟨_,prints_conversion texts slots rfl (by rw [converted]; rfl) fun s => ?_⟩
    rw [converted]
    refine (run_call texts (.printSigned (slots k).toInt32) s).trans ?_
    rw [Call.run,word,signed_text]
    cases shown : signedText value with
    | none => simp [Piece.text,shown]
    | some chars => simp [Piece.text,shown,printChars_text]
  | unsigned value =>
    refine ⟨_,prints_conversion texts slots rfl rfl fun s => (run_call texts (.printUnsigned (slots k) 10) s).trans ?_⟩
    have word : slots k = value := passed
    rw [Call.run,word,printUnsigned_glyphs (by decide) (by decide)]
    exact printChars_text _ s
  | hexadecimal value =>
    refine ⟨_,prints_conversion texts slots rfl rfl fun s => (run_call texts (.printUnsigned (slots k) 16) s).trans ?_⟩
    have word : slots k = value := passed
    rw [Call.run,word,printUnsigned_glyphs (by decide) (by decide)]
    exact printChars_text _ s
  | character value =>
    refine ⟨_,prints_conversion texts slots rfl rfl fun s => (run_call texts (.printChar (slots k).toUInt8) s).trans ?_⟩
    have word : slots k = value := passed
    rw [word]
    exact (putAll_one value.toUInt8 s).symm

/-! A whole format. -/

theorem prints_pieces {pieces : List Piece} (i : Nat) {k : Nat} (passed : Passed texts slots k pieces)
    (after : Bytes) (s : Console.State) :
    runEvents texts (printfFrom slots i k (spelled pieces ++ 0 :: after)) s =
      (filled pieces).bind fun chars => putAll chars s := by
  induction pieces generalizing i k s with
  | nil =>
    rw [spelled,List.flatMap_nil,List.nil_append,printfFrom.eq_def]
    rfl
  | cons piece pieces ih =>
    obtain ⟨first,rest⟩ := passed
    obtain ⟨events,prints⟩ := piece.prints texts slots i k first
    have front : spelled (piece::pieces) = piece.spelled ++ spelled pieces := List.flatMap_cons
    rw [front,List.append_assoc,prints.run,runEvents_append,prints.seen,filled]
    cases piece.text with
    | none => rfl
    | some chars =>
      rw [Option.bind_some,Option.bind_eq_bind,Option.bind_some,funext (ih (i + piece.spelled.length) rest)]
      cases filled pieces with
      | none => exact Option.bind_fun_none _
      | some more => exact (putAll_append chars more s).symm

theorem piece_spelled (d : UInt8) (word : UInt32) :
    ∃ piece : Piece, piece.spelled = [percent,d] ∧ piece.Passed texts word := by
  cases argument : takes d with
  | true =>
    rcases (takes_iff d).mp argument with rfl | rfl | rfl | rfl | rfl | rfl
    · exact ⟨.string (texts word),rfl,rfl⟩
    · exact ⟨.signed 100 (.inl rfl) word.toInt32,rfl,rfl⟩
    · exact ⟨.signed 105 (.inr rfl) word.toInt32,rfl,rfl⟩
    · exact ⟨.unsigned word,rfl,rfl⟩
    · exact ⟨.hexadecimal word,rfl,rfl⟩
    · exact ⟨.character word,rfl,rfl⟩
  | false =>
    by_cases sign : d = percent
    · exact ⟨.percentSign,by rw [sign]; rfl,trivial⟩
    · exact ⟨.unknown d ⟨argument,sign⟩,rfl,trivial⟩

theorem pieces_spelled {front : Bytes} (whole : Whole announced front) (noNul : 0 ∉ front) (k : Nat) :
    ∃ pieces, spelled pieces = front ∧ Passed texts slots k pieces := by
  induction whole generalizing k with
  | nil => exact ⟨[],rfl,trivial⟩
  | piece first tail rest counted after ih =>
    rw [List.mem_append,not_or] at noNul
    have nonzero : first ≠ 0 := fun zero => noNul.1 (zero ▸ List.mem_cons_self)
    have begin : ∃ piece : Piece, piece.spelled = first :: tail ∧ piece.Passed texts (slots k) := by
      by_cases begins : first = percent
      · subst begins
        obtain ⟨d,rfl⟩ := List.length_eq_one_iff.mp counted
        exact piece_spelled texts d (slots k)
      · rw [announced,if_neg begins,List.length_eq_zero_iff] at counted
        subst counted
        exact ⟨.char first ⟨nonzero,begins⟩,rfl,trivial⟩
    obtain ⟨piece,same,passed⟩ := begin
    obtain ⟨pieces,others,more⟩ := ih noNul.2 (k + piece.words)
    exact ⟨piece::pieces,(List.flatMap_cons).trans (congr (congrArg _ same) others),passed,more⟩

end

/-- What puts shows is what printf shows of the same string and the end of a line. -/
theorem puts_printf (texts : UInt32 → Option CString) (address : UInt32) (s : Console.State) :
    puts ((texts address).map CString.pointer) s =
      runEvents texts (printf (some (literal "%s\n" ++ [0])) fun _ => address) s := by
  have line : (newline : UInt8) ≠ 0 ∧ newline ≠ percent := by decide
  have passed : Passed texts (fun _ => address) 0 [.string (texts address),.char newline line] :=
    ⟨rfl,trivial,trivial⟩
  refine Eq.trans ?_ (prints_pieces texts (fun _ => address) 0 passed [] s).symm
  rw [puts,vgaWrite_text,filled,filled,filled]
  simp only [Piece.text,Option.bind_eq_bind,Option.bind_some,Option.pure_def,List.append_nil,putAll_append]
  exact congrArg _ (funext fun s' => (putAll_one newline s').symm)

/-- Every format whose last character is no lone '%' is a text with places for values, and what printf
does with it is to put the text with the passed values in their places. -/
theorem printf_prints (format : CString) (whole : Whole announced format.bytes)
    (texts : UInt32 → Option CString) (slots : Nat → UInt32) :
    (∃ pieces, spelled pieces = format.bytes ∧ Passed texts slots 0 pieces) ∧
      ∀ pieces, spelled pieces = format.bytes → Passed texts slots 0 pieces → ∀ s,
        runEvents texts (printf (some format.pointer) slots) s = (filled pieces).bind fun chars => putAll chars s := by
  refine ⟨pieces_spelled texts slots whole format.noNul 0,fun pieces same passed s => ?_⟩
  rw [printf,CString.pointer,← same]
  exact prints_pieces texts slots 0 passed format.after s

def percentage : CString := ⟨literal "%d%%",[],by decide,by decide⟩

theorem printf_prints_percentage : Whole announced percentage.bytes ∧ ∀ s,
    runEvents (fun _ => none) (printf (some percentage.pointer) fun _ => 0xFFFFFFD6) s = putAll (literal "-42%") s := by
  have whole : Whole announced percentage.bytes := .piece percent [100] _ rfl (.piece percent [percent] [] rfl .nil)
  obtain ⟨_,prints⟩ := printf_prints percentage whole (fun _ => none) fun _ => 0xFFFFFFD6
  have value : (0xFFFFFFD6 : UInt32).toInt32 = -42 := by decide
  exact ⟨whole,prints [.signed 100 (.inl rfl) (-42),.percentSign] rfl ⟨value,trivial,trivial⟩⟩

end Xbtos.Libc
