import Xbtos.ConsoleStep

/-! What the console does with a text: it puts the characters of the text one by one. -/
namespace Xbtos.Console
open Foundation.Buffer Strings

/-- What vga_write_utf8 puts, with some bytes still to pass over. -/
def utf8Chars : Nat → Bytes → Option Bytes
  | _, [] => none
  | skip+1, _ :: text => utf8Chars skip text
  | 0, byte :: text =>
    if byte = 0 then some []
    else if byte < 0x80 then do return byte :: (← utf8Chars 0 text)
    else do return questionMark :: (← utf8Chars (utf8Skip byte) text)

theorem writeFrom_text {text : Bytes} (rest : Bytes) (noNul : 0 ∉ text) (s : State) :
    writeFrom (text ++ 0 :: rest) s = putAll text s := by
  induction text generalizing s with
  | nil => rfl
  | cons c text ih =>
    rw [List.mem_cons,not_or] at noNul
    rw [List.cons_append,writeFrom,if_neg (Ne.symm noNul.1),putAll]
    exact congrArg _ (funext fun one => ih noNul.2 one)

theorem writeUtf8From_chars (skip : Nat) (text : Bytes) (s : State) :
    writeUtf8From skip text s = (utf8Chars skip text).bind fun chars => putAll chars s := by
  induction text generalizing skip s with
  | nil =>
    cases skip <;> rfl
  | cons byte text ih =>
    cases skip with
    | succ skip => exact ih skip s
    | zero =>
      rw [writeUtf8From,utf8Chars]
      split_ifs
      · rfl
      · cases chars : utf8Chars 0 text with
        | none =>
          cases placed : vgaPutChar byte s <;> simp [ih,chars]
        | some chars' => simp [ih,chars,putAll]
      · cases chars : utf8Chars (utf8Skip byte) text with
        | none =>
          cases placed : vgaPutChar questionMark s <;> simp [ih,chars]
        | some chars' => simp [ih,chars,putAll]

theorem utf8Chars_ascii {text : Bytes} (rest : Bytes) (ascii : ∀ c ∈ text, c ≠ 0 ∧ c < 0x80) :
    utf8Chars 0 (text ++ 0 :: rest) = some text := by
  induction text with
  | nil => rfl
  | cons c text ih =>
    obtain ⟨nonzero,low⟩ := ascii c List.mem_cons_self
    rw [List.cons_append,utf8Chars,if_neg nonzero,if_pos low,
      ih fun d member => ascii d (List.mem_cons_of_mem c member)]
    rfl

theorem putAll_onScreen {s : State} (onScreen : OnScreen s) (text : List UInt8) :
    ∃ s', putAll text s = some s' ∧ OnScreen s' ∧ s'.color = s.color := by
  induction text generalizing s with
  | nil => exact ⟨s,rfl,onScreen,rfl⟩
  | cons c text ih =>
    obtain ⟨one,placed,put⟩ := vgaPutChar_put onScreen c
    obtain ⟨s',rest,last,color⟩ := ih put.onScreen
    exact ⟨s',by simp only [putAll,placed,Option.bind_eq_bind,Option.bind_some,rest],last,
      color.trans put.color⟩

theorem putAll_append (first second : List UInt8) (s : State) :
    putAll (first ++ second) s = (putAll first s).bind (putAll second) := by
  induction first generalizing s with
  | nil => rfl
  | cons c first ih =>
    simp only [List.cons_append,putAll]
    cases placed : vgaPutChar c s with
    | none => rfl
    | some one => exact ih one

end Xbtos.Console
