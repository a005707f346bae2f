import Xbtos.MachineRun

/-! What is typed is what is run. A reference editor that only keeps the line submits the same
lines, and the history holds the last ten of them. -/
namespace Xbtos.Machine
open Foundation.Buffer Strings Semantics.LineEditor
open Shell (EntryPoint Cpuid)
open Editor (Holds Plain decode decode_decoded keyOf charOf lineSize historySize)
open Console (newline backspace)

/-- The reference editor: the line as a list, and the lines submitted. -/
structure Typist where
  line : Bytes
  shift : Bool
  extended : Bool
  submitted : List Bytes

def Typist.start : Typist := ⟨[],false,false,[]⟩

/-- A make code below 0x3B, by its character. -/
def Typist.char (c : UInt8) (t : Typist) : Typist :=
  if c = newline then
    if t.line = [] then t else { t with line := [], submitted := t.submitted ++ [t.line] }
  else if c = backspace then { t with line := t.line.dropLast }
  else if c = 0 then t
  else if t.line.length < 255 then { t with line := t.line ++ [c] }
  else t

def Typist.press (t : Typist) (scancode : UInt8) : Typist :=
  if scancode = 0xE0 then { t with extended := true }
  else if t.extended then { t with extended := false }
  else if scancode = 0x2A ∨ scancode = 0x36 then { t with shift := true }
  else if scancode = 0xAA ∨ scancode = 0xB6 then { t with shift := false }
  else if scancode.toNat < 0x3B then t.char (charOf t.shift scancode)
  else t

/-- Whether an arrow key is pressed, where extended says that a prefix came before. -/
def arrows : Bool → List UInt8 → Bool
  | _, [] => false
  | extended, scancode :: scancodes =>
    if scancode = 0xE0 then arrows true scancodes
    else (extended && (scancode = 0x48 || scancode = 0x50)) || arrows false scancodes

/-- The rows of the history in use. -/
def historyLines (e : Editor.State) : List Bytes :=
  (e.history.toList.take e.historyCount.toNat).map fun entry => upTo 0 entry.toList

theorem historyLines_past {e : Editor.State} {d : Draft UInt8} (holds : Holds e d) :
    historyLines e = d.past := by
  have depth := holds.kept.depth
  have count : e.historyCount.toNat = d.past.length := by rw [holds.count,Int.toNat_natCast]
  rw [historyLines,count]
  apply List.ext_getElem
  · rw [List.length_map,List.length_take,e.history.length_toList]
    exact Nat.min_eq_left depth
  · intro i _ inside
    obtain ⟨entry,there,_,text⟩ := row_text holds inside
    rw [fetch_nat,← Vector.getElem?_toList] at there
    obtain ⟨bound,same⟩ := List.getElem?_eq_some_iff.mp there
    rw [List.getElem_map,List.getElem_take,same,text]

/-! The reference editor keeps the line of the draft. -/

theorem char_key (c : UInt8) (d : Draft UInt8) (shift extended : Bool) (before : List Bytes) :
    Typist.char c ⟨d.line,shift,extended,before⟩ =
      ⟨(d.press lineSize historySize (keyOf c)).line,shift,extended,
        before ++ (d.entered (keyOf c)).toList⟩ := by
  have apart : ¬backspace = newline := by decide
  have size : lineSize = 255 := rfl
  by_cases line : c = newline
  · subst line
    have key : keyOf newline = .enter := rfl
    rw [key]
    by_cases empty : d.line = [] <;>
      simp [Typist.char,Draft.press,Draft.enter,Draft.entered,empty]
  by_cases back : c = backspace
  · subst back
    have key : keyOf backspace = .erase := rfl
    rw [key]
    by_cases empty : d.line = [] <;>
      simp [Typist.char,Draft.press,Draft.erase,Draft.entered,apart,empty]
  by_cases zero : c = 0
  · subst zero
    have key : keyOf 0 = .nothing := rfl
    rw [key]
    simp [Typist.char,Draft.press,Draft.entered,line,back]
  · have key : keyOf c = .char c := by simp [keyOf,line,back,zero]
    by_cases room : d.line.length < 255 <;>
      simp [key,Typist.char,Draft.press,Draft.type,Draft.entered,line,back,zero,size,room]

theorem press_key (scancode : UInt8) (d : Draft UInt8) {shift extended : Bool}
    {before : List Bytes} {key : Key UInt8} {shift' extended' : Bool}
    (decoded : decode scancode shift extended = (key,shift',extended'))
    (noArrow : ¬(extended = true ∧ (scancode = 0x48 ∨ scancode = 0x50)) ∨ scancode = 0xE0) :
    Typist.press ⟨d.line,shift,extended,before⟩ scancode =
      ⟨(d.press lineSize historySize key).line,shift',extended',
        before ++ (d.entered key).toList⟩ := by
  have idle : ∀ shift' extended', (⟨d.line,shift',extended',before⟩ : Typist) =
      ⟨(d.press lineSize historySize .nothing).line,shift',extended',
        before ++ (d.entered .nothing).toList⟩ := by
    simp [Draft.press,Draft.entered]
  unfold Typist.press
  cases decode_decoded decoded with
  | first code =>
    rw [if_pos code]
    exact idle shift true
  | behind other =>
    have neither := noArrow.resolve_right other
    rw [if_neg other,if_pos rfl,if_neg fun up => neither ⟨rfl,.inl up⟩,
      if_neg fun down => neither ⟨rfl,.inr down⟩]
    exact idle shift false
  | press other code =>
    rw [if_neg other,if_neg Bool.false_ne_true,if_pos code]
    exact idle true false
  | release other notPress code =>
    rw [if_neg other,if_neg Bool.false_ne_true,if_neg notPress,if_pos code]
    exact idle false false
  | char other notPress notRelease =>
    rw [if_neg other,if_neg Bool.false_ne_true,if_neg notPress,if_neg notRelease]
    by_cases inside : scancode.toNat < 0x3B
    · rw [if_pos inside]
      exact char_key _ d shift false before
    · rw [if_neg inside,Editor.charOf_beyond shift inside]
      exact idle shift false

theorem arrows_cons {scancode : UInt8} {scancodes : List UInt8} {key : Key UInt8}
    {shift extended shift' extended' : Bool}
    (decoded : decode scancode shift extended = (key,shift',extended'))
    (noArrow : arrows extended (scancode :: scancodes) = false) :
    (¬(extended = true ∧ (scancode = 0x48 ∨ scancode = 0x50)) ∨ scancode = 0xE0) ∧
      arrows extended' scancodes = false := by
  rw [(decode_decoded decoded).extended]
  unfold arrows at noArrow
  by_cases first : scancode = 0xE0
  · rw [if_pos first] at noArrow
    exact ⟨.inr first,by simpa [first] using noArrow⟩
  · rw [if_neg first,Bool.or_eq_false_iff] at noArrow
    refine ⟨.inl fun both => ?_,by simpa [first] using noArrow.2⟩
    obtain ⟨ext,up | down⟩ := both
    · simp [ext,up] at noArrow
    · simp [ext,down] at noArrow

theorem typing_typist (scancodes : List UInt8) (d : Draft UInt8) (shift extended : Bool)
    (before : List Bytes) (noArrow : arrows extended scancodes = false) :
    (scancodes.foldl Typist.press ⟨d.line,shift,extended,before⟩).submitted =
      before ++ (typing lineSize historySize (keys scancodes shift extended) d).2 := by
  induction scancodes generalizing d shift extended before with
  | nil => simp [keys,typing]
  | cons scancode scancodes ih =>
    obtain ⟨key,shift',extended',decoded⟩ : ∃ key shift' extended',
        decode scancode shift extended = (key,shift',extended') := ⟨_,_,_,rfl⟩
    obtain ⟨now,later⟩ := arrows_cons decoded noArrow
    rw [List.foldl_cons,press_key scancode d decoded now,ih _ _ _ _ later]
    simp only [keys,decoded,typing,List.append_assoc]

/-- Without arrow keys the lines run are those of the reference editor; with them or
without, the history holds the last ten lines run. -/
theorem typed_lines_run (cpuid : Cpuid) (files : Vfs.FileSystem) (apps : App.AppManager EntryPoint)
    (console : Console.State) : ∃ m₀, boot cpuid files apps console = some m₀ ∧
    ∀ scancodes, ∃ m calls, pressAll scancodes m₀ = some (m,calls) ∧
      (arrows false scancodes = false → calls.filterMap executed =
        (scancodes.foldl Typist.press Typist.start).submitted) ∧
      historyLines m.kernel.editor = (calls.filterMap executed).rtake 10 := by
  obtain ⟨m₀,booted,sound,fresh⟩ := boot_sound cpuid files apps console
  refine ⟨m₀,booted,fun scancodes => ?_⟩
  obtain ⟨m,calls,ran,after,lines⟩ := sound.pressAll scancodes
  rw [fresh] at after lines
  refine ⟨m,calls,ran,fun noArrow => ?_,?_⟩
  · rw [lines]
    exact (typing_typist scancodes .start false false [] noArrow).symm
  · rw [historyLines_past after.editor,lines]
    have before : (Draft.start : Draft UInt8).past = ([] : List Bytes).rtake historySize := rfl
    rw [typing_past _ .start before]
    rfl

end Xbtos.Machine
