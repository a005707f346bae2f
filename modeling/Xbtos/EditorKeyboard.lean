import Xbtos.EditorRefinement

/-! What the handler of the keyboard makes of a scancode: the key it stands for under the
modifiers, and the step of the draft that this key is. -/
namespace Xbtos.Editor
open Foundation.Buffer Strings Semantics.LineEditor
open Shell (Call)
open Console (newline backspace)

def keyOf (c : UInt8) : Key UInt8 :=
  if c = newline then .enter else if c = backspace then .erase else if c ≠ 0 then .char c else .nothing

/-- The character of a scancode, or zero. -/
def charOf (shift : Bool) (scancode : UInt8) : UInt8 :=
  (if shift then scancodeToAsciiShift else scancodeToAscii).getD scancode.toNat 0

/-- The key of a scancode under the modifiers shift and extended, and these afterwards. -/
def decode (scancode : UInt8) (shift extended : Bool) : Key UInt8 × Bool × Bool :=
  if scancode = 0xE0 then (.nothing,shift,true)
  else if extended then
    (if scancode = 0x48 then .older else if scancode = 0x50 then .newer else .nothing,shift,false)
  else if scancode = 0x2A ∨ scancode = 0x36 then (.nothing,true,false)
  else if scancode = 0xAA ∨ scancode = 0xB6 then (.nothing,false,false)
  else (keyOf (charOf shift scancode),shift,false)

/-- What a scancode can be under the modifiers, with the conditions for it in their order. -/
inductive Decoded (scancode : UInt8) (shift : Bool) : Bool → Key UInt8 → Bool → Bool → Prop
  | first {extended} (code : scancode = 0xE0) : Decoded scancode shift extended .nothing shift true
  | behind (other : scancode ≠ 0xE0) : Decoded scancode shift true
      (if scancode = 0x48 then .older else if scancode = 0x50 then .newer else .nothing) shift false
  | press (other : scancode ≠ 0xE0) (code : scancode = 0x2A ∨ scancode = 0x36) :
      Decoded scancode shift false .nothing true false
  | release (other : scancode ≠ 0xE0) (notPress : ¬(scancode = 0x2A ∨ scancode = 0x36))
      (code : scancode = 0xAA ∨ scancode = 0xB6) : Decoded scancode shift false .nothing false false
  | char (other : scancode ≠ 0xE0) (notPress : ¬(scancode = 0x2A ∨ scancode = 0x36))
      (notRelease : ¬(scancode = 0xAA ∨ scancode = 0xB6)) :
      Decoded scancode shift false (keyOf (charOf shift scancode)) shift false

theorem decode_decoded {scancode : UInt8} {shift extended : Bool} {key : Key UInt8}
    {shift' extended' : Bool} (decoded : decode scancode shift extended = (key,shift',extended')) :
    Decoded scancode shift extended key shift' extended' := by
  unfold decode at decoded
  by_cases code : scancode = 0xE0
  · rw [if_pos code] at decoded
    cases decoded
    exact .first code
  rw [if_neg code] at decoded
  cases extended with
  | true =>
    rw [if_pos rfl] at decoded
    cases decoded
    exact .behind code
  | false =>
    rw [if_neg Bool.false_ne_true] at decoded
    split_ifs at decoded with press release <;> cases decoded
    · exact .press code press
    · exact .release code press release
    · exact .char code press release

/-- The modifier that is set afterwards says only which scancode this was. -/
theorem Decoded.extended {scancode : UInt8} {shift extended : Bool} {key : Key UInt8}
    {shift' extended' : Bool} (decoded : Decoded scancode shift extended key shift' extended') :
    extended' = decide (scancode = 0xE0) := by
  cases decoded with
  | first code => exact (decide_eq_true code).symm
  | behind other | press other | release other | char other => exact (decide_eq_false other).symm

instance (c : UInt8) : Decidable (Plain c) := inferInstanceAs (Decidable (_ ∧ _))

theorem charOf_cases (shift : Bool) (scancode : UInt8) :
    charOf shift scancode = newline ∨ charOf shift scancode = backspace ∨
      charOf shift scancode = 0 ∨ Plain (charOf shift scancode) := by
  have all : (if shift then scancodeToAsciiShift else scancodeToAscii).all fun c =>
      c = newline ∨ c = backspace ∨ c = 0 ∨ Plain c := by
    cases shift <;> decide
  unfold charOf
  generalize (if shift then scancodeToAsciiShift else scancodeToAscii) = table at all
  rw [List.getD_eq_getElem?_getD]
  cases found : table[scancode.toNat]? with
  | none => exact .inr (.inr (.inl rfl))
  | some c => exact of_decide_eq_true (List.all_eq_true.mp all c (List.mem_of_getElem? found))

theorem Plain.keyOf {c : UInt8} (plain : Plain c) : keyOf c = .char c := by
  obtain ⟨nonzero,notLine,notBack,_⟩ := plain
  rw [Editor.keyOf,if_neg notLine,if_neg notBack,if_pos nonzero]

theorem tables_length (shift : Bool) :
    (if shift then scancodeToAsciiShift else scancodeToAscii).length = scancodeToAscii.length := by
  cases shift <;> decide

theorem charOf_beyond {scancode : UInt8} (shift : Bool)
    (beyond : ¬scancode.toNat < scancodeToAscii.length) : charOf shift scancode = 0 := by
  rw [charOf,List.getD_eq_getElem?_getD,List.getElem?_eq_none,Option.getD_none]
  rw [tables_length]
  exact Nat.not_lt.mp beyond

/-- The scancodes of the keys that the tables have an action for. -/
theorem charOf_code (shift : Bool) (scancode : UInt8) :
    (charOf shift scancode = newline ↔ scancode = 0x1C) ∧
      (charOf shift scancode = backspace ↔ scancode = 0x0E) := by
  have code : ∀ other : UInt8, scancode = other ↔ scancode.toNat = other.toNat :=
    fun _ => UInt8.toNat_inj.symm
  rw [code,code]
  by_cases inside : scancode.toNat < 0x3B
  · have all : ∀ i < 0x3B,
        ((if shift then scancodeToAsciiShift else scancodeToAscii).getD i 0 = newline ↔
          i = 0x1C) ∧
        ((if shift then scancodeToAsciiShift else scancodeToAscii).getD i 0 = backspace ↔
          i = 0x0E) := by
      cases shift <;> decide
    exact all _ inside
  · rw [charOf_beyond shift inside]
    have line : (0x1C : UInt8).toNat = 28 := rfl
    have back : (0x0E : UInt8).toNat = 14 := rfl
    exact ⟨iff_of_false (by decide) (by omega),iff_of_false (by decide) (by omega)⟩

theorem decode_single {scancode : UInt8} (shift : Bool) (notPrefix : scancode ≠ 0xE0) :
    (decode scancode shift false).2.2 = false :=
  (decode_decoded (Prod.eta (decode scancode shift false)).symm).extended.trans
    (decide_eq_false notPrefix)

theorem handleScancode_char {scancode : UInt8} {k : Kernel} (notPrefix : scancode ≠ 0xE0)
    (single : k.editor.extendedKey = false) (press : ¬(scancode = 0x2A ∨ scancode = 0x36))
    (release : ¬(scancode = 0xAA ∨ scancode = 0xB6)) :
    handleScancode scancode k = handleChar (charOf k.editor.shiftPressed scancode) k := by
  rw [handleScancode,if_neg notPrefix,single,if_neg Bool.false_ne_true,if_neg press,if_neg release]
  by_cases inside : scancode.toNat < scancodeToAscii.length
  · have bound := inside
    rw [← tables_length k.editor.shiftPressed] at bound
    have found : (if k.editor.shiftPressed then scancodeToAsciiShift else scancodeToAscii)[scancode.toNat]? =
        some (charOf k.editor.shiftPressed scancode) := by
      rw [charOf,List.getD_eq_getElem?_getD,List.getElem?_eq_getElem bound,Option.getD_some]
    simp only [inside,if_true,found,Option.bind_eq_bind,Option.bind_some]
  · rw [if_neg inside,charOf_beyond _ inside]
    simp only [handleChar]
    rfl

/-- What a scancode does with the draft: its key enters the line, or is an edit of it. -/
structure Handled (scancode : UInt8) (k : Kernel) (d : Draft UInt8) (key : Key UInt8)
    (shift extended : Bool) : Prop where
  enter : key = .enter → handleScancode scancode k = handleEnter k ∧
    shift = k.editor.shiftPressed ∧ extended = k.editor.extendedKey
  edit : key ≠ .enter → ∃ e', handleScancode scancode k =
      some ({ k with editor := e' },(typedBy key d).map .printChar) ∧
    Holds e' (d.press lineSize historySize key) ∧ e'.shiftPressed = shift ∧ e'.extendedKey = extended

theorem Edited.handled {scancode : UInt8} {k : Kernel} {d : Draft UInt8} {key : Key UInt8}
    (notEnter : key ≠ .enter) (edited : Edited k (d.press lineSize historySize key) (typedBy key d)
      (handleScancode scancode k)) :
    Handled scancode k d key k.editor.shiftPressed k.editor.extendedKey :=
  ⟨fun enter => absurd enter notEnter,fun _ => edited.step⟩

theorem Holds.modifiers {e : State} {d : Draft UInt8} (holds : Holds e d) (shift extended : Bool) :
    Holds { e with shiftPressed := shift, extendedKey := extended } d :=
  ⟨holds.kept,holds.line,holds.index,holds.count,holds.rows,holds.recalled⟩

theorem Holds.handle_extended {k : Kernel} {d : Draft UInt8} (holds : Holds k.editor d)
    {scancode : UInt8} (notPrefix : scancode ≠ 0xE0) (behind : k.editor.extendedKey = true) :
    Handled scancode k d
      (if scancode = 0x48 then .older else if scancode = 0x50 then .newer else .nothing)
      k.editor.shiftPressed false := by
  constructor
  · split_ifs <;> simp
  · intro _
    rw [handleScancode,if_neg notPrefix,if_pos behind]
    split_ifs with up down
    · obtain ⟨e',returned,held,shift,_⟩ := holds.older.step
      rw [returned]
      exact ⟨_,rfl,held.modifiers e'.shiftPressed false,shift,rfl⟩
    · obtain ⟨e',returned,held,shift,_⟩ := holds.newer.step
      rw [returned]
      exact ⟨_,rfl,held.modifiers e'.shiftPressed false,shift,rfl⟩
    · exact ⟨_,rfl,holds.modifiers k.editor.shiftPressed false,rfl,rfl⟩

theorem Holds.handleScancode {k : Kernel} {d : Draft UInt8} (holds : Holds k.editor d)
    (scancode : UInt8) {key : Key UInt8} {shift extended : Bool}
    (decoded : decode scancode k.editor.shiftPressed k.editor.extendedKey = (key,shift,extended)) :
    Handled scancode k d key shift extended := by
  have cases_of := decode_decoded decoded
  generalize before : k.editor.extendedKey = extendedKey at cases_of
  cases cases_of with
  | first code =>
    refine ⟨nofun,fun _ => ⟨{ k.editor with extendedKey := true },?_,
      holds.modifiers k.editor.shiftPressed true,rfl,rfl⟩⟩
    rw [Editor.handleScancode,if_pos code]
    rfl
  | behind other => exact holds.handle_extended other before
  | press other code =>
    have single : ¬k.editor.extendedKey = true := Bool.not_eq_true _ ▸ before
    refine ⟨nofun,fun _ => ⟨{ k.editor with shiftPressed := true },?_,
      holds.modifiers true k.editor.extendedKey,rfl,before⟩⟩
    rw [Editor.handleScancode,if_neg other,if_neg single,if_pos code]
    rfl
  | release other notPress code =>
    have single : ¬k.editor.extendedKey = true := Bool.not_eq_true _ ▸ before
    refine ⟨nofun,fun _ => ⟨{ k.editor with shiftPressed := false },?_,
      holds.modifiers false k.editor.extendedKey,rfl,before⟩⟩
    rw [Editor.handleScancode,if_neg other,if_neg single,if_neg notPress,if_pos code]
    rfl
  | char other notPress notRelease =>
    have char := handleScancode_char other before notPress notRelease
    rw [← before]
    rcases charOf_cases k.editor.shiftPressed scancode with line | back | zero | plain
    · rw [line] at char ⊢
      exact ⟨fun _ => ⟨char,rfl,rfl⟩,fun edit => absurd rfl edit⟩
    · rw [back] at char ⊢
      exact Edited.handled (show Key.erase ≠ .enter by simp) (by rw [char]; exact holds.erase)
    · rw [zero] at char ⊢
      exact Edited.handled (show Key.nothing ≠ .enter by simp) ⟨k.editor,char,holds,rfl,rfl⟩
    · rw [plain.keyOf]
      exact Edited.handled (by simp) (by rw [char]; exact holds.char plain)

end Xbtos.Editor
