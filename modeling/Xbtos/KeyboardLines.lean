import Xbtos.SystemRefinement

/-! Lines that are typed at the keyboard. From every state that the kernel can get into there is
a way back to an empty line, and from there every line of printable characters can be typed: it
is shown, run and answered. -/
namespace Xbtos.Machine
open Foundation.Buffer Strings Semantics Semantics.LineEditor Semantics.Terminal
open Shell (EntryPoint Cpuid)
open Editor (Plain decode keyOf charOf charOf_beyond typedBy lineSize historySize scancodeToAscii
  scancodeToAsciiShift)
open Console (newline)
open Session (chars drawAll)

/-! The scancodes of a character. -/

/-- What the keyboard sends when a key is released. -/
def released (scancode : UInt8) : UInt8 := scancode ||| 0x80

/-- The key that types a character, and whether shift is held with it. -/
def keyFor (c : UInt8) : UInt8 × Bool :=
  if c ∈ scancodeToAscii then (UInt8.ofNat (scancodeToAscii.idxOf c),false)
  else (UInt8.ofNat (scancodeToAsciiShift.idxOf c),true)

def stroke (scancode : UInt8) : Bytes := [scancode,released scancode]

def strokes (c : UInt8) : Bytes :=
  let (scancode,shift) := keyFor c
  if shift then 0x2A :: stroke scancode ++ [released 0x2A] else stroke scancode

def Printable (c : UInt8) : Prop := 0x20 ≤ c.toNat ∧ c.toNat < 0x7F

theorem keyFor_types {c : UInt8} (printable : Printable c) :
    (keyFor c).1.toNat < 0x3B ∧ charOf (keyFor c).2 (keyFor c).1 = c ∧ Plain c := by
  have all : ∀ n < 0x5F, let c := UInt8.ofNat (n + 0x20)
      (keyFor c).1.toNat < 0x3B ∧ charOf (keyFor c).2 (keyFor c).1 = c ∧ Plain c := by
    decide +kernel
  obtain ⟨low,high⟩ := printable
  have found := all (c.toNat - 0x20) (by omega)
  rw [Nat.sub_add_cancel low,UInt8.ofNat_toNat] at found
  exact found

/-- The prefix, and the shift keys going down and up. -/
def modifierCodes : Bytes := [0xE0,0x2A,0x36,0xAA,0xB6]

theorem decode_key {scancode : UInt8} (shift : Bool) (other : scancode ∉ modifierCodes) :
    decode scancode shift false = (keyOf (charOf shift scancode),shift,false) := by
  simp only [modifierCodes,List.mem_cons,List.not_mem_nil,or_false,not_or] at other
  obtain ⟨notPrefix,left,right,leftUp,rightUp⟩ := other
  rw [decode,if_neg notPrefix,if_neg Bool.false_ne_true,if_neg (not_or.mpr ⟨left,right⟩),
    if_neg (not_or.mpr ⟨leftUp,rightUp⟩)]

theorem modifiers_silent {scancode : UInt8} (shift : Bool) (member : scancode ∈ modifierCodes) :
    charOf shift scancode = 0 := by
  simp only [modifierCodes,List.mem_cons,List.not_mem_nil,or_false] at member
  rcases member with rfl | rfl | rfl | rfl | rfl <;> cases shift <;> rfl

theorem released_silent {scancode : UInt8} (inside : scancode.toNat < 0x3B) (other : scancode ∉ modifierCodes) :
    released scancode ∉ modifierCodes ∧ ¬(released scancode).toNat < scancodeToAscii.length := by
  have all : ∀ n < 0x3B, UInt8.ofNat n ∉ modifierCodes → released (UInt8.ofNat n) ∉ modifierCodes ∧
      ¬(released (UInt8.ofNat n)).toNat < scancodeToAscii.length := by
    decide +kernel
  have found := all scancode.toNat inside
  rw [UInt8.ofNat_toNat] at found
  exact found other

/-- A key of the tables goes down, and up again. -/
theorem stroke_decoded {scancode c : UInt8} {shift : Bool} (inside : scancode.toNat < 0x3B)
    (typed : charOf shift scancode = c) (nonzero : c ≠ 0) :
    decode scancode shift false = (keyOf c,shift,false) ∧
      decode (released scancode) shift false = (.nothing,shift,false) := by
  have other : scancode ∉ modifierCodes := fun member =>
    nonzero (typed.symm.trans (modifiers_silent shift member))
  obtain ⟨apart,beyond⟩ := released_silent inside other
  constructor
  · rw [decode_key shift other,typed]
  · rw [decode_key shift apart,charOf_beyond shift beyond]
    rfl

/-- From no modifiers to none, scancodes type keys. -/
def Types (scancodes : Bytes) (typed : List (Key UInt8)) : Prop := ∀ rest,
  acting (keys (scancodes ++ rest) false false) = typed ++ acting (keys rest false false)

theorem Types.append {first second : Bytes} {one two : List (Key UInt8)} (left : Types first one)
    (right : Types second two) : Types (first ++ second) (one ++ two) := by
  intro rest
  rw [List.append_assoc,left,right,List.append_assoc]

theorem Types.flatMap {α : Type} {lines : List α} {scancodes : α → Bytes} {typed : α → List (Key UInt8)}
    (all : ∀ line ∈ lines, Types (scancodes line) (typed line)) :
    Types (lines.flatMap scancodes) (lines.flatMap typed) := by
  induction lines with
  | nil => exact fun rest => rfl
  | cons line lines ih =>
    rw [List.forall_mem_cons] at all
    rw [List.flatMap_cons,List.flatMap_cons]
    exact all.1.append (ih all.2)

theorem types_strokes {c : UInt8} (printable : Printable c) : Types (strokes c) [.char c] := by
  intro rest
  obtain ⟨inside,typed,plain⟩ := keyFor_types printable
  unfold strokes
  generalize keyFor c = key at inside typed ⊢
  obtain ⟨scancode,shift⟩ := key
  obtain ⟨down,up⟩ := stroke_decoded inside typed plain.1
  rw [plain.keyOf] at down
  cases shift with
  | false =>
    simp only [stroke,Bool.false_eq_true,if_false,List.cons_append,List.nil_append,keys,down,up]
    rfl
  | true =>
    have held : decode 0x2A false false = (.nothing,true,false) := rfl
    have letGo : decode (released 0x2A) true false = (.nothing,false,false) := rfl
    simp only [stroke,if_true,List.cons_append,List.nil_append,keys,held,down,up,letGo]
    rfl

/-- A capital letter. -/
example : strokes 0x41 = [0x2A,0x1E,0x9E,0xAA] := by decide

theorem types_enter : Types (stroke 0x1C) [.enter] := fun _ => rfl

/-! What the system makes of them. -/

theorem keyAll_acting (typed : List (Key UInt8)) (t : System) :
    t.keyAll (acting typed) = t.keyAll typed := by
  induction typed generalizing t with
  | nil => rfl
  | cons key typed ih =>
    cases key with
    | nothing => exact ih t
    | _ => exact ih (t.key _)

theorem key_modifiers (key : Key UInt8) (t : System) (shift extended : Bool) :
    { t with shift, extended }.key key = { t.key key with shift, extended } := by
  cases key <;> rfl

theorem keyAll_modifiers (typed : List (Key UInt8)) (t : System) (shift extended : Bool) :
    { t with shift, extended }.keyAll typed = { t.keyAll typed with shift, extended } := by
  induction typed generalizing t with
  | nil => rfl
  | cons key typed ih =>
    rw [System.keyAll,List.foldl_cons,key_modifiers]
    exact ih (t.key key)

/-- The modifiers apart, the system is a function of the keys. -/
theorem pressAll_keys (scancodes : Bytes) (t : System) : ∃ shift extended,
    t.pressAll scancodes = { t.keyAll (keys scancodes t.shift t.extended) with shift, extended } := by
  induction scancodes generalizing t with
  | nil => exact ⟨t.shift,t.extended,rfl⟩
  | cons scancode scancodes ih =>
    obtain ⟨key,shift,extended,decoded⟩ : ∃ key shift extended,
        decode scancode t.shift t.extended = (key,shift,extended) := ⟨_,_,_,rfl⟩
    have step : t.press scancode = { t.key key with shift, extended } := by
      simp only [System.press,decoded]
    obtain ⟨last,after,rest⟩ := ih (t.press scancode)
    rw [step,keyAll_modifiers] at rest
    refine ⟨last,after,?_⟩
    rw [System.pressAll,List.foldl_cons,step]
    refine rest.trans ?_
    simp only [keys,decoded]
    rfl

theorem keyAll_append (first second : List (Key UInt8)) (t : System) :
    t.keyAll (first ++ second) = (t.keyAll first).keyAll second := List.foldl_append

theorem keyAll_chars {line : Bytes} {t : System} (room : t.draft.line.length + line.length ≤ lineSize) :
    ∃ recalled, t.keyAll (line.map .char) = { t with
      draft := ⟨t.draft.line ++ line,t.draft.past,recalled⟩
      page := drawAll (chars line) t.page } := by
  induction line generalizing t with
  | nil =>
    refine ⟨t.draft.recalled,?_⟩
    rw [List.append_nil]
    rfl
  | cons c line ih =>
    rw [List.length_cons] at room
    have before : t.draft.line.length < lineSize := by omega
    have one : t.key (.char c) = { t with
        draft := ⟨t.draft.line ++ [c],t.draft.past,none⟩
        page := drawAll (chars [c]) t.page } := by
      simp only [System.key,System.edit,Draft.press,Draft.type,typedBy,if_pos before]
    have after : (t.key (.char c)).draft.line.length + line.length ≤ lineSize := by
      rw [one,List.length_append,List.length_singleton]
      omega
    obtain ⟨recalled,rest⟩ := ih after
    refine ⟨recalled,?_⟩
    rw [System.keyAll,List.map_cons,List.foldl_cons]
    refine rest.trans ?_
    rw [one,List.append_assoc]
    rfl

theorem drawAll_told (line : Bytes) (told : List Session.Mark) (p : Page UInt8) :
    drawAll (.char newline :: told) (drawAll (chars line) p) = drawAll (chars (line ++ [newline]) ++ told) p := by
  rw [← drawAll_append,chars,chars,List.map_append,List.append_assoc]
  rfl

theorem keyAll_writing {line : Bytes} {t : System} (empty : t.draft.line = []) (filled : line ≠ [])
    (short : line.length ≤ lineSize) : t.keyAll (writing line) = t.ask line := by
  have room : t.draft.line.length + line.length ≤ lineSize := by
    rw [empty,List.length_nil,Nat.zero_add]
    exact short
  obtain ⟨recalled,written⟩ := keyAll_chars room
  rw [empty,List.nil_append] at written
  rw [writing,keyAll_append,written]
  simp only [System.keyAll,List.foldl_cons,List.foldl_nil,System.key,System.enter,System.entered,
    Draft.enter,if_neg filled,System.ask,drawAll_told]

/-! The way back to an empty line. -/

/-- Shift is let go, whatever the first scancode is taken for, and the line is erased. -/
def clearing : Bytes := released 0x2A :: released 0x2A :: List.replicate lineSize 0x0E

theorem keyAll_draft (typed : List (Key UInt8)) (t : System) :
    (t.keyAll typed).draft = (typing lineSize historySize typed t.draft).1 := by
  induction typed generalizing t with
  | nil => rfl
  | cons key typed ih =>
    have one : (t.key key).draft = t.draft.press lineSize historySize key := by
      cases key <;> rfl
    rw [typing,← one]
    exact ih (t.key key)

theorem pressAll_erases (n : Nat) (t : System) :
    { t with shift := false, extended := false }.pressAll (List.replicate n 0x0E) =
      { t.keyAll (List.replicate n .erase) with shift := false, extended := false } := by
  induction n generalizing t with
  | zero => rfl
  | succ n ih => exact ih (t.key .erase)

theorem pressAll_clearing (t : System) : t.pressAll clearing =
    { t.keyAll (List.replicate lineSize .erase) with shift := false, extended := false } := by
  have letGo : (t.press (released 0x2A)).press (released 0x2A) =
      { t with shift := false, extended := false } := by
    obtain ⟨draft,shift,extended,session,page⟩ := t
    cases shift <;> cases extended <;> rfl
  rw [← pressAll_erases,clearing,System.pressAll,List.foldl_cons,List.foldl_cons,letGo,System.pressAll]

theorem Simulates.cleared {m : Machine} {t : System} (sim : Simulates m t) :
    (t.pressAll clearing).draft.line = [] := by
  rw [pressAll_clearing]
  dsimp only
  rw [keyAll_draft]
  exact typing_erases sim.editor.kept.line

/-! Lines of printable characters. -/

structure PrintableLine where
  text : Bytes
  printable : ∀ c ∈ text, Printable c
  filled : text ≠ []
  short : text.length ≤ lineSize

def PrintableLine.strokes (line : PrintableLine) : Bytes :=
  line.text.flatMap Machine.strokes ++ stroke 0x1C

theorem PrintableLine.types (line : PrintableLine) : Types line.strokes (writing line.text) := by
  have typed := Types.flatMap fun c member => types_strokes (line.printable c member)
  rw [← List.map_eq_flatMap] at typed
  exact typed.append types_enter

def written (lines : List PrintableLine) : List (Key UInt8) := lines.flatMap fun line => writing line.text

theorem keys_lines (lines : List PrintableLine) :
    acting (keys (lines.flatMap PrintableLine.strokes) false false) = written lines := by
  have typed : Types (lines.flatMap PrintableLine.strokes) (written lines) :=
    Types.flatMap fun line _ => line.types
  have whole := typed []
  rw [List.append_nil] at whole
  exact whole.trans (List.append_nil _)

theorem typing_written (lines : List PrintableLine) {d : Draft UInt8} (empty : d.line = []) :
    (typing lineSize historySize (written lines) d).2 = lines.map PrintableLine.text := by
  induction lines generalizing d with
  | nil => rfl
  | cons line lines ih =>
    rw [written,List.flatMap_cons,typing_append,typing_writing empty line.filled line.short]
    exact congrArg (line.text :: ·) (ih rfl)

theorem keyAll_written (lines : List PrintableLine) {t : System} (empty : t.draft.line = []) :
    t.keyAll (written lines) = t.askAll (lines.map PrintableLine.text) := by
  induction lines generalizing t with
  | nil => rfl
  | cons line lines ih =>
    rw [written,List.flatMap_cons,keyAll_append,keyAll_writing empty line.filled line.short]
    exact ih rfl

/-! The kernel. -/

theorem Observed.modifiers {m : Machine} {t : System} (observed : Observed m t) (shift extended : Bool) :
    Observed m { t with shift, extended } :=
  ⟨observed.screen,observed.line,observed.history,observed.language,observed.read,observed.listed⟩

theorem Simulates.sound {m : Machine} {t : System} (sim : Simulates m t) : Sound m t.draft := by
  obtain ⟨live,table,ascii,_⟩ := sim.shell.files
  exact ⟨⟨⟨live,table,ascii⟩,sim.shell.apps⟩,sim.screen.window.onScreen,sim.editor⟩

/-- On an empty line, with no modifier, lines are run and answered as they are typed. -/
theorem Simulates.typed {m : Machine} {t : System} (sim : Simulates m t) (empty : t.draft.line = [])
    (shift : t.shift = false) (extended : t.extended = false) (lines : List PrintableLine) : ∃ m' calls,
      Machine.pressAll (lines.flatMap PrintableLine.strokes) m = some (m',calls) ∧
      calls.filterMap executed = lines.map PrintableLine.text ∧
      Observed m' (t.askAll (lines.map PrintableLine.text)) := by
  obtain ⟨m',calls,ran,after⟩ := sim.pressAll (lines.flatMap PrintableLine.strokes)
  obtain ⟨again,others,repeated,_,entered⟩ := sim.sound.pressAll (lines.flatMap PrintableLine.strokes)
  rw [ran] at repeated
  cases repeated
  obtain ⟨s,e,whole⟩ := pressAll_keys (lines.flatMap PrintableLine.strokes) t
  rw [sim.shift,sim.extended,shift,extended,← typing_acting,keys_lines,typing_written lines empty] at entered
  rw [shift,extended,← keyAll_acting,keys_lines,keyAll_written lines empty] at whole
  have observed := after.observed
  rw [whole] at observed
  exact ⟨m',calls,ran,entered,observed.modifiers _ _⟩

/-- From every state that scancodes lead to, the keyboard can run every list of printable lines. Each
is shown as it is typed, and answered below. -/
theorem lines_typeable (cpuid : Cpuid) (files : Vfs.FileSystem) (apps : App.AppManager EntryPoint)
    (console : Console.State) : ∃ m₀, boot cpuid files apps console = some m₀ ∧
    ∀ before, ∃ m₁ earlier, pressAll (before ++ clearing) m₀ = some (m₁,earlier) ∧
      ∀ lines : List PrintableLine, ∃ m₂ calls,
        pressAll (lines.flatMap PrintableLine.strokes) m₁ = some (m₂,calls) ∧
        calls.filterMap executed = lines.map PrintableLine.text ∧
        Observed m₂ (System.askAll (lines.map PrintableLine.text)
          (System.pressAll (before ++ clearing) (.start (upTo 0 (Shell.vendor cpuid))))) := by
  obtain ⟨m₀,booted,sim⟩ := boot_simulates cpuid files apps console
  refine ⟨m₀,booted,fun before => ?_⟩
  obtain ⟨m₁,earlier,ran,after⟩ := sim.pressAll (before ++ clearing)
  refine ⟨m₁,earlier,ran,?_⟩
  obtain ⟨_,_,_,still⟩ := sim.pressAll before
  have empty := still.cleared
  have modifiers := pressAll_clearing
    (System.pressAll before (.start (upTo 0 (Shell.vendor cpuid))))
  have parts : System.pressAll (before ++ clearing) (.start (upTo 0 (Shell.vendor cpuid))) =
      System.pressAll clearing (System.pressAll before (.start (upTo 0 (Shell.vendor cpuid)))) :=
    List.foldl_append
  rw [parts] at after ⊢
  exact after.typed empty (congrArg System.shift modifiers :) (congrArg System.extended modifiers :)

end Xbtos.Machine
