import Xbtos.ConsoleText
import Xbtos.Foundation.Pieces

/-! What vga_write_utf8 puts and reads. It takes the length of a character from its first byte
alone: on encoded text each character is put once, and a text that ends inside a character is
read past its end. -/
namespace Xbtos.Console
open Foundation.Buffer Foundation.Pieces Strings

theorem utf8Chars_skip (passed rest : Bytes) :
    utf8Chars passed.length (passed ++ rest) = utf8Chars 0 rest := by
  induction passed with
  | nil => rfl
  | cons c passed ih => exact ih

theorem utf8Skip_low {byte : UInt8} (low : byte < 0x80) : utf8Skip byte = 0 := by
  have all : ∀ k < 0x80, utf8Skip (UInt8.ofNat k) = 0 := by decide
  rw [← UInt8.ofNat_toNat (x := byte)]
  exact all _ (UInt8.lt_iff_toNat_lt.mp low)

theorem utf8Chars_byte {byte : UInt8} (nonzero : byte ≠ 0) (text : Bytes) :
    utf8Chars 0 (byte :: text) = (utf8Chars (utf8Skip byte) text).map
      ((if byte < 0x80 then byte else questionMark) :: ·) := by
  rw [utf8Chars,if_neg nonzero]
  split_ifs with low
  · rw [utf8Skip_low low]
    cases utf8Chars 0 text <;> rfl
  · cases utf8Chars (utf8Skip byte) text <;> rfl

/-! Encoded text. -/

/-- What is put for a character. -/
def shownAs (c : Char) : UInt8 := if c.val < 0x80 then c.val.toUInt8 else questionMark

/-- A first byte that announces n more. -/
structure Leads (n : Nat) (byte : UInt8) : Prop where
  high : ¬byte < 0x80
  skip : utf8Skip byte = n

theorem Leads.nonzero {n : Nat} {byte : UInt8} (leads : Leads n byte) : byte ≠ 0 := by
  rintro rfl
  exact leads.high (by decide)

instance (n : Nat) (byte : UInt8) : Decidable (Leads n byte) :=
  decidable_of_iff (¬byte < 0x80 ∧ utf8Skip byte = n)
    ⟨fun both => ⟨both.1,both.2⟩,fun leads => ⟨leads.high,leads.skip⟩⟩

theorem leads_two : ∀ k < 0x20, Leads 1 (UInt8.ofNat (k + 0xC0)) := by decide
theorem leads_three : ∀ k < 0x10, Leads 2 (UInt8.ofNat (k + 0xE0)) := by decide
theorem leads_four : ∀ k < 0x08, Leads 3 (UInt8.ofNat (k + 0xF0)) := by decide

theorem utf8Chars_leads {n : Nat} {byte : UInt8} {passed : Bytes} (leads : Leads n byte)
    (counted : passed.length = n) (rest : Bytes) :
    utf8Chars 0 (byte :: passed ++ rest) = (utf8Chars 0 rest).map (questionMark :: ·) := by
  rw [List.cons_append,utf8Chars_byte leads.nonzero,if_neg leads.high,leads.skip,← counted,
    utf8Chars_skip]

theorem utf8Chars_low {byte : UInt8} (nonzero : byte ≠ 0) (low : byte < 0x80) (rest : Bytes) :
    utf8Chars 0 (byte :: rest) = (utf8Chars 0 rest).map (byte :: ·) := by
  rw [utf8Chars_byte nonzero,if_pos low,utf8Skip_low low]

theorem utf8Chars_encoded {c : Char} (nonzero : c ≠ '\x00') (rest : Bytes) :
    utf8Chars 0 (String.utf8EncodeChar c ++ rest) = (utf8Chars 0 rest).map (shownAs c :: ·) := by
  have real : c.val.toNat ≠ 0 := fun zero => nonzero (Char.ext (UInt32.toNat_inj.mp zero))
  have ascii : c.val < 0x80 ↔ c.val.toNat ≤ 0x7F := by
    rw [UInt32.lt_iff_toNat_lt]
    exact Nat.lt_succ_iff
  unfold shownAs String.utf8EncodeChar
  simp only [ascii]
  split_ifs with one two three
  · have byte : UInt8.ofNat c.val.toNat = c.val.toUInt8 := UInt8.ofNat_uInt32ToNat _
    rw [List.singleton_append,byte]
    apply utf8Chars_low
    · rw [ne_eq,← UInt8.toNat_inj,UInt32.toNat_toUInt8]
      rw [Nat.mod_eq_of_lt (Nat.lt_of_le_of_lt one (by decide))]
      exact real
    · rw [UInt8.lt_iff_toNat_lt,UInt32.toNat_toUInt8]
      exact Nat.lt_of_le_of_lt (Nat.mod_le _ _) (Nat.lt_succ_of_le one)
  · exact utf8Chars_leads (leads_two _ (Nat.mod_lt _ (by decide))) rfl rest
  · exact utf8Chars_leads (leads_three _ (Nat.mod_lt _ (by decide))) rfl rest
  · exact utf8Chars_leads (leads_four _ (Nat.mod_lt _ (by decide))) rfl rest

theorem utf8Chars_text {chars : List Char} (nonzero : ∀ c ∈ chars, c ≠ '\x00') (after : Bytes) :
    utf8Chars 0 (chars.flatMap String.utf8EncodeChar ++ 0 :: after) = some (chars.map shownAs) := by
  induction chars with
  | nil => rfl
  | cons c chars ih =>
    rw [List.forall_mem_cons] at nonzero
    rw [List.flatMap_cons,List.append_assoc,utf8Chars_encoded nonzero.1,ih nonzero.2]
    rfl

theorem vgaWriteUtf8_chars {text chars : Bytes} (read : utf8Chars 0 text = some chars) (s : State) :
    vgaWriteUtf8 (some text) s = putAll chars s := by
  rw [vgaWriteUtf8,writeUtf8From_chars,read,Option.bind_some]

/-- Each character of an encoded text is put once, as itself or as a question mark; a text of
ASCII is put as vga_write puts it. -/
theorem utf8_one_each (chars : List Char) (nonzero : ∀ c ∈ chars, c ≠ '\x00') (after : Bytes) :
    utf8Chars 0 (chars.flatMap String.utf8EncodeChar ++ 0 :: after) = some (chars.map shownAs) ∧
    (∀ s, vgaWriteUtf8 (some (chars.flatMap String.utf8EncodeChar ++ 0 :: after)) s =
      putAll (chars.map shownAs) s) ∧
    ∀ text : Bytes, (∀ c ∈ text, c ≠ 0 ∧ c < 0x80) →
      utf8Chars 0 (text ++ 0 :: after) = printString (text ++ 0 :: after) ∧
      ∀ s, vgaWriteUtf8 (some (text ++ 0 :: after)) s = vgaWrite (some (text ++ 0 :: after)) s := by
  have read := utf8Chars_text nonzero after
  refine ⟨read,vgaWriteUtf8_chars read,fun text ascii => ?_⟩
  have noNul : 0 ∉ text := fun member => (ascii 0 member).1 rfl
  have plain := utf8Chars_ascii after ascii
  refine ⟨plain.trans (printString_text after noNul).symm,fun s => ?_⟩
  rw [vgaWriteUtf8_chars plain]
  exact (writeFrom_text after noNul s).symm

theorem utf8_one_each_sample :
    utf8Chars 0 (['a','\u00e9','\u20ac'].flatMap String.utf8EncodeChar ++ [0]) =
      some [97,questionMark,questionMark] :=
  (utf8_one_each ['a','\u00e9','\u20ac'] (by simp) []).1

/-! The bytes that are read. -/

/-- The indices the loop of vga_write_utf8 reads, from text[i] on with some bytes still to pass
over. A read behind the object is the last; no object is so long that an index would wrap. -/
def utf8Reads : Nat → Nat → Bytes → List Nat
  | skip, i, [] => [i + skip]
  | skip+1, i, _ :: text => utf8Reads skip (i+1) text
  | 0, i, byte :: text =>
    i :: if byte = 0 then []
      else if byte < 0x80 then utf8Reads 0 (i+1) text
      else utf8Reads (utf8Skip byte) (i+1) text

theorem utf8Reads_byte {byte : UInt8} (nonzero : byte ≠ 0) (i : Nat) (text : Bytes) :
    utf8Reads 0 i (byte :: text) = i :: utf8Reads (utf8Skip byte) (i+1) text := by
  rw [utf8Reads,if_neg nonzero]
  split_ifs with low
  · rw [utf8Skip_low low]
  · rfl

theorem utf8Reads_skip (passed : Bytes) (i : Nat) (text : Bytes) :
    utf8Reads passed.length i (passed ++ text) = utf8Reads 0 (i + passed.length) text := by
  induction passed generalizing i with
  | nil => rfl
  | cons c passed ih =>
    have place : i + (c :: passed).length = i + 1 + passed.length := by
      rw [List.length_cons]
      omega
    rw [place]
    exact ih (i+1)

/-- The next read is behind the bytes that are passed over. -/
theorem utf8Reads_first (skip i : Nat) (text : Bytes) : i + skip ∈ utf8Reads skip i text := by
  induction text generalizing skip i with
  | nil => cases skip <;> exact List.mem_singleton.mpr rfl
  | cons byte text ih =>
    cases skip with
    | zero => exact List.mem_cons_self
    | succ skip =>
      have place : i + (skip + 1) = i + 1 + skip := by omega
      rw [place]
      exact ih skip (i+1)

theorem utf8Chars_short {skip : Nat} {text : Bytes} (short : text.length ≤ skip) :
    utf8Chars skip text = none := by
  induction text generalizing skip with
  | nil => cases skip <;> rfl
  | cons c text ih =>
    cases skip with
    | zero => exact absurd short (Nat.not_succ_le_zero _)
    | succ skip => exact ih (Nat.le_of_succ_le_succ short)

/-- What is put depends on the bytes that are read only. -/
theorem utf8Chars_reads {object other : Bytes} {skip i : Nat}
    (same : ∀ k, i + k ∈ utf8Reads skip i object → other[k]? = object[k]?) :
    utf8Chars skip other = utf8Chars skip object := by
  induction object generalizing other skip i with
  | nil =>
    have outside : other.length ≤ skip := by simpa using same skip (utf8Reads_first skip i [])
    rw [utf8Chars_short outside,utf8Chars_short (Nat.zero_le _)]
  | cons byte text ih =>
    have step : ∀ {k}, i + 1 + k = i + (k+1) := by omega
    cases skip with
    | succ skip =>
      have rest : utf8Chars skip other.tail = utf8Chars skip text := ih fun k member => by
        rw [step] at member
        simpa using same (k+1) member
      cases other with
      | nil => exact rest
      | cons d other => exact rest
    | zero =>
      obtain ⟨rest,rfl⟩ : ∃ rest, other = byte :: rest := by
        have first := same 0 List.mem_cons_self
        cases other with
        | nil => cases first
        | cons d other =>
          cases first
          exact ⟨other,rfl⟩
      by_cases zero : byte = 0
      · rw [utf8Chars,utf8Chars,if_pos zero,if_pos zero]
      · have rest : utf8Chars (utf8Skip byte) rest = utf8Chars (utf8Skip byte) text :=
          ih fun k member => by
            rw [step] at member
            have later := same (k+1) (by
              rw [utf8Reads_byte zero]
              exact List.mem_cons_of_mem _ member)
            simpa using later
        rw [utf8Chars_byte zero,utf8Chars_byte zero,rest]

theorem vgaWriteUtf8_reads {object other : Bytes}
    (same : ∀ i ∈ utf8Reads 0 0 object, other[i]? = object[i]?) (s : State) :
    vgaWriteUtf8 (some other) s = vgaWriteUtf8 (some object) s := by
  have chars : utf8Chars 0 other = utf8Chars 0 object := utf8Chars_reads fun k member => by
    rw [Nat.zero_add] at member
    exact same k member
  rw [vgaWriteUtf8,vgaWriteUtf8,writeUtf8From_chars,writeUtf8From_chars,chars]

/-- Over whole characters the loop reads their first bytes. -/
theorem utf8Reads_whole {front : Bytes} (whole : Whole utf8Skip front) (noNul : 0 ∉ front) (i : Nat)
    (text : Bytes) : ∃ firsts, utf8Reads 0 i (front ++ text) =
      firsts ++ utf8Reads 0 (i + front.length) text ∧ ∀ k ∈ firsts, k < i + front.length := by
  induction whole generalizing i with
  | nil => exact ⟨[],rfl,by simp⟩
  | piece first tail rest counted after ih =>
    rw [List.mem_append,not_or] at noNul
    have nonzero : first ≠ 0 := fun zero => noNul.1 (zero ▸ List.mem_cons_self)
    obtain ⟨firsts,reads,below⟩ := ih noNul.2 (i + 1 + tail.length)
    have length : i + (first :: tail ++ rest).length = i + 1 + tail.length + rest.length := by
      rw [List.length_append,List.length_cons]
      omega
    refine ⟨i :: firsts,?_,?_⟩
    · rw [List.append_assoc,List.cons_append,utf8Reads_byte nonzero,← counted,utf8Reads_skip,reads,
        length,List.cons_append]
    · rw [length]
      exact List.forall_mem_cons.mpr ⟨by omega,below⟩

/-- No byte behind the terminator is read, and the terminator is the last. -/
structure StaysInside (text : CString) : Prop where
  reads : ∀ i ∈ utf8Reads 0 0 text.pointer, i ≤ text.bytes.length
  stops : (utf8Reads 0 0 text.pointer).getLast? = some text.bytes.length

theorem StaysInside.whole {text : CString} (stays : StaysInside text) :
    Whole utf8Skip text.bytes := by
  apply (whole_or_cut utf8Skip text.bytes).resolve_right
  rintro ⟨front,first,tail,cut⟩
  have noNul := text.noNul
  rw [cut.layout,List.mem_append,not_or] at noNul
  have nonzero : first ≠ 0 := fun zero => noNul.2 (zero ▸ List.mem_cons_self)
  -- The read behind the last character is a read behind the terminator.
  obtain ⟨firsts,reads,_⟩ := utf8Reads_whole cut.whole noNul.1 0 (first :: tail ++ 0 :: text.after)
  have beyond := utf8Reads_first (utf8Skip first) (front.length + 1) (tail ++ 0 :: text.after)
  have inside := stays.reads (front.length + 1 + utf8Skip first) (by
    rw [CString.pointer,cut.layout,List.append_assoc,reads,List.cons_append,
      utf8Reads_byte nonzero,Nat.zero_add]
    exact List.mem_append_right _ (List.mem_cons_of_mem _ beyond))
  have short := cut.short
  have length := cut.length
  omega

theorem staysInside_whole {text : CString} (whole : Whole utf8Skip text.bytes) :
    StaysInside text := by
  have terminator : utf8Reads 0 text.bytes.length (0 :: text.after) = [text.bytes.length] := by
    rw [utf8Reads,if_pos rfl]
  obtain ⟨firsts,reads,below⟩ := utf8Reads_whole whole text.noNul 0 (0 :: text.after)
  rw [Nat.zero_add,terminator] at reads
  rw [Nat.zero_add] at below
  constructor
  · intro i member
    rw [CString.pointer,reads] at member
    rcases List.mem_append.mp member with early | last
    · exact Nat.le_of_lt (below i early)
    · exact Nat.le_of_eq (List.mem_singleton.mp last)
  · rw [CString.pointer,reads]
    exact List.getLast?_concat ..

/-- The output stays inside its string exactly when no character is cut off by its end. -/
theorem utf8_inside_iff (text : CString) : StaysInside text ↔ Whole utf8Skip text.bytes :=
  ⟨StaysInside.whole,staysInside_whole⟩

/-- A text that ends behind the first of two bytes. -/
def truncated : CString := ⟨[0xC3],[65,0],by decide,by decide⟩

theorem truncated_overrun : ¬StaysInside truncated ∧
    utf8Chars 0 truncated.pointer = some [questionMark,65] := by
  refine ⟨fun stays => ?_,by decide⟩
  have inside := stays.reads 2 (by decide)
  exact absurd inside (by decide)

end Xbtos.Console
