import Xbtos.ShellOutcome

/-! The names files have in commands. touch, rdf, stat and rm normalise the rest of the line;
rec and append first cut the token to what fits into their buffer, so that a longer token is
another name for them. -/
namespace Xbtos.Shell
open Foundation.Buffer Strings Semantics
open Vfs (FileSystem FileResult File Table Command Reaches ValidName fileMap norm pointerOf
  isPathSeparator fileNameSize)

/-! The dispatch of the commands that take a file name. -/

section
variable {s : State} {cmd : CString}

theorem isWord_other {name : Bytes} (begins : name <+: cmd.bytes) {word : String}
    (apart : ¬name <+: literal word) (clean : 0 ∉ literal word)
    (yes no : Option (State × List Call)) :
    (do if ← I18n.isWord cmd.pointer word then yes else no) = no := by
  rw [isWord_branch cmd clean,if_neg]
  intro same
  rw [same] at begins
  exact apart begins

theorem startsWith_other {name : Bytes} (begins : name <+: cmd.bytes) {word : Bytes}
    (apart : ¬name <+: word ∧ ¬word <+: name) (clean : 0 ∉ word)
    (yes no : Option (State × List Call)) :
    (do if ← startsWith cmd.pointer (word ++ [0]) then yes else no) = no := by
  rw [startsWith_branch cmd clean,if_neg]
  intro other
  exact (List.prefix_or_prefix_of_prefix begins other).elim apart.1 apart.2

theorem sysinfo_other {name : Bytes} (begins : name <+: cmd.bytes)
    (apart : ¬name <+: literal "sysmit" ∧ ¬name <+: literal "sysinfo")
    (yes no : Option (State × List Call)) :
    (do if (← I18n.isWord cmd.pointer "sysmit") || (← I18n.isWord cmd.pointer "sysinfo") then yes else no) =
      no := by
  rw [sysinfo_branch,if_neg]
  rintro (same | same) <;> rw [same] at begins
  · exact apart.1 begins
  · exact apart.2 begins

structure Dispatched (cmd : CString) (s : State) : Prop where
  touch : literal "touch " <+: cmd.bytes →
    executeCommand cmd.pointer s = touch (argsFrom 5 cmd).pointer s
  rdf : literal "rdf " <+: cmd.bytes → executeCommand cmd.pointer s = rdf (argsFrom 3 cmd).pointer s
  record : literal "rec " <+: cmd.bytes →
    executeCommand cmd.pointer s = record (argsFrom 3 cmd).pointer s
  append : literal "append " <+: cmd.bytes →
    executeCommand cmd.pointer s = append (argsFrom 6 cmd).pointer s
  rm : literal "rm " <+: cmd.bytes → executeCommand cmd.pointer s = rm (argsFrom 2 cmd).pointer s
  stat : literal "stat " <+: cmd.bytes →
    executeCommand cmd.pointer s = stat (argsFrom 4 cmd).pointer s

theorem executeCommand_dispatched (cmd : CString) (s : State) : Dispatched cmd s := by
  constructor <;> intro begins <;> unfold executeCommand
  -- the names before it are of other commands
  all_goals
    repeat first
      | rw [isWord_other begins (by decide) (by decide)]
      | rw [startsWith_other begins (by decide) (by decide)]
      | rw [sysinfo_other begins (by decide)]
    rw [startsWith_branch cmd (by decide),if_pos begins,arguments_from _ begins (by decide)]

end

/-! Normal forms. -/

theorem norm_valid_text {text : Bytes} (rest : Bytes) (noNul : 0 ∉ text)
    (valid : ValidName (text.dropWhile isPathSeparator)) :
    norm (some (text ++ 0 :: rest)) = some (text.dropWhile isPathSeparator) := by
  simp only [Vfs.norm,Vfs.normalizeName_valid rest noNul valid,upTo_append [] valid.noNul]

theorem norm_invalid_text {text : Bytes} (rest : Bytes) (noNul : 0 ∉ text)
    (invalid : ¬ValidName (text.dropWhile isPathSeparator)) : norm (some (text ++ 0 :: rest)) = none := by
  obtain ⟨out,normal⟩ := Vfs.normalizeName_invalid rest noNul invalid
  simp only [Vfs.norm,normal]

theorem norm_rest {text : Bytes} (rest : Bytes) (noNul : 0 ∉ text) :
    norm (some (text ++ 0 :: rest)) = norm (some (text ++ [0])) := by
  by_cases valid : ValidName (text.dropWhile isPathSeparator)
  · rw [norm_valid_text rest noNul valid,norm_valid_text [] noNul valid]
  · rw [norm_invalid_text rest noNul valid,norm_invalid_text [] noNul valid]

/-- A name is never the normal form of a part of its path. -/
theorem norm_take {t : Bytes} {n : Nat} (noNul : 0 ∉ t) (long : n < t.length) :
    norm (some (t.take n ++ [0])) = norm (some (t ++ [0])) ↔
      ¬ValidName ((t.take n).dropWhile isPathSeparator) ∧ ¬ValidName (t.dropWhile isPathSeparator) := by
  have clean : 0 ∉ t.take n := fun member => noNul (List.mem_of_mem_take member)
  by_cases front : ValidName ((t.take n).dropWhile isPathSeparator) <;>
    by_cases whole : ValidName (t.dropWhile isPathSeparator)
  · rw [norm_valid_text [] clean front,norm_valid_text [] noNul whole]
    have split : t.dropWhile isPathSeparator = (t.take n).dropWhile isPathSeparator ++ t.drop n := by
      conv_lhs => rw [← List.take_append_drop n t]
      rw [List.dropWhile_append,if_neg (by simpa using front.nonempty)]
    constructor
    · intro same
      rw [split] at same
      have more : t.drop n = [] := by simpa using (Option.some.inj same).symm
      rw [List.drop_eq_nil_iff] at more
      omega
    · exact fun neither => absurd front neither.1
  · rw [norm_valid_text [] clean front,norm_invalid_text [] noNul whole]
    simp [front]
  · rw [norm_invalid_text [] clean front,norm_valid_text [] noNul whole]
    simp [whole]
  · rw [norm_invalid_text [] clean front,norm_invalid_text [] noNul whole]
    simp [front,whole]

/-! The parts of the lines. -/

def FileCall.path : FileCall → Bytes
  | .create path _ => path
  | .write path _ _ => path
  | .append path _ _ => path
  | .remove path _ => path
  | .read path _ => path
  | .stat path _ => path
  | .list path => path

theorem dropWhile_space {t : Bytes} (nonempty : t ≠ []) (noSpace : space ∉ t) (rest : Bytes) :
    (space :: t ++ rest).dropWhile (· = space) = t ++ rest := by
  obtain ⟨b,t,rfl⟩ := List.exists_cons_of_ne_nil nonempty
  have apart : b ≠ space := fun same => noSpace (by simp [same])
  simp [apart]

theorem takeWhile_token {t : Bytes} (noSpace : space ∉ t) (rest : Bytes) :
    (t ++ space :: rest).takeWhile (· ≠ space) = t ∧
      (t ++ space :: rest).dropWhile (· ≠ space) = space :: rest := by
  have all : ∀ b ∈ t, decide (b ≠ space) = true := by
    intro b member
    exact decide_eq_true fun same => noSpace (same ▸ member)
  constructor
  · rw [List.takeWhile_append_of_pos all]
    simp
  · rw [List.dropWhile_append_of_pos all]
    simp

section
variable {t c : Bytes} {args : CString}

theorem skipped_single (nonempty : t ≠ []) (noSpace : space ∉ t) (is : args.bytes = space :: t) :
    (skipped args).bytes = t := by
  have front := dropWhile_space nonempty noSpace []
  rw [List.append_nil,List.append_nil] at front
  simp only [skipped,tail,is,front]

theorem skipped_pair (nonempty : t ≠ []) (noSpace : space ∉ t)
    (is : args.bytes = space :: t ++ space :: c) : (skipped args).bytes = t ++ space :: c := by
  simp only [skipped,tail,is]
  exact dropWhile_space nonempty noSpace _

theorem token_pair (nonempty : t ≠ []) (noSpace : space ∉ t)
    (is : args.bytes = space :: t ++ space :: c) :
    (token (skipped args)).bytes = t.take (fileNameSize - 1) := by
  simp only [token,skipped_pair nonempty noSpace is,(takeWhile_token noSpace c).1]

theorem content_pair (nonempty : t ≠ []) (noSpace : space ∉ t)
    (is : args.bytes = space :: t ++ space :: c) :
    (contentOf args).bytes = c.dropWhile (· = space) := by
  have rest := (takeWhile_token noSpace c).2
  rw [← skipped_pair nonempty noSpace is] at rest
  have behind : (afterToken (skipped args)).bytes = space :: c := rest
  show (afterToken (skipped args)).bytes.dropWhile (· = space) = _
  rw [behind]
  exact List.dropWhile_cons_of_pos (by simp)

/-! The lines. -/

/-- The lines about a file of six commands. -/
def linesAbout (t c : Bytes) : List Bytes :=
  [literal "touch " ++ t,literal "rdf " ++ t,literal "stat " ++ t,literal "rm " ++ t,
    literal "rec " ++ t ++ space :: c,literal "append " ++ t ++ space :: c]

/-- The token t is the same name in every command. -/
structure SameName (s : State) (t c : Bytes) : Prop where
  resolves : ∀ line : CString, line.bytes ∈ linesAbout t c → ∃ s' call calls,
    executeCommand line.pointer s = some (s',.file call :: calls) ∧
      norm (some call.path) = norm (some (t ++ [0]))
  recorded : c.head? ≠ some space → ∀ line : CString, line.bytes = literal "rec " ++ t ++ space :: c →
    ∀ s' path content calls,
    executeCommand line.pointer s = some (s',.file (.write path content .ok) :: calls) →
    ∀ reading : CString, reading.bytes = literal "rdf " ++ t → ∃ path text calls,
    executeCommand reading.pointer s' = some (s',.file (.read path (some text)) :: calls) ∧
      upTo 0 text = c
  others : ∀ line : CString,
    line.bytes ∈ [literal "rec " ++ t ++ space :: c,literal "append " ++ t ++ space :: c] →
    ∀ s' calls, executeCommand line.pointer s = some (s',calls) →
    ∀ name, norm (some (t ++ [0])) ≠ some name →
    (fileMap s'.vfs).lookup name = (fileMap s.vfs).lookup name

variable {s : State} {live : List File} {line : CString}

theorem norm_single (noNul : 0 ∉ t) (args : CString) (is : args.bytes = t) :
    norm (some args.pointer) = norm (some (t ++ [0])) := by
  rw [CString.pointer,is,norm_rest _ noNul]

theorem touch_line (table : Table s.vfs live) (is : line.bytes = literal "touch " ++ t) :
    ∃ s' result calls, executeCommand line.pointer s =
      some (s',.file (.create (skipped (argsFrom 5 line)).pointer result) :: calls) := by
  rw [(executeCommand_dispatched line s).touch ⟨t,is.symm⟩]
  obtain ⟨result,vfs,returned,_⟩ :=
    table.command_meaning (.create (some (skipped (argsFrom 5 line)))) trivial
  exact ⟨_,result,_,touch_pointer returned⟩

theorem rm_line (table : Table s.vfs live) (is : line.bytes = literal "rm " ++ t) :
    ∃ s' result calls, executeCommand line.pointer s =
      some (s',.file (.remove (skipped (argsFrom 2 line)).pointer result) :: calls) := by
  rw [(executeCommand_dispatched line s).rm ⟨t,is.symm⟩]
  obtain ⟨result,vfs,returned,_⟩ :=
    table.command_meaning (.remove (some (skipped (argsFrom 2 line)))) trivial
  exact ⟨_,result,_,rm_pointer returned⟩

theorem rdf_line (table : Table s.vfs live) (is : line.bytes = literal "rdf " ++ t)
    {content : Option Bytes}
    (returned : Vfs.read (some (skipped (argsFrom 3 line)).pointer) s.vfs = some content) :
    ∃ calls, executeCommand line.pointer s =
      some (s,.file (.read (skipped (argsFrom 3 line)).pointer content) :: calls) := by
  rw [(executeCommand_dispatched line s).rdf ⟨t,is.symm⟩]
  obtain ⟨calls,ran,_⟩ := rdf_pointer table returned
  exact ⟨calls,ran⟩

theorem stat_line (table : Table s.vfs live) (is : line.bytes = literal "stat " ++ t) :
    ∃ result calls, executeCommand line.pointer s =
      some (s,.file (.stat (skipped (argsFrom 4 line)).pointer result) :: calls) := by
  rw [(executeCommand_dispatched line s).stat ⟨t,is.symm⟩]
  obtain ⟨result,calls,ran,_⟩ := stat_pointer table (argsFrom 4 line)
  exact ⟨result,calls,ran⟩

theorem short_contentOf (n : Nat) (short : Vfs.Short line) : Vfs.Short (contentOf (argsFrom n line)) :=
  Nat.lt_of_le_of_lt ((part_contentOf _).trans (List.drop_suffix n _)).length_le short

theorem nonblank_dropWhile (nonblank : ∃ b ∈ c, b ≠ space) : c.dropWhile (· = space) ≠ [] := by
  obtain ⟨b,member,apart⟩ := nonblank
  intro blank
  exact apart (by simpa using List.dropWhile_eq_nil_iff.mp blank b member)

/-- What rec and append call, with the path cut and the content from its first byte on. -/
structure Calls (s s' : State) (t c : Bytes) (command : CString → CString → Command)
    (call : Bytes → Bytes → FileResult → FileCall) (calls : List Call) : Prop where
  made : ∃ name content : CString, ∃ result, name.bytes = t.take (fileNameSize - 1) ∧
    content.bytes = c.dropWhile (· = space) ∧
    (command name content).run s.vfs = some (result,s'.vfs) ∧
    ∃ rest, calls = .file (call name.pointer content.pointer result) :: rest

theorem record_line (table : Table s.vfs live) (nonempty : t ≠ []) (noSpace : space ∉ t)
    (nonblank : ∃ b ∈ c, b ≠ space) (short : Vfs.Short line)
    (is : line.bytes = literal "rec " ++ t ++ space :: c) : ∃ s' calls,
      executeCommand line.pointer s = some (s',calls) ∧
        Calls s s' t c (fun name content => .write (some name) (some content)) .write calls := by
  have begins : literal "rec " <+: line.bytes := ⟨t ++ space :: c,by rw [is,List.append_assoc]⟩
  have args : (argsFrom 3 line).bytes = space :: t ++ space :: c := by
    simp only [argsFrom,tail,is]
    rfl
  have name := token_pair nonempty noSpace args
  have content := content_pair nonempty noSpace args
  rw [(executeCommand_dispatched line s).record begins]
  obtain ⟨result,vfs,returned,_⟩ := table.command_meaning (.write
    (some (token (skipped (argsFrom 3 line)))) (some (contentOf (argsFrom 3 line))))
    (short_contentOf 3 short)
  have named : (token (skipped (argsFrom 3 line))).bytes ≠ [] := by
    rw [name]
    simpa [fileNameSize] using nonempty
  have filled : (contentOf (argsFrom 3 line)).bytes ≠ [] := by
    rw [content]
    exact nonblank_dropWhile nonblank
  exact ⟨_,_,record_pointer named filled returned,⟨_,_,result,name,content,returned,_,rfl⟩⟩

theorem append_line (table : Table s.vfs live) (nonempty : t ≠ []) (noSpace : space ∉ t)
    (short : Vfs.Short line) (is : line.bytes = literal "append " ++ t ++ space :: c) : ∃ s' calls,
      executeCommand line.pointer s = some (s',calls) ∧
        Calls s s' t c (fun name content => .append (some name) (some content)) .append calls := by
  have begins : literal "append " <+: line.bytes := ⟨t ++ space :: c,by rw [is,List.append_assoc]⟩
  have args : (argsFrom 6 line).bytes = space :: t ++ space :: c := by
    simp only [argsFrom,tail,is]
    rfl
  rw [(executeCommand_dispatched line s).append begins]
  obtain ⟨result,vfs,returned,_⟩ := table.command_meaning (.append
    (some (token (skipped (argsFrom 6 line)))) (some (contentOf (argsFrom 6 line))))
    (short_contentOf 6 short)
  exact ⟨_,_,append_pointer returned,⟨_,_,result,token_pair nonempty noSpace args,
    content_pair nonempty noSpace args,returned,_,rfl⟩⟩

theorem args_single {word : Bytes} {n : Nat} (is : line.bytes = word ++ t) (inside : n ≤ word.length)
    (ends : word.drop n = [space]) : (argsFrom n line).bytes = space :: t := by
  simp only [argsFrom,tail,is]
  rw [List.drop_append_of_le_length inside,ends,List.singleton_append]

theorem short_line (fits : (literal "append " ++ t ++ space :: c).length < bufferSize)
    (is : line.bytes ∈ linesAbout t c) : Vfs.Short line := by
  have small : line.bytes.length ≤ (literal "append " ++ t ++ space :: c).length := by
    simp only [linesAbout,List.mem_cons,List.not_mem_nil,or_false] at is
    rcases is with is | is | is | is | is | is <;> rw [is] <;> simp [literal] <;> omega
  exact Nat.lt_trans (Nat.lt_of_le_of_lt small fits) (by decide)

theorem norm_cut (noNul : 0 ∉ t) {name : CString} (is : name.bytes = t.take (fileNameSize - 1)) :
    norm (some name.pointer) = norm (some (t.take (fileNameSize - 1) ++ [0])) :=
  norm_single (fun member => noNul (List.mem_of_mem_take member)) name is

section
variable (nonempty : t ≠ []) (noNul : 0 ∉ t) (noSpace : space ∉ t)
  (same : norm (some (t.take (fileNameSize - 1) ++ [0])) = norm (some (t ++ [0])))
include nonempty noNul noSpace

theorem norm_args {word : Bytes} {n : Nat} (is : line.bytes = word ++ t) (inside : n ≤ word.length)
    (ends : word.drop n = [space]) :
    norm (some (skipped (argsFrom n line)).pointer) = norm (some (t ++ [0])) :=
  norm_single noNul _ (skipped_single nonempty noSpace (args_single is inside ends))

include same in
theorem resolves_of_norm (table : Table s.vfs live) (nonblank : ∃ b ∈ c, b ≠ space)
    (small : Vfs.Short line) (is : line.bytes ∈ linesAbout t c) : ∃ s' call calls,
      executeCommand line.pointer s = some (s',.file call :: calls) ∧
        norm (some call.path) = norm (some (t ++ [0])) := by
  simp only [linesAbout,List.mem_cons,List.not_mem_nil,or_false] at is
  rcases is with is | is | is | is | is | is
  · obtain ⟨s',_,calls,ran⟩ := touch_line table is
    exact ⟨s',_,calls,ran,norm_args nonempty noNul noSpace is (by decide) rfl⟩
  · obtain ⟨_,returned,_⟩ := read_live table (skipped (argsFrom 3 line))
    obtain ⟨calls,ran⟩ := rdf_line table is returned
    exact ⟨s,_,calls,ran,norm_args nonempty noNul noSpace is (by decide) rfl⟩
  · obtain ⟨_,calls,ran⟩ := stat_line table is
    exact ⟨s,_,calls,ran,norm_args nonempty noNul noSpace is (by decide) rfl⟩
  · obtain ⟨s',_,calls,ran⟩ := rm_line table is
    exact ⟨s',_,calls,ran,norm_args nonempty noNul noSpace is (by decide) rfl⟩
  · obtain ⟨s',_,ran,name,_,_,named,_,_,rest,rfl⟩ :=
      record_line table nonempty noSpace nonblank small is
    exact ⟨s',_,rest,ran,(norm_cut noNul named).trans same⟩
  · obtain ⟨s',_,ran,name,_,_,named,_,_,rest,rfl⟩ := append_line table nonempty noSpace small is
    exact ⟨s',_,rest,ran,(norm_cut noNul named).trans same⟩

include same in
theorem recorded_of_norm (table : Table s.vfs live) (nonblank : ∃ b ∈ c, b ≠ space)
    (small : Vfs.Short line) (text : c.head? ≠ some space)
    (is : line.bytes = literal "rec " ++ t ++ space :: c) {s' : State} {path content : Bytes}
    {calls : List Call}
    (ran : executeCommand line.pointer s = some (s',.file (.write path content .ok) :: calls))
    {reading : CString} (reads : reading.bytes = literal "rdf " ++ t) : ∃ path text calls,
      executeCommand reading.pointer s' = some (s',.file (.read path (some text)) :: calls) ∧
        upTo 0 text = c := by
  obtain ⟨s'',_,again,name,stored,result,named,filled,returned,rest,rfl⟩ :=
    record_line table nonempty noSpace nonblank small is
  rw [ran] at again
  obtain ⟨rfl,same_calls⟩ := Prod.mk.inj (Option.some.inj again)
  obtain ⟨same_call,rfl⟩ := List.cons.inj same_calls
  cases same_call
  obtain ⟨live',outcome⟩ := table.returned returned
  have whole : stored.bytes = c := by
    rw [filled]
    cases c with
    | nil => rfl
    | cons b c => exact List.dropWhile_cons_of_neg (by simpa using text)
  obtain ⟨old,there⟩ := FileMap.update_content (outcome.meaning table)
  obtain ⟨data,read,_,is_content⟩ :=
    (outcome.table table).read (some (skipped (argsFrom 3 reading)))
  have file : norm (pointerOf (some (skipped (argsFrom 3 reading)))) = norm (pointerOf (some name)) := by
    show norm (some _) = norm (some _)
    rw [norm_args nonempty noNul noSpace reads (by decide) rfl,norm_cut noNul named,same]
  rw [file,there] at is_content
  obtain ⟨text,rfl,ends⟩ := Option.map_eq_some_iff.mp is_content
  obtain ⟨calls,done⟩ := rdf_line (outcome.table table) reads read
  exact ⟨_,text,calls,done,ends.trans whole⟩

include same in
theorem others_of_norm (table : Table s.vfs live) (nonblank : ∃ b ∈ c, b ≠ space)
    (small : Vfs.Short line)
    (is : line.bytes ∈ [literal "rec " ++ t ++ space :: c,literal "append " ++ t ++ space :: c])
    {s' : State} {calls : List Call} (ran : executeCommand line.pointer s = some (s',calls))
    {other : Bytes} (apart : norm (some (t ++ [0])) ≠ some other) :
    (fileMap s'.vfs).lookup other = (fileMap s.vfs).lookup other := by
  simp only [List.mem_cons,List.not_mem_nil,or_false] at is
  rcases is with is | is
  · obtain ⟨_,_,again,name,_,_,named,_,returned,_⟩ :=
      record_line table nonempty noSpace nonblank small is
    rw [ran] at again
    cases again
    exact table.others returned fun here => apart (same.symm.trans ((norm_cut noNul named).symm.trans here))
  · obtain ⟨_,_,again,name,_,_,named,_,returned,_⟩ := append_line table nonempty noSpace small is
    rw [ran] at again
    cases again
    exact table.others returned fun here => apart (same.symm.trans ((norm_cut noNul named).symm.trans here))

theorem sameName_norm (table : Table s.vfs live) (clean : 0 ∉ c) (nonblank : ∃ b ∈ c, b ≠ space)
    (fits : (literal "append " ++ t ++ space :: c).length < bufferSize) :
    SameName s t c ↔ norm (some (t.take (fileNameSize - 1) ++ [0])) = norm (some (t ++ [0])) := by
  have writers : ∀ bytes,
      bytes ∈ [literal "rec " ++ t ++ space :: c,literal "append " ++ t ++ space :: c] →
        bytes ∈ linesAbout t c := by
    intro bytes is
    simp only [linesAbout,List.mem_cons,List.not_mem_nil,or_false] at is ⊢
    tauto
  constructor
  · rintro ⟨resolves,_,_⟩
    have rec_is : literal "rec " ++ t ++ space :: c ∈ linesAbout t c := writers _ (by simp)
    have noNul_line : 0 ∉ literal "rec " ++ t ++ space :: c := by
      have front : 0 ∉ literal "rec " := by decide
      have blank : (0 : UInt8) ≠ space := by decide
      simp only [List.mem_append,List.mem_cons,front,noNul,clean,blank,or_false,not_false_eq_true]
    obtain ⟨line,is⟩ : ∃ line : CString, line.bytes = literal "rec " ++ t ++ space :: c :=
      ⟨⟨_,[],noNul_line,by simp [literal,bufferSize] at fits ⊢; omega⟩,rfl⟩
    rw [← is] at rec_is
    obtain ⟨s',call,calls,ran,there⟩ := resolves line rec_is
    obtain ⟨_,_,again,name,_,_,named,_,_,_,rfl⟩ :=
      record_line table nonempty noSpace nonblank (short_line fits rec_is) is
    rw [ran] at again
    cases again
    rw [← norm_cut noNul named]
    exact there
  · intro same
    exact {
      resolves := fun line is =>
        resolves_of_norm nonempty noNul noSpace same table nonblank (short_line fits is) is
      recorded := fun text line is _ _ _ _ ran _ reads =>
        recorded_of_norm nonempty noNul noSpace same table nonblank
          (short_line fits (writers _ (by simp [is]))) text is ran reads
      others := fun line is _ _ ran _ apart =>
        others_of_norm nonempty noNul noSpace same table nonblank (short_line fits (writers _ is)) is
          ran apart }

end

end

/-- The token fits into the buffer of rec and append, or names no file, whole or cut. -/
theorem same_name_iff {s : State} (run : Reaches s.vfs) {t c : Bytes} (nonempty : t ≠ [])
    (noNul : 0 ∉ t) (noSpace : space ∉ t) (clean : 0 ∉ c) (nonblank : ∃ b ∈ c, b ≠ space)
    (fits : (literal "append " ++ t ++ space :: c).length < bufferSize) :
    SameName s t c ↔ t.length < fileNameSize ∨
      ¬ValidName ((t.take (fileNameSize - 1)).dropWhile isPathSeparator) ∧
        ¬ValidName (t.dropWhile isPathSeparator) := by
  obtain ⟨live,table⟩ := run.table
  rw [sameName_norm nonempty noNul noSpace table clean nonblank fits]
  by_cases short : t.length < fileNameSize
  · have whole : t.take (fileNameSize - 1) = t := List.take_of_length_le (Nat.le_sub_one_of_lt short)
    rw [whole]
    simp [short]
  · rw [norm_take noNul (by simp only [fileNameSize] at short ⊢; omega)]
    simp [short]

def sampleState : State where
  vfs := (Vfs.init Vfs.blankSystem).1
  apps := ⟨Vector.replicate App.maxApps App.zeroBundle,0⟩
  language := .en
  cpuid := ⟨0,0,0⟩

theorem same_name_iff_sample : SameName sampleState (literal "/a") (literal "b") :=
  (same_name_iff (.init _) (by decide) (by decide) (by decide) (by decide) ⟨98,by decide,by decide⟩
    (by decide)).mpr (.inl (by decide))

/-- A token of 32 letters. -/
def longToken : Bytes := List.replicate fileNameSize 97

/-- touch refuses the token, rec and append cut its last letter. -/
theorem long_token_differs : Reaches sampleState.vfs ∧ longToken ≠ [] ∧ 0 ∉ longToken ∧
    space ∉ longToken ∧ (literal "append " ++ longToken ++ space :: literal "b").length < bufferSize ∧
    ¬SameName sampleState longToken (literal "b") := by
  have nonempty : longToken ≠ [] := by decide
  have noNul : 0 ∉ longToken := by decide
  have noSpace : space ∉ longToken := by decide
  have fits : (literal "append " ++ longToken ++ space :: literal "b").length < bufferSize := by decide
  have run : Reaches sampleState.vfs := .init _
  refine ⟨run,nonempty,noNul,noSpace,fits,fun same => ?_⟩
  obtain ⟨live,table⟩ := run.table
  rw [sameName_norm nonempty noNul noSpace table (by decide) ⟨98,by decide,by decide⟩ fits] at same
  revert same
  decide +kernel

end Xbtos.Shell
