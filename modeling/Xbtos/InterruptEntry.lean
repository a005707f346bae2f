import Xbtos.Foundation.Processor
import Xbtos.Hal

/-! The interrupt routines of kernel/hal/interrupt.S and boot/boot.asm, and the frame they share
with the handlers. A stub is taken for a vector, not for the symbol its macro is expanded with. -/
namespace Xbtos.Hal
open Foundation.ByteMemory Foundation.Processor

/-- The context of an interrupt, in the order in which it is laid out in memory. -/
structure Registers where
  gs : UInt32
  fs : UInt32
  es : UInt32
  ds : UInt32
  edi : UInt32
  esi : UInt32
  ebp : UInt32
  esp : UInt32
  ebx : UInt32
  edx : UInt32
  ecx : UInt32
  eax : UInt32
  intNo : UInt32
  errCode : UInt32
  eip : UInt32
  cs : UInt32
  eflags : UInt32
  useresp : UInt32
  ss : UInt32

/-- The packed structure that a pointer to Registers points to. -/
def readRegisters (m : Memory) (a : Nat) : Registers where
  gs := word m a
  fs := word m (a + 4)
  es := word m (a + 8)
  ds := word m (a + 12)
  edi := word m (a + 16)
  esi := word m (a + 20)
  ebp := word m (a + 24)
  esp := word m (a + 28)
  ebx := word m (a + 32)
  edx := word m (a + 36)
  ecx := word m (a + 40)
  eax := word m (a + 44)
  intNo := word m (a + 48)
  errCode := word m (a + 52)
  eip := word m (a + 56)
  cs := word m (a + 60)
  eflags := word m (a + 64)
  useresp := word m (a + 68)
  ss := word m (a + 72)

/-- The vectors for which the processor pushes an error code. -/
def errcodeList : Nat :=
  1 <<< 8 ||| 1 <<< 10 ||| 1 <<< 11 ||| 1 <<< 12 ||| 1 <<< 13 ||| 1 <<< 14 ||| 1 <<< 17 ||| 1 <<< 21 |||
    1 <<< 29 ||| 1 <<< 30

section
variable {σ : Type}

def commonStub (returnTo : UInt32) (halInterruptDispatcher : Routine σ) : List (Instruction σ) :=
  [.pushal,.pushSegment .ds,.pushSegment .es,.pushSegment .fs,.pushSegment .gs,
    .moveWord 0x10 .eax,.loadSegment .eax .ds,.loadSegment .eax .es,.loadSegment .eax .fs,
    .loadSegment .eax .gs,
    .move .esp .eax,.push .eax,.call returnTo halInterruptDispatcher,.add 4 .esp,
    .popSegment .gs,.popSegment .fs,.popSegment .es,.popSegment .ds,.popal,
    .add 8 .esp,.iret]

def isrNoErrcode (vector : UInt8) (returnTo : UInt32) (halInterruptDispatcher : Routine σ) :
    List (Instruction σ) :=
  [.pushImmediate 0,.pushImmediate vector.toUInt32] ++ commonStub returnTo halInterruptDispatcher

def isrErrcode (vector : UInt8) (returnTo : UInt32) (halInterruptDispatcher : Routine σ) :
    List (Instruction σ) :=
  [.pushImmediate vector.toUInt32] ++ commonStub returnTo halInterruptDispatcher

def hasErrcode (vector : UInt8) : Bool := (errcodeList >>> vector.toNat) &&& 1 = 1

def isr (vector : UInt8) (returnTo : UInt32) (halInterruptDispatcher : Routine σ) :
    List (Instruction σ) :=
  if hasErrcode vector then isrErrcode vector returnTo halInterruptDispatcher
  else isrNoErrcode vector returnTo halInterruptDispatcher

def keyboardHandlerAsm (returnTo : UInt32) (keyboardHandler : Routine σ) : List (Instruction σ) :=
  [.pushal,.call returnTo keyboardHandler,.popal,.iret]

end

/-! What a stub has saved when it calls the dispatcher. -/

def saving {σ : Type} : List (Instruction σ) :=
  [.pushal,.pushSegment .ds,.pushSegment .es,.pushSegment .fs,.pushSegment .gs,
    .moveWord 0x10 .eax,.loadSegment .eax .ds,.loadSegment .eax .es,.loadSegment .eax .fs,
    .loadSegment .eax .gs,.move .esp .eax,.push .eax]

def restoring {σ : Type} : List (Instruction σ) :=
  [.add 4 .esp,.popSegment .gs,.popSegment .fs,.popSegment .es,.popSegment .ds,.popal,.add 8 .esp,.iret]

theorem commonStub_parts {σ : Type} (returnTo : UInt32) (dispatcher : Routine σ) :
    commonStub returnTo dispatcher = saving ++ .call returnTo dispatcher :: restoring := rfl

/-- The data segments of the kernel, and the address of the frame for the dispatcher. -/
def withFrame (c : Cpu) : Cpu :=
  push c.esp { c with eax := c.esp, ds := 0x10, es := 0x10, fs := 0x10, gs := 0x10 }

theorem run_frame {σ : Type} (c : Cpu) (s : σ) :
    run [.moveWord 0x10 .eax,.loadSegment .eax .ds,.loadSegment .eax .es,.loadSegment .eax .fs,
      .loadSegment .eax .gs,.move .esp .eax,.push .eax] (c,s) = some (withFrame c,s) := by
  have selector := low_half c.eax 0x10
  simp only [run,execute,Cpu.get,Cpu.set,Cpu.load,Option.bind_some,selector,withFrame]

theorem run_saving {σ : Type} {c c' : Cpu} {words : List UInt32} (pushed : Pushed c c' words)
    (room : 4 * (words.length + 13) ≤ c.esp.toNat) (s : σ) :
    ∃ saved frame ds es fs gs, run saving (c',s) = some (withFrame saved,s) ∧ OnlyStack c' saved ∧
      frame.toNat + 4 * (words.length + 12) = c.esp.toNat ∧
      Pushed c (withFrame saved) (frame :: gs :: fs :: es :: ds ::
        c'.edi :: c'.esi :: c'.ebp :: c'.esp :: c'.ebx :: c'.edx :: c'.ecx :: c'.eax :: words) ∧
      ds.toUInt16 = c'.ds ∧ es.toUInt16 = c'.es ∧ fs.toUInt16 = c'.fs ∧ gs.toUInt16 = c'.gs := by
  have general := pushed.pushal (by omega)
  have only := pushal_only c'
  obtain ⟨c₁,ds,ran₁,lowDs,only₁,pushed₁⟩ := general.segment .ds s (by simp only [List.length_cons]; omega)
  obtain ⟨c₂,es,ran₂,lowEs,only₂,pushed₂⟩ := pushed₁.segment .es s (by simp only [List.length_cons]; omega)
  obtain ⟨c₃,fs,ran₃,lowFs,only₃,pushed₃⟩ := pushed₂.segment .fs s (by simp only [List.length_cons]; omega)
  obtain ⟨c₄,gs,ran₄,lowGs,only₄,pushed₄⟩ := pushed₃.segment .gs s (by simp only [List.length_cons]; omega)
  have upTo₁ := only.trans only₁
  have upTo₂ := upTo₁.trans only₂
  have upTo₃ := upTo₂.trans only₃
  have frame := pushed₄.push c₄.esp (by simp only [List.length_cons]; omega)
  have deep := pushed₄.depth
  simp only [List.length_cons] at deep
  refine ⟨c₄,c₄.esp,ds,es,fs,gs,?_,upTo₃.trans only₄,by omega,frame.beside rfl rfl,
    lowDs.trans (only.selector .ds),lowEs.trans (upTo₁.selector .es),lowFs.trans (upTo₂.selector .fs),
    lowGs.trans (upTo₃.selector .gs)⟩
  have pushal : execute (.pushal : Instruction σ) (c',s) = some (pushal c',s) := rfl
  unfold saving
  rw [run,pushal,Option.bind_some,run,ran₁,Option.bind_some,run,ran₂,Option.bind_some,run,ran₃,
    Option.bind_some,run,ran₄,Option.bind_some]
  exact run_frame c₄ s

/-- The context of the interrupted program as it is laid out for the dispatcher. The last two
fields are words of the stack of that program, since the privilege level has not changed. -/
structure Presents (i : Interrupt) (c : Cpu) (regs : Registers) : Prop where
  gs : regs.gs.toUInt16 = c.gs
  fs : regs.fs.toUInt16 = c.fs
  es : regs.es.toUInt16 = c.es
  ds : regs.ds.toUInt16 = c.ds
  edi : regs.edi = c.edi
  esi : regs.esi = c.esi
  ebp : regs.ebp = c.ebp
  esp : regs.esp = c.esp - 20
  ebx : regs.ebx = c.ebx
  edx : regs.edx = c.edx
  ecx : regs.ecx = c.ecx
  eax : regs.eax = c.eax
  intNo : regs.intNo = i.vector.toUInt32
  errCode : regs.errCode = i.errorCode.getD 0
  eip : regs.eip = c.eip
  cs : regs.cs.toUInt16 = c.cs
  eflags : regs.eflags = savedFlags i c
  useresp : regs.useresp = word c.memory c.esp.toNat
  ss : regs.ss = word c.memory (c.esp.toNat + 4)

/-- The state in which the dispatcher is entered. -/
structure Entered (i : Interrupt) (c entered : Cpu) : Prop where
  depth : entered.esp.toNat + 76 = c.esp.toNat
  argument : (word entered.memory (entered.esp.toNat + 4)).toNat = entered.esp.toNat + 8
  frame : Presents i c (readRegisters entered.memory (entered.esp.toNat + 8))
  kept : ∀ x, x < entered.esp.toNat ∨ c.esp.toNat ≤ x → entered.memory x = c.memory x
  segments : ∀ source, entered.selector source = 0x10
  /-- The interrupt flag is one of those cleared. -/
  eflags : entered.eflags = c.eflags &&& ~~~gateFlags
  clearsUpper : entered.clearsUpper = c.clearsUpper

theorem run_pushes {σ : Type} (values : List UInt32) (code : List (Instruction σ)) (c : Cpu) (s : σ) :
    run (values.map .pushImmediate ++ code) (c,s) =
      run code (values.foldl (fun c value => push value c) c,s) := by
  induction values generalizing c with
  | nil => rfl
  | cons value values ih => exact ih (push value c)

theorem readRegisters_holds {m : Memory} {a : Nat}
    {gs fs es ds edi esi ebp esp ebx edx ecx eax intNo errCode eip cs eflags : UInt32}
    (holds : Holds m a [gs,fs,es,ds,edi,esi,ebp,esp,ebx,edx,ecx,eax,intNo,errCode,eip,cs,eflags]) :
    readRegisters m a = ⟨gs,fs,es,ds,edi,esi,ebp,esp,ebx,edx,ecx,eax,intNo,errCode,eip,cs,eflags,
      word m (a + 68),word m (a + 72)⟩ := by
  simp only [Holds,Nat.add_assoc,Nat.reduceAdd] at holds
  obtain ⟨isGs,isFs,isEs,isDs,isEdi,isEsi,isEbp,isEsp,isEbx,isEdx,isEcx,isEax,isIntNo,isErrCode,
    isEip,isCs,isEflags,_⟩ := holds
  rw [readRegisters,isGs,isFs,isEs,isDs,isEdi,isEsi,isEbp,isEsp,isEbx,isEdx,isEcx,isEax,isIntNo,
    isErrCode,isEip,isCs,isEflags]

theorem vector_pushed {σ : Type} (i : Interrupt) (agrees : i.errorCode.isSome = hasErrcode i.vector)
    (selector : UInt16) (offset : UInt32) {c : Cpu} (room : 20 ≤ c.esp.toNat) (returnTo : UInt32)
    (dispatcher : Routine σ) (s : σ) : ∃ c' cs, cs.toUInt16 = c.cs ∧
      run (isr i.vector returnTo dispatcher) (raise i selector offset c,s) =
        run (commonStub returnTo dispatcher) (c',s) ∧ OnlyStack (raise i selector offset c) c' ∧
      Pushed c c' [i.vector.toUInt32,i.errorCode.getD 0,c.eip,cs,savedFlags i c] := by
  obtain ⟨cs,low,raised⟩ := raise_pushed i selector offset (c := c) (by omega)
  generalize raise i selector offset c = d at raised ⊢
  unfold isr
  cases code : i.errorCode with
  | none =>
    rw [code] at agrees raised
    have zero := raised.push 0 (by grind)
    have vector := zero.push i.vector.toUInt32 (by grind)
    rw [if_neg (by rw [← agrees]; nofun)]
    have only := (push_only 0 d).trans (push_only i.vector.toUInt32 (push 0 d))
    exact ⟨_,cs,low,run_pushes [0,i.vector.toUInt32] _ d s,only,vector⟩
  | some errorCode =>
    rw [code] at agrees raised
    have vector := raised.push i.vector.toUInt32 (by grind)
    have has : hasErrcode i.vector = true := agrees.symm
    rw [if_pos has]
    exact ⟨_,cs,low,run_pushes [i.vector.toUInt32] _ d s,push_only _ d,vector⟩

/-- A stub calls the dispatcher with the context of what it interrupted, and then restores. -/
theorem isr_enters {σ : Type} (i : Interrupt) (agrees : i.errorCode.isSome = hasErrcode i.vector)
    (selector : UInt16) (offset : UInt32) {c : Cpu} (room : 76 ≤ c.esp.toNat) (returnTo : UInt32)
    (dispatcher : Routine σ) (s : σ) : ∃ entered, Entered i c entered ∧
      run (isr i.vector returnTo dispatcher) (raise i selector offset c,s) =
        (dispatcher (entered,s)).bind (run restoring) := by
  obtain ⟨c',cs,lowCs,stub,only,pushed⟩ :=
    vector_pushed i agrees selector offset (c := c) (by omega) returnTo dispatcher s
  have depth := pushed.depth
  obtain ⟨saved,frame,ds,es,fs,gs,ran,only',base,stacked,lowDs,lowEs,lowFs,lowGs⟩ :=
    run_saving pushed (by simp only [List.length_cons,List.length_nil]; omega) s
  have entry := stacked.push returnTo (by simp only [List.length_cons,List.length_nil]; omega)
  have deep := entry.depth
  simp only [List.length_cons,List.length_nil] at base deep depth
  have esp : c'.esp = c.esp - 20 := by
    apply UInt32.toNat_inj.mp
    rw [UInt32.toNat_sub_of_le _ _ (Nat.le_trans (by decide) room)]
    change _ = c.esp.toNat - 20
    omega
  have same := only.interrupted
  have upTo := only.trans only'
  refine ⟨push returnTo (withFrame saved),⟨deep,?_,?_,entry.kept,fun source => by cases source <;> rfl,
    (congrArg Cpu.eflags upTo :),?_⟩,?_⟩
  · rw [entry.holds.2.1]
    omega
  · rw [readRegisters_holds entry.holds.2.2]
    have above : ∀ n, c.esp.toNat ≤ n → word (push returnTo (withFrame saved)).memory n = word c.memory n :=
      fun n outside => word_congr fun x lower _ => entry.kept x (.inr (Nat.le_trans outside lower))
    exact {
      gs := lowGs.trans (congrArg Cpu.gs same :)
      fs := lowFs.trans (congrArg Cpu.fs same :)
      es := lowEs.trans (congrArg Cpu.es same :)
      ds := lowDs.trans (congrArg Cpu.ds same :)
      edi := (congrArg Cpu.edi same :)
      esi := (congrArg Cpu.esi same :)
      ebp := (congrArg Cpu.ebp same :)
      esp := esp
      ebx := (congrArg Cpu.ebx same :)
      edx := (congrArg Cpu.edx same :)
      ecx := (congrArg Cpu.ecx same :)
      eax := (congrArg Cpu.eax same :)
      intNo := rfl
      errCode := rfl
      eip := rfl
      cs := lowCs
      eflags := rfl
      useresp := (above _ (by omega)).trans (congrArg (word c.memory) (by omega))
      ss := (above _ (by omega)).trans (congrArg (word c.memory) (by omega)) }
  · exact (congrArg Cpu.clearsUpper only' :).trans (congrArg Cpu.clearsUpper same :)
  · rw [stub,commonStub_parts,run_append,ran,Option.bind_some,run,execute]

/-! What comes back. -/

/-- The context that a frame holds, with a stack pointer of its own. -/
def resumed (regs : Registers) (esp : UInt32) (c : Cpu) : Cpu :=
  { c with
    eax := regs.eax, ecx := regs.ecx, edx := regs.edx, ebx := regs.ebx, esp := esp
    ebp := regs.ebp, esi := regs.esi, edi := regs.edi, ds := regs.ds.toUInt16, es := regs.es.toUInt16
    fs := regs.fs.toUInt16, gs := regs.gs.toUInt16, cs := regs.cs.toUInt16, eip := regs.eip
    eflags := regs.eflags }

theorem offset_toNat {esp : UInt32} (n : UInt32) (most : Nat) (room : esp.toNat + most < 2^32)
    (small : n.toNat ≤ most) : (esp + n).toNat = esp.toNat + n.toNat := by
  rw [UInt32.toNat_add]
  exact Nat.mod_eq_of_lt (by omega)

theorem run_restoring {σ : Type} {c : Cpu} (room : c.esp.toNat + 68 < 2^32) (s : σ) :
    run restoring (c,s) = some (resumed (readRegisters c.memory (c.esp.toNat + 4)) (c.esp + 72) c,s) := by
  simp only [restoring,run,execute,Cpu.get,Cpu.set,Cpu.load,top,drop,popal,iret,Option.bind_some,
    UInt32.add_assoc,UInt32.reduceAdd]
  have slot := fun n => offset_toNat n 68 room
  simp (disch := decide) only [slot]
  rfl

/-- The dispatcher finds the whole context of the interrupted program in its frame, and if it
returns, what it leaves there, the stack pointer apart, is the context with which that program
goes on. -/
theorem isr_runs {σ : Type} (i : Interrupt) (agrees : i.errorCode.isSome = hasErrcode i.vector)
    (selector : UInt16) (offset : UInt32) {c : Cpu} (room : 76 ≤ c.esp.toNat) (returnTo : UInt32)
    (dispatcher : Routine σ) (s : σ) : ∃ entered, Entered i c entered ∧
      ((∀ c' s', dispatcher (entered,s) = some (c',s') → c'.esp = entered.esp + 4) →
        run (isr i.vector returnTo dispatcher) (raise i selector offset c,s) =
          (dispatcher (entered,s)).map fun (c',s') =>
            (resumed (readRegisters c'.memory (entered.esp.toNat + 8)) c.esp c',s')) := by
  obtain ⟨entered,entry,stub⟩ := isr_enters i agrees selector offset room returnTo dispatcher s
  refine ⟨entered,entry,fun returns => ?_⟩
  rw [stub]
  cases called : dispatcher (entered,s) with
  | none => rfl
  | some m =>
    obtain ⟨c',s'⟩ := m
    have depth := entry.depth
    have bound := c.esp.toNat_lt
    have esp : c'.esp.toNat = entered.esp.toNat + 4 := by
      rw [returns c' s' called]
      exact offset_toNat 4 76 (depth ▸ bound) (by decide)
    have whole : c'.esp + 72 = c.esp := by
      apply UInt32.toNat_inj.mp
      rw [← depth,offset_toNat 72 72 (by omega) (by decide),esp]
      rfl
    have restored := run_restoring (c := c') (by omega) s'
    rw [esp,whole] at restored
    rw [Option.bind_some,restored]
    rfl

/-! A handler that leaves the frame alone. -/

/-- The context of an interrupt or a trap, taken back as it was. -/
theorem Presents.resumed {i : Interrupt} {c : Cpu} {regs : Registers} (presents : Presents i c regs)
    (plain : i.resume = false) (d : Cpu) : Hal.resumed regs c.esp d =
      { c with memory := d.memory, clearsUpper := d.clearsUpper } := by
  have eflags : regs.eflags = c.eflags := by
    rw [presents.eflags,savedFlags,plain]
    rfl
  rw [Hal.resumed,presents.eax,presents.ecx,presents.edx,presents.ebx,presents.ebp,presents.esi,
    presents.edi,presents.ds,presents.es,presents.fs,presents.gs,presents.cs,presents.eip,eflags]

/-! The routine of boot.asm, which keeps no frame and leaves the segments to the handler. -/

end Xbtos.Hal
