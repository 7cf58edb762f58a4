import AcrnGuest.IdtEntries
import AcrnGuest.InterruptEntry

/-!
# Emulated external interrupts (`lib/x86/isr.c`)

`handle_external_interrupt` runs the handler of a vector without an interrupt: it takes the
address from `boot_idt`, aligns the stack, pushes what the processor would push and calls the
address. The call pushes the return address as the instruction pointer of the frame, and the
`iretq` of the handler takes the place of a `ret`.

The state in which the handler begins is the one that the processor's own delivery leaves
(`handleExternalInterrupt_eq`), so that the results on interrupts hold for the emulation.
-/

namespace AcrnGuest.InterruptEntry

open Amd64

/-! ### The source -/

def KERNEL_CS : Quad := 0x08#64
def KERNEL_DS : Quad := 0x10#64

/-- What the compiler chose for the asm statement: the register of `sp` and the address behind the
    call; and what `and` and `orl` leave in the flags. -/
structure CallSite where
  sp : Reg
  sp_ne : sp ≠ .rsp
  next : Quad
  andFlags : Quad
  orFlags : Quad

/-- `orl $v, (%rsp)` changes the low half of the word. -/
def orlTop (c : Cpu) (v : BitVec 32) : Cpu :=
  { c with mem := c.mem.store (c.reg .rsp) ((c.mem.load64 (c.reg .rsp)).setWidth 32 ||| v) }

/-- The function up to the first instruction of the handler. -/
def handleExternalInterrupt (site : CallSite) (bootIdt : Word) (vector : Fin 256) (c : Cpu) : Cpu :=
  let entry := externalInterruptEntry c.mem bootIdt vector
  let c := c.set site.sp (c.reg .rsp)
  let c := { c.set .rsp (c.reg .rsp &&& 0xfffffffffffffff0#64) with rflags := site.andFlags }
  let c := (c.pushWord KERNEL_DS).pushWord (c.reg site.sp)
  let c := { orlTop (c.pushWord c.rflags) 0x200#32 with rflags := site.orFlags }
  let c := c.pushWord KERNEL_CS
  { c.pushWord site.next with rip := entry }

/-- The handler runs as behind an interrupt: from the thunk of its vector to the `iretq`. -/
def Emulated (alu : Alu) (functions : Functions) (isrEntryPoint : Quad) (scratch : Nat)
    (site : CallSite) (bootIdt : Word) (vector : Fin 256) (c c' : Cpu) : Prop :=
  ∃ x y, ((fetch alu (handleExternalInterrupt site bootIdt vector c)).bind fun c =>
    (fetch alu c).bind fun c =>
      (fetch alu c).bind (fetch alu)) = some x ∧ x.rip = isrEntryPoint ∧
    Called scratch (fun m => functions (callTarget (x.run alu saveRegisters)) m
      ((x.run alu saveRegisters).reg .rdi))
      (x.run alu saveRegisters) y ∧
    c' = (y.run alu restoreRegisters).iretq

/-! ### The delivery that it stands for -/

/-- The gate through which the interrupt seems to come: on the same stack. -/
def CallSite.gate (site : CallSite) (entry : Quad) (c : Cpu) : Gate :=
  ⟨entry, c.reg .rsp, c.cs, c.ss, site.orFlags, false⟩

/-- The code that the interrupt seems to interrupt: the one behind the call, with interrupts
    enabled. -/
def CallSite.behind (site : CallSite) (c : Cpu) : Cpu :=
  { c.set site.sp (c.reg .rsp) with
    rip := site.next
    rflags := site.andFlags ||| 0x200#64
    cs := KERNEL_CS
    ss := KERNEL_DS }

theorem store_or (m : ByteMemory) (a v : Quad) (w : BitVec 32) :
    (m.store a v).store a (v.setWidth 32 ||| w) = m.store a (v ||| w.setWidth 64) := by
  funext b
  by_cases hlow : (b - a).toNat < 4
  · rw [ByteMemory.store, if_pos (by omega), ByteMemory.store, if_pos (by omega)]
    refine BitVec.eq_of_getLsbD_eq fun i hi => ?_
    simp only [BitVec.getLsbD_extractLsb', BitVec.getLsbD_or, BitVec.getLsbD_setWidth]
    grind
  by_cases hhigh : (b - a).toNat < 8
  · rw [ByteMemory.store_apart _ (by omega), ByteMemory.store, if_pos (by omega), ByteMemory.store,
      if_pos (by omega)]
    refine BitVec.eq_of_getLsbD_eq fun i hi => ?_
    have hhalf : w.getLsbD (8 * (b - a).toNat + i) = false := BitVec.getLsbD_of_ge _ _ (by omega)
    simp only [BitVec.getLsbD_extractLsb', BitVec.getLsbD_or, BitVec.getLsbD_setWidth, hhalf,
      Bool.and_false, Bool.or_false]
  · rw [ByteMemory.store_apart _ (by omega), ByteMemory.store_apart _ (by omega),
      ByteMemory.store_apart _ (by omega)]

theorem orlTop_pushWord (c : Cpu) (v : Quad) (w : BitVec 32) :
    orlTop (c.pushWord v) w = c.pushWord (v ||| w.setWidth 64) := by
  have hrsp : (c.pushWord v).reg .rsp = c.reg .rsp - 8#64 := by
    rw [Cpu.pushWord_reg, Function.update_self]
  have hword : (c.pushWord v).mem.load64 (c.reg .rsp - 8#64) = v := ByteMemory.load64_store _ _ _
  rw [orlTop, hrsp, hword]
  exact congrArg (Cpu.mk _ · _ _ _ _) (store_or _ _ _ _)

/-- The handler begins in the state that a delivery by the processor leaves. -/
theorem handleExternalInterrupt_eq (site : CallSite) (bootIdt : Word) (vector : Fin 256) (c : Cpu) :
    handleExternalInterrupt site bootIdt vector c
      = (site.gate (externalInterruptEntry c.mem bootIdt vector) c).deliver
        (site.behind c) none := by
  have hsp : Function.update (Function.update c.reg site.sp (c.reg .rsp)) .rsp
      (c.reg .rsp &&& 0xfffffffffffffff0#64) site.sp = c.reg .rsp := by
    rw [Function.update_of_ne site.sp_ne, Function.update_self]
  have hrsp : Function.update c.reg site.sp (c.reg .rsp) .rsp = c.reg .rsp :=
    Function.update_of_ne (Ne.symm site.sp_ne) _ _
  simp only [handleExternalInterrupt, orlTop_pushWord, Cpu.set_reg, hsp, hrsp, Gate.deliver,
    CallSite.behind, Option.elim_none]
  rfl

theorem emulated_iff (alu : Alu) (functions : Functions) (isrEntryPoint : Quad) (scratch : Nat)
    (site : CallSite) (bootIdt : Word) (vector : Fin 256) (c c' : Cpu) :
    Emulated alu functions isrEntryPoint scratch site bootIdt vector c c' ↔
      Interrupted alu functions isrEntryPoint scratch
        (site.gate (idtTable bootIdt c.mem vector).offset c) (site.behind c) c' := by
  rw [Emulated, handleExternalInterrupt_eq, externalInterruptEntry_eq]
  rfl

/-- If the gate of the vector leads to a thunk of `handle_irq`, the emulated interrupt runs the
    handler on the aligned stack, with the frame of an interrupt of the code behind the call and
    the rest of the memory as it was. That code then goes on with its registers, but for the one
    that took the stack pointer, and with interrupts enabled. It does go on if the thunk is near
    and the handler returns. -/
theorem external_interrupt_runs_handler (alu : Alu) (functions : Functions) (m₀ : ByteMemory)
    (isrEntryPoint func thunk top : Quad) (scratch : Nat) (site : CallSite) (bootIdt : Word)
    (vector : Fin 256) (c : Cpu) (hgate : (idtTable bootIdt c.mem vector).offset = thunk)
    (htop : c.reg .rsp &&& ~~~15#64 = top)
    (hcode : ∀ i < 24, c.mem (thunk + BitVec.ofNat 64 i)
      = handleIrq m₀ thunk func isrEntryPoint (thunk + BitVec.ofNat 64 i))
    (hoff : ∀ i < 24, ¬ Below top (scratch + 176) (thunk + BitVec.ofNat 64 i))
    (hroom : scratch + 176 < 2 ^ 64)
    (hkeep : KeepsFrame functions (site.gate thunk c) func (site.behind c)) :
    (∀ c', Emulated alu functions isrEntryPoint scratch site bootIdt vector c c' → ∃ m m',
      (∃ dummy, WordsAt m (top - 176#64)
        (frame (site.behind c) (site.andFlags ||| 0x200#64) dummy func)) ∧
      (∀ a, ¬ Below top 176 a → m a = c.mem a) ∧ functions func m (top - 176#64) = some m' ∧
      c' = ⟨Function.update c.reg site.sp (c.reg .rsp), c'.mem, site.next,
        site.andFlags ||| 0x200#64, KERNEL_CS, KERNEL_DS⟩ ∧
      ∀ a, ¬ Below top (scratch + 176) a → c'.mem a = m' a) ∧
    (Near thunk isrEntryPoint →
      (∀ m, FrameMemory (site.gate thunk c) func (site.behind c) m →
        (functions func m (top - 176#64)).isSome) →
      ∃ c', Emulated alu functions isrEntryPoint scratch site bootIdt vector c c') := by
  have htop' : (site.gate thunk c).top = top := htop
  have hcode' : ∀ i < 24, (site.behind c).mem ((site.gate thunk c).entry + BitVec.ofNat 64 i)
      = handleIrq m₀ (site.gate thunk c).entry func isrEntryPoint
        ((site.gate thunk c).entry + BitVec.ofNat 64 i) := hcode
  simp only [emulated_iff, hgate]
  rw [← htop'] at hoff ⊢
  refine ⟨fun c' h => ?_, fun hnear hreturns => ?_⟩
  · obtain ⟨m, m', hframe, hrun, hcontext, hmem⟩ := h.returns hcode' hoff hroom hkeep
    exact ⟨m, m', hframe.words, hframe.mem, hrun, hcontext, hmem⟩
  · exact exists_interrupted alu hcode' hoff hnear hreturns

theorem rax_ne_rsp : Reg.rax ≠ .rsp := by decide

def raxSite : CallSite := ⟨.rax, rax_ne_rsp, 0x44#64, 2#64, 2#64⟩

/-- The gate of vector 32 leads to a thunk at `0x5000`, and its handler does nothing. -/
def idleVector : ByteMemory :=
  handleIrq (setIdtEntryEx (fun _ => 0#8) 0x3000#64 32 0x5000#64 8#16 0#32 0#32) 0x5000#64
    0x700#64 0x600#64

theorem external_interrupt_runs_handler_idle :
    ∃ c', Emulated (fun _ c => c.rflags) (fun _ m _ => some m) 0x600#64 512 raxSite 0x3000#64 32
      ⟨fun _ => 0x8008#64, idleVector, 0x40#64, 2#64, 8#64, 16#64⟩ c' :=
  (external_interrupt_runs_handler (fun _ c => c.rflags) (fun _ m _ => some m)
    (setIdtEntryEx (fun _ => 0#8) 0x3000#64 32 0x5000#64 8#16 0#32 0#32) 0x600#64 0x700#64 0x5000#64
    0x8000#64 512 raxSite 0x3000#64 32
    ⟨fun _ => 0x8008#64, idleVector, 0x40#64, 2#64, 8#64, 16#64⟩ (by decide +kernel) (by decide)
    (fun _ _ => rfl) (by decide +kernel) (by decide)
    (fun m m' _ h a _ => by rw [Option.some.inj h])).2 (by unfold Near; decide) fun _ _ => rfl

end AcrnGuest.InterruptEntry
