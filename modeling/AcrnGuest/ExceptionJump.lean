import AcrnGuest.ExceptionEntry

/-!
# Tests that expect an exception (`lib/x86/setjmp64.S`, `lib/x86/desc.c`)

`test_for_exception` fills a jump buffer by `setjmp`, keeps its address in `exception_jmpbuf`
and calls the function under test. If that function raises the exception,
`exception_handler` lets `iretq` go to `exception_handler_longjmp`, which jumps back through the
buffer. The call of `setjmp` then returns for a second time, with 1.

The address is in one variable for all tests, and nothing restores it: the jump goes through
the buffer that was filled last.
-/

namespace AcrnGuest.ExceptionJump

open Amd64 AcrnGuest.ExceptionEntry

/-! ### The source -/

def setjmpCode : List Instr :=
  [.load .rsi .rsp 0#64,
   .store .rdi 0#64 .rsi,
   .store .rdi 0x8#64 .rsp,
   .store .rdi 0x10#64 .rbp,
   .store .rdi 0x18#64 .rbx,
   .store .rdi 0x20#64 .r12,
   .store .rdi 0x28#64 .r13,
   .store .rdi 0x30#64 .r14,
   .store .rdi 0x38#64 .r15,
   .clear .rax]

def longjmpCode : List Instr :=
  [.movLow .rax .rsi,
   .load .r15 .rdi 0x38#64,
   .load .r14 .rdi 0x30#64,
   .load .r13 .rdi 0x28#64,
   .load .r12 .rdi 0x20#64,
   .load .rbx .rdi 0x18#64,
   .load .rbp .rdi 0x10#64,
   .load .rsp .rdi 0x8#64,
   .load .rsi .rdi 0#64,
   .store .rsp 0#64 .rsi]

/-- A call of `setjmp`, from its first instruction to the return. -/
def setjmp (alu : Alu) (c : Cpu) : Cpu := (c.run alu setjmpCode).ret

def longjmp (alu : Alu) (c : Cpu) : Cpu := (c.run alu longjmpCode).ret

/-! ### Saving and restoring -/

section Jumps

variable {alu : Alu} {c : Cpu}

/-- The registers that a function keeps. -/
def calleeSaved : List Reg := [.rbp, .rbx, .r12, .r13, .r14, .r15]

def saved (c : Cpu) : List Quad :=
  [c.mem.load64 (c.reg .rsp), c.reg .rsp, c.reg .rbp, c.reg .rbx, c.reg .r12,
    c.reg .r13, c.reg .r14, c.reg .r15]

theorem setjmp_mem (alu : Alu) (c : Cpu) :
    (setjmp alu c).mem = c.mem.storeWords (c.reg .rdi) (saved c) := by
  simp [setjmp, setjmpCode, Cpu.exec, Cpu.ret, ByteMemory.storeWords, saved, add_assoc]

theorem setjmp_reg (alu : Alu) (c : Cpu) : (setjmp alu c).reg
    = Function.update
      (Function.update (Function.update c.reg .rsi (c.mem.load64 (c.reg .rsp))) .rax 0#64) .rsp
        (c.reg .rsp + 8#64) := by
  simp [setjmp, setjmpCode, Cpu.exec, Cpu.ret]

theorem setjmp_calleeSaved (alu : Alu) (c : Cpu) : ∀ r ∈ calleeSaved,
    (setjmp alu c).reg r = c.reg r := by
  rw [setjmp_reg]
  simp [calleeSaved]

/-- The buffer does not reach into the return address. -/
def SlotApart (c : Cpu) : Prop :=
  ∀ i < 8, ∀ j < 64, c.reg .rsp + BitVec.ofNat 64 i ≠ c.reg .rdi + BitVec.ofNat 64 j

theorem setjmp_rip (alu : Alu) (h : SlotApart c) :
    (setjmp alu c).rip = c.mem.load64 (c.reg .rsp) := by
  have hrip : (setjmp alu c).rip = (setjmp alu c).mem.load64 (c.reg .rsp) := by
    simp [setjmp, setjmpCode, Cpu.exec, Cpu.ret]
  rw [hrip, setjmp_mem]
  exact ByteMemory.load64_congr fun i hi => ByteMemory.storeWords_of_ne fun j hj => h i hi j hj

/-- A jump through a buffer that holds what `setjmp` saved in `c`. -/
theorem longjmp_eq {c₂ : Cpu} (alu : Alu) (h : WordsAt c₂.mem (c₂.reg .rdi) (saved c)) :
    (longjmp alu c₂).rip = c.mem.load64 (c.reg .rsp) ∧
    (longjmp alu c₂).reg .rax = ((c₂.reg .rsi).setWidth 32).setWidth 64 ∧
    (longjmp alu c₂).reg .rsp = c.reg .rsp + 8#64 ∧
    (∀ r ∈ calleeSaved, (longjmp alu c₂).reg r = c.reg r) ∧
    (longjmp alu c₂).mem = c₂.mem.store (c.reg .rsp) (c.mem.load64 (c.reg .rsp)) ∧
    (longjmp alu c₂).cs = c₂.cs := by
  obtain ⟨hret, hrsp, hrbp, hrbx, hr12, hr13, hr14, hr15, -⟩ := h
  simp only [add_assoc, BitVec.reduceAdd] at hrbp hrbx hr12 hr13 hr14 hr15
  have hmem : (longjmp alu c₂).mem = c₂.mem.store (c.reg .rsp) (c.mem.load64 (c.reg .rsp)) := by
    simp [longjmp, longjmpCode, Cpu.exec, Cpu.ret, hret, hrsp]
  have hrip : (longjmp alu c₂).rip = (longjmp alu c₂).mem.load64 (c.reg .rsp) := by
    simp [longjmp, longjmpCode, Cpu.exec, Cpu.ret, hrsp]
  refine ⟨by rw [hrip, hmem, ByteMemory.load64_store], ?_, ?_, ?_, hmem, rfl⟩
  · simp [longjmp, longjmpCode, Cpu.exec, Cpu.ret]
  · simp [longjmp, longjmpCode, Cpu.exec, Cpu.ret, hrsp]
  · simp [calleeSaved, longjmp, longjmpCode, Cpu.exec, Cpu.ret, hrbp, hrbx, hr12, hr13, hr14, hr15]

end Jumps

/-! ### The test -/

section Tests

/-- The address is in no byte that the way back writes: not on the stack of the exception, not
    on the stack of `exception_handler_longjmp` below that of the fault, and not in the record. -/
def Untouched (gs : Quad) (scratch : Nat) (g : Gate) (c : Cpu) (a : Quad) : Prop :=
  ¬ Below g.top (scratch + 184) a ∧ ¬ Below (c.reg .rsp) scratch a ∧
    ∀ i < 4, a ≠ gs + EXCEPTION_ADDR + BitVec.ofNat 64 i

/-- `exception_handler_longjmp`, compiled code, from its beginning to that of `longjmp`. -/
structure CallsLongjmp (exceptionJmpbuf : Quad) (scratch : Nat) (c c' : Cpu) : Prop where
  rdi : c'.reg .rdi = c.mem.load64 exceptionJmpbuf
  rsi : (c'.reg .rsi).setWidth 32 = 1#32
  cs : c'.cs = c.cs
  mem : ∀ a, ¬ Below (c.reg .rsp) scratch a → c'.mem a = c.mem a

theorem exists_callsLongjmp (exceptionJmpbuf : Quad) (scratch : Nat) (c : Cpu) :
    ∃ c', CallsLongjmp exceptionJmpbuf scratch c c' :=
  ⟨(c.set .rdi (c.mem.load64 exceptionJmpbuf)).set .rsi 1#64, rfl, rfl, rfl, fun _ _ => rfl⟩

/-- In `c` the variable `exception_jmpbuf` points to the buffer that `setjmp` was called with in
    `c₀`, the buffer is as `setjmp` left it, and both are out of the way. -/
structure Armed (alu : Alu) (gs : Quad) (scratch : Nat) (g : Gate) (exceptionJmpbuf : Quad)
    (c₀ c : Cpu) : Prop where
  slot : SlotApart c₀
  pointer : c.mem.load64 exceptionJmpbuf = c₀.reg .rdi
  pointerOff : ∀ i < 8, Untouched gs scratch g c (exceptionJmpbuf + BitVec.ofNat 64 i)
  buffer : ∀ i < 64, c.mem (c₀.reg .rdi + BitVec.ofNat 64 i) =
    (setjmp alu c₀).mem (c₀.reg .rdi + BitVec.ofNat 64 i)
  bufferOff : ∀ i < 64, Untouched gs scratch g c (c₀.reg .rdi + BitVec.ofNat 64 i)
  recordOff : ∀ i < 4, ¬ Below (c.reg .rsp) scratch (gs + EXCEPTION_ADDR + BitVec.ofNat 64 i) ∧
    ∀ j < 8, gs + EXCEPTION_ADDR + BitVec.ofNat 64 i ≠ c₀.reg .rsp + BitVec.ofNat 64 j

variable {alu : Alu} {exceptionHandlers : Nat → Option Handler} {scratch : Nat} {g : Gate} {v : Nat}
  {e rip : Quad} {c₀ c c' c₂ : Cpu} {gs exceptionJmpbuf : Quad}

/-- What the handlers and the call of `longjmp` do not touch is as it was at the fault. -/
theorem untouched_mem (hres : Resumed gs scratch g v e rip c c')
    (hcall : CallsLongjmp exceptionJmpbuf scratch c' c₂) {a : Quad}
    (ha : Untouched gs scratch g c a) : c₂.mem a = c.mem a := by
  obtain ⟨hstack, hbelow, hrecord⟩ := ha
  have hreg : c'.reg = c.reg := by rw [hres.context]
  rw [hcall.mem a (by rw [hreg]; exact hbelow), hres.mem a hstack hrecord]

theorem wordsAt_buffer (harmed : Armed alu gs scratch g exceptionJmpbuf c₀ c)
    (hres : Resumed gs scratch g v e rip c c')
    (hcall : CallsLongjmp exceptionJmpbuf scratch c' c₂) :
    WordsAt c₂.mem (c₂.reg .rdi) (saved c₀) := by
  have hpointer : c₂.reg .rdi = c₀.reg .rdi := by
    rw [hcall.rdi, ← harmed.pointer]
    exact ByteMemory.load64_congr fun i hi =>
      hres.mem _ (harmed.pointerOff i hi).1 (harmed.pointerOff i hi).2.2
  have hsaved : WordsAt (setjmp alu c₀).mem (c₀.reg .rdi) (saved c₀) := by
    rw [setjmp_mem]
    exact wordsAt_storeWords _ _ (by simp [saved])
  rw [hpointer]
  exact hsaved.congr fun i hi =>
    (untouched_mem hres hcall (harmed.bufferOff i hi)).trans (harmed.buffer i hi)

/-- An exception of the function under test comes to an end, at `exception_handler_longjmp`, if its
    vector has an entry. From there the processor comes back to the call of `setjmp` whose buffer
    `exception_jmpbuf` points to: with 1 as the result, the registers that a function keeps as at
    the first return, and the record of this exception. The code segment stays that of the fault. -/
theorem exception_returns_to_setjmp (alu : Alu) (scratch : Nat) (g : Gate) (v : Nat) (e gs : Quad)
    (exceptionHandlers : Nat → Option Handler) (exceptionHandlerLongjmp exceptionJmpbuf : Quad)
    (c₀ c : Cpu) (hhandler : exceptionHandlers v =
      some (exceptionHandler gs exceptionHandlerLongjmp))
    (hroom : scratch + 184 < 2 ^ 64) (hrec : RecordApart gs scratch g)
    (harmed : Armed alu gs scratch g exceptionJmpbuf c₀ c) :
    ((∃ c', Raised alu exceptionHandlers scratch g v e c c') ↔ (idtHandlers v).isSome) ∧
    ∀ c', Raised alu exceptionHandlers scratch g v e c c' →
      c'.rip = exceptionHandlerLongjmp ∧ (∃ c₂, CallsLongjmp exceptionJmpbuf scratch c' c₂) ∧
      ∀ c₂, CallsLongjmp exceptionJmpbuf scratch c' c₂ →
        (longjmp alu c₂).rip = (setjmp alu c₀).rip ∧ (longjmp alu c₂).reg .rax = 1#64 ∧
        (∀ r ∈ .rsp :: calleeSaved, (longjmp alu c₂).reg r = (setjmp alu c₀).reg r) ∧
        (longjmp alu c₂).cs = c.cs ∧
        exceptionVector gs (longjmp alu c₂).mem = BitVec.ofNat 8 v ∧
        exceptionErrorCode gs (longjmp alu c₂).mem = (errorCodeOf v e).setWidth 16 ∧
        exceptionRflagsRf gs (longjmp alu c₂).mem = (g.rf || c.rflags.getLsbD 16) := by
  rw [exceptionHandler_eq] at hhandler
  refine ⟨⟨fun ⟨_, _, _, hentry, _⟩ => by rw [hentry, Option.isSome_some], fun hentry => ?_⟩,
    fun c' hraised => ?_⟩
  · obtain ⟨entry, hentry⟩ := Option.isSome_iff_exists.mp hentry
    exact exists_raised _ exceptionHandlerLongjmp hentry hhandler rfl alu scratch
  obtain ⟨rip, htarget, hres⟩ := hraised.resumed hhandler hroom hrec
  obtain rfl : exceptionHandlerLongjmp = rip := Option.some.inj htarget
  refine ⟨by rw [hres.context], exists_callsLongjmp exceptionJmpbuf scratch c', fun c₂ hcall => ?_⟩
  obtain ⟨hrip, hrax, hrsp, hregs, hmem, hcs⟩ := longjmp_eq alu (wordsAt_buffer harmed hres hcall)
  have hreg : c'.reg = c.reg := by rw [hres.context]
  have hrecord : ∀ i < 4, (longjmp alu c₂).mem (gs + EXCEPTION_ADDR + BitVec.ofNat 64 i)
      = c'.mem (gs + EXCEPTION_ADDR + BitVec.ofNat 64 i) := by
    intro i hi
    obtain ⟨hbelow, hslot⟩ := harmed.recordOff i hi
    rw [hmem, ByteMemory.store_of_ne _ fun j hj => hslot j (by omega)]
    exact hcall.mem _ (by rw [hreg]; exact hbelow)
  obtain ⟨hvector, herror, hrf⟩ := record_congr hrecord
  refine ⟨by rw [hrip, setjmp_rip alu harmed.slot], by rw [hrax, hcall.rsi]; rfl,
    ?_, ?_, hvector.trans hres.vector, herror.trans hres.errorCode, hrf.trans hres.rf⟩
  · intro r hr
    rcases List.mem_cons.mp hr with rfl | hr'
    · rw [hrsp, setjmp_reg, Function.update_self]
    · rw [hregs r hr', setjmp_calleeSaved alu c₀ r hr']
  · rw [hcs, hcall.cs, hres.context]

/-- A call of `setjmp` with a buffer at `0x8100` and the variable at `0x9000`. -/
def calling : Cpu where
  reg r := if r = .rsp then 0x8000#64 else if r = .rdi then 0x8100#64 else 0#64
  mem := ByteMemory.store (ByteMemory.store (fun _ => 0#8) 0x9000#64 0x8100#64) 0x8000#64 0x1234#64
  rip := 0#64
  rflags := 2#64
  cs := 8#64
  ss := 16#64

/-- The function under test, further down the stack. -/
def faulting : Cpu := { setjmp (fun _ c => c.rflags) calling with reg := fun _ => 0x7000#64 }

def sameStack : Gate := ⟨0x100#64, 0x7000#64, 8#64, 16#64, 2#64, true⟩

theorem armed_calling :
    Armed (fun _ c => c.rflags) 0xF000#64 512 sameStack 0x9000#64 calling faulting where
  slot := by unfold SlotApart; decide +kernel
  pointer := by decide +kernel
  pointerOff := by unfold Untouched; decide +kernel
  buffer _ _ := rfl
  bufferOff := by unfold Untouched; decide +kernel
  recordOff := by decide +kernel

theorem exception_returns_to_setjmp_gp : ∃ c' c₂,
    Raised (fun _ c => c.rflags) (fun _ => some (exceptionHandler 0xF000#64 0x600#64)) 512 sameStack
      13 0x48#64 faulting c' ∧
    CallsLongjmp 0x9000#64 512 c' c₂ ∧ (longjmp (fun _ c => c.rflags) c₂).reg .rax = 1#64 ∧
    exceptionRflagsRf 0xF000#64 (longjmp (fun _ c => c.rflags) c₂).mem = true := by
  obtain ⟨hreturns, hback⟩ := exception_returns_to_setjmp (fun _ c => c.rflags) 512 sameStack 13
    0x48#64 0xF000#64 (fun _ => some (exceptionHandler 0xF000#64 0x600#64)) 0x600#64 0x9000#64
    calling faulting rfl (by decide) (by unfold RecordApart; decide +kernel) armed_calling
  obtain ⟨c', hraised⟩ := hreturns.mpr rfl
  obtain ⟨-, ⟨c₂, hcall⟩, hjump⟩ := hback c' hraised
  obtain ⟨-, hrax, -, -, -, -, hrf⟩ := hjump c₂ hcall
  exact ⟨c', c₂, hraised, hcall, hrax, hrf⟩

end Tests

end AcrnGuest.ExceptionJump
