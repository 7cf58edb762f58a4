import AcrnGuest.StackCode
import Mathlib.Data.BitVec
import Mathlib.Tactic.FinCases

/-!
# The registers of host and guest (`x86/hsi_virtual_spec.c`, `x86/hsi_virtual_spec.h`)

A VM entry loads only the stack pointer and the instruction pointer of the guest from the
VMCS. Its other registers are kept in the structure `regs` while the host runs, and
`vmx_enter_guest` exchanges them with those of the host before the entry and after the exit.
The exit handlers read the registers of the guest from the structure (`vcpu_get_gpreg`).

Over any sequence of entries, failed entries and host code the one processor behaves as two
processors with registers of their own, one for the host and one for the guest
(`vmx_registers_refine`). The stack pointer is the exception: no exit writes its word in the
structure, which is what an exit handler reads.
-/

namespace AcrnGuest.VmxRegisters

open Amd64

/-! ### The source -/

structure Regs where
  gpr : Reg → Quad
  cr2 : Quad
  rflags : Quad

/-- The words of the structure in the order of its fields, of which `rsp` is the last one. -/
def Regs.words (x : Regs) : List Quad :=
  [x.gpr .rax, x.gpr .rcx, x.gpr .rdx, x.gpr .rbx, x.cr2, x.gpr .rbp, x.gpr .rsi, x.gpr .rdi,
    x.gpr .r8, x.gpr .r9, x.gpr .r10, x.gpr .r11, x.gpr .r12, x.gpr .r13, x.gpr .r14, x.gpr .r15,
    x.rflags, x.gpr .rsp]

/-- The registers that `SAVE_GPR_C` exchanges, with the number of their word. -/
def gprWords : List (Reg × Nat) :=
  [(.rax, 0), (.rcx, 1), (.rdx, 2), (.rbx, 3), (.rbp, 5), (.rsi, 6), (.rdi, 7), (.r8, 8), (.r9, 9),
    (.r10, 10), (.r11, 11), (.r12, 12), (.r13, 13), (.r14, 14), (.r15, 15)]

def saveGprC (regs : Quad) : List Instr :=
  gprWords.map fun p => .xchg p.1 (regs + BitVec.ofNat 64 (8 * p.2))

def loadGprC (regs : Quad) : List Instr := saveGprC regs

def HOST_RSP : Quad := 0x6c14#64

/-- The processor in the host, and the stack pointer of the guest in the VMCS. -/
structure World where
  cpu : Cpu
  guestRsp : Quad

def InRegs (regs a : Quad) : Prop := ∃ i < 144, a = regs + BitVec.ofNat 64 i

def SameOutside (regs : Quad) (m m' : ByteMemory) : Prop := ∀ a, ¬ InRegs regs a → m' a = m a

/-- Code of the guest, which neither reads nor writes the structure. -/
structure Code (regs : Quad) where
  run : (Reg → Quad) → ByteMemory → (Reg → Quad) × ByteMemory
  reads : ∀ ρ m m', SameOutside regs m m' →
    (run ρ m').1 = (run ρ m).1 ∧ SameOutside regs (run ρ m).2 (run ρ m').2
  writes : ∀ ρ m a, InRegs regs a → (run ρ m).2 a = m a

/-- What comes of the instruction `vmlaunch` or `vmresume`. -/
inductive Outcome (regs : Quad)
  /-- The guest runs until an exit. -/
  | exits (guest : Code regs)
  /-- The entry fails behind the checks of the controls, and the host state is loaded. -/
  | late
  /-- The instruction fails with these flags. -/
  | early (flags : Quad)

/-- `pushf`, `pop %rdi` and the two stores behind them, which both go to `failure->flags`. -/
def recordFailure (alu : Alu) (failureFlags flags : Quad) (c : Cpu) : Cpu :=
  let c := (c.pushWord flags).exec alu (.pop .rdi)
  { c with mem := (c.mem.store failureFlags (c.reg .rdi)).store failureFlags 1#32 }

/-- The asm statement of `vmx_enter_guest`; `failureFlags` is the address of `failure->flags`. -/
def vmxEnterGuest (alu : Alu) (regs failureFlags : Quad) (w : World) (o : Outcome regs) : World :=
  let hostRsp := w.cpu.reg .rsp
  let c := (w.cpu.set .rdi HOST_RSP).run alu (loadGprC regs)
  match o with
  | .exits guest =>
      let g := guest.run (Function.update c.reg .rsp w.guestRsp) c.mem
      let c := { c with reg := Function.update g.1 .rsp hostRsp, mem := g.2 }
      ⟨c.run alu (saveGprC regs), g.1 .rsp⟩
  | .late =>
      let c := { c with reg := Function.update c.reg .rsp hostRsp }
      ⟨c.run alu (saveGprC regs), w.guestRsp⟩
  | .early flags =>
      -- the exchange keeps the flags
      let c := ({ c with rflags := flags } : Cpu).run alu (saveGprC regs)
      ⟨recordFailure alu failureFlags flags c, w.guestRsp⟩

/-- The words of the structure that the entries of `gp_reg` point to. -/
def gpReg : List Nat := [0, 1, 2, 3, 17, 5, 6, 7, 8, 9, 10, 11, 12, 13, 14, 15]

def vcpuGetGpreg (m : ByteMemory) (regs : Quad) (idx : Fin 16) : Quad :=
  m.load64 (regs + BitVec.ofNat 64 (8 * gpReg.getD idx 0))

/-- Code of the host, such as an exit handler, on the registers, the memory and the field
    `GUEST_RSP` of the VMCS. -/
abbrev HostCode := (Reg → Quad) → ByteMemory → Quad → (Reg → Quad) × ByteMemory × Quad

def World.runHost (w : World) (code : HostCode) : World :=
  let r := code w.cpu.reg w.cpu.mem w.guestRsp
  ⟨{ w.cpu with reg := r.1, mem := r.2.1 }, r.2.2⟩

inductive HostStep (regs : Quad)
  | enterGuest (o : Outcome regs)
  /-- The beginning of `test_run`: `init_vmcs_guest`, `test->init` and `regs = test->guest_regs`. -/
  | start (guestStack : Quad) (init : HostCode) (guestRegs : Regs)
  /-- `regs.rflags = vmcs_read(GUEST_RFLAGS)` in `exit_handler`. -/
  | setRflags (v : Quad)
  | host (code : HostCode)

/-- What `init_vmcs_guest` writes to `GUEST_RSP`: `guest_stack + PAGE_SIZE - 1`. -/
def initialRsp (guestStack : Quad) : Quad := guestStack + 4096#64 - 1#64

def HostStep.exec (alu : Alu) (regs failureFlags : Quad) (w : World) : HostStep regs → World
  | .enterGuest o => vmxEnterGuest alu regs failureFlags w o
  | .start guestStack init guestRegs =>
      let w := { w with guestRsp := initialRsp guestStack }
      let w := w.runHost init
      { w with cpu := { w.cpu with mem := w.cpu.mem.storeWords regs guestRegs.words } }
  | .setRflags v =>
    { w with cpu := { w.cpu with mem := w.cpu.mem.store (regs + BitVec.ofNat 64 (8 * 16)) v } }
  | .host code => w.runHost code

/-! ### Two processors -/

/-- The registers of two processors that share a memory. Of the structure only the word of
    `rsp`, `cr2` and `rflags` are left. -/
structure Machines where
  host : Reg → Quad
  guest : Reg → Quad
  mem : ByteMemory
  rspWord : Quad
  cr2 : Quad
  rflags : Quad

def Machines.regs (s : Machines) : Regs := ⟨Function.update s.guest .rsp s.rspWord, s.cr2, s.rflags⟩

def wordOf : Reg → Nat
  | .rax => 0
  | .rcx => 1
  | .rdx => 2
  | .rbx => 3
  | .rbp => 5
  | .rsi => 6
  | .rdi => 7
  | .r8 => 8
  | .r9 => 9
  | .r10 => 10
  | .r11 => 11
  | .r12 => 12
  | .r13 => 13
  | .r14 => 14
  | .r15 => 15
  | .rsp => 17

/-- The structure as it is in memory. -/
def Regs.load (m : ByteMemory) (regs : Quad) : Regs where
  gpr r := m.load64 (regs + BitVec.ofNat 64 (8 * wordOf r))
  cr2 := m.load64 (regs + BitVec.ofNat 64 (8 * 4))
  rflags := m.load64 (regs + BitVec.ofNat 64 (8 * 16))

/-- Code of the host finds the registers of the guest in the structure, and may change them there
    or, the stack pointer, in the VMCS. -/
def Machines.runHost (regs : Quad) (s : Machines) (code : HostCode) : Machines :=
  let r := code s.host (s.mem.storeWords regs s.regs.words) (s.guest .rsp)
  let x := Regs.load r.2.1 regs
  { host := r.1
    guest := Function.update x.gpr .rsp r.2.2
    mem := r.2.1
    rspWord := x.gpr .rsp
    cr2 := x.cr2
    rflags := x.rflags }

def HostStep.apply {regs : Quad} (failureFlags : Quad) (s : Machines) : HostStep regs → Machines
  | .enterGuest (.exits guest) =>
      let g := guest.run s.guest s.mem
      { s with host := Function.update s.host .rdi HOST_RSP, guest := g.1, mem := g.2 }
  | .enterGuest .late => { s with host := Function.update s.host .rdi HOST_RSP }
  | .enterGuest (.early flags) =>
      { s with
        host := Function.update s.host .rdi flags
        mem :=
          ((s.mem.store (s.host .rsp - 8#64) flags).store failureFlags flags).store
            failureFlags 1#32 }
  | .start guestStack init x =>
      let s := { s with guest := Function.update s.guest .rsp (initialRsp guestStack) }
      let s := s.runHost regs init
      { s with
        guest := Function.update x.gpr .rsp (s.guest .rsp)
        rspWord := x.gpr .rsp
        cr2 := x.cr2
        rflags := x.rflags }
  | .setRflags v => { s with rflags := v }
  | .host code => s.runHost regs code

/-- The register that the processor names by a number in an exit qualification. -/
def numbered (idx : Fin 16) : Reg :=
  [.rax, .rcx, .rdx, .rbx, .rsp, .rbp, .rsi, .rdi, .r8, .r9, .r10, .r11, .r12, .r13, .r14,
    .r15].getD idx .rax

def WordApart (regs a : Quad) : Prop := ∀ i < 8, ¬ InRegs regs (a + BitVec.ofNat 64 i)

/-- The stores of a failed entry, to the stack and to `failure->flags`, are not to the structure. -/
def HostStep.Fits {regs : Quad} (failureFlags : Quad) (s : Machines) : HostStep regs → Prop
  | .enterGuest (.early _) => WordApart regs (s.host .rsp - 8#64) ∧ WordApart regs failureFlags
  | _ => True

def Fit {regs : Quad} (failureFlags : Quad) : Machines → List (HostStep regs) → Prop
  | _, [] => True
  | s, x :: xs => x.Fits failureFlags s ∧ Fit failureFlags (x.apply failureFlags s) xs

/-- The one processor, in the host, stands for the two. -/
structure Shows (regs : Quad) (w : World) (s : Machines) : Prop where
  host : w.cpu.reg = s.host
  guestRsp : w.guestRsp = s.guest .rsp
  words : WordsAt w.cpu.mem regs s.regs.words
  mem : SameOutside regs s.mem w.cpu.mem

/-! ### The exchange -/

section Exchange

variable {alu : Alu} {regs : Quad} {c : Cpu}

/-- The registers change places with the words, the stack pointer and the other words stay. -/
theorem exchange_gprWords (ρ : Reg → Quad) (x : Regs) :
    exchange gprWords ρ x.words =
      (Function.update x.gpr .rsp (ρ .rsp),
        Regs.words ⟨Function.update ρ .rsp (x.gpr .rsp), x.cr2, x.rflags⟩) := by
  simp only [exchange, gprWords, Regs.words, List.getD_cons_zero, List.getD_cons_succ,
    List.set_cons_zero, List.set_cons_succ, Function.update_apply, reduceCtorEq, if_false, if_true]
  congr 1
  funext r
  cases r <;> simp

theorem run_saveGprC (alu : Alu) (x : Regs) (h : WordsAt c.mem regs x.words) :
    (c.run alu (saveGprC regs)).reg = Function.update x.gpr .rsp (c.reg .rsp) ∧
    WordsAt (c.run alu (saveGprC regs)).mem regs
      (Regs.words ⟨Function.update c.reg .rsp (x.gpr .rsp), x.cr2, x.rflags⟩) ∧
    SameOutside regs c.mem (c.run alu (saveGprC regs)).mem := by
  have hgpr : ∀ p ∈ gprWords, p.2 < x.words.length := fun p hp => by
    have hlt : ∀ q ∈ gprWords, q.2 < 18 := by decide
    exact hlt p hp
  have hroom : 8 * x.words.length ≤ 2 ^ 64 := by
    rw [show x.words.length = 18 from rfl]
    decide
  obtain ⟨hreg, hwords, hmem⟩ := Cpu.run_xchg alu gprWords h hgpr hroom
  rw [exchange_gprWords] at hreg hwords
  refine ⟨hreg, hwords, fun a ha => hmem a fun i hi heq => ha ⟨i, hi, heq⟩⟩

/-- Between the two exchanges the registers may become `ρ`; the host then has its own again and
    the structure holds `ρ`. -/
theorem run_load_save (alu : Alu) (x : Regs) (h : WordsAt c.mem regs x.words)
    (ρ : Reg → Quad) (c' : Cpu) (hreg : c'.reg = Function.update ρ .rsp (c.reg .rsp))
    (hmem : ∀ a, InRegs regs a → c'.mem a = (c.run alu (loadGprC regs)).mem a) :
    (c'.run alu (saveGprC regs)).reg = c.reg ∧
    WordsAt (c'.run alu (saveGprC regs)).mem regs
      (Regs.words ⟨Function.update ρ .rsp (x.gpr .rsp), x.cr2, x.rflags⟩) ∧
    SameOutside regs c'.mem (c'.run alu (saveGprC regs)).mem := by
  obtain ⟨-, hloaded, -⟩ := run_saveGprC alu x h
  have hkept : WordsAt c'.mem regs
      (Regs.words ⟨Function.update c.reg .rsp (x.gpr .rsp), x.cr2, x.rflags⟩) :=
    hloaded.congr fun i hi => hmem _ ⟨i, hi, rfl⟩
  obtain ⟨hreg', hwords', hmem'⟩ := run_saveGprC alu _ hkept
  refine ⟨?_, ?_, hmem'⟩
  · rw [hreg', hreg, Function.update_self, Function.update_idem, Function.update_eq_self]
  · simpa only [hreg, Function.update_idem, Function.update_self] using hwords'

end Exchange

/-! ### Runs -/

section Runs

variable {alu : Alu} {regs failureFlags : Quad} {w : World} {s : Machines}

theorem SameOutside.trans {m m' m'' : ByteMemory} (h : SameOutside regs m m')
    (h' : SameOutside regs m' m'') :
    SameOutside regs m m'' := fun a ha => (h' a ha).trans (h a ha)

/-- Two memories that get the same store stay the same. -/
theorem SameOutside.store {k : Nat} {m m' : ByteMemory} (h : SameOutside regs m m') (a : Quad)
    (v : BitVec k) :
    SameOutside regs (m.store a v) (m'.store a v) := fun b hb => by
  unfold ByteMemory.store
  split
  · rfl
  · exact h b hb

theorem wordsAt_store_of_apart {k : Nat} {m : ByteMemory} {x : Regs} {a : Quad}
    (h : WordsAt m regs x.words) (ha : WordApart regs a) (v : BitVec k) (hk : k ≤ 64) :
    WordsAt (m.store a v) regs x.words := by
  refine h.congr fun i hi => ByteMemory.store_of_ne v fun j hj heq => ?_
  exact ha j (by omega) ⟨i, hi, heq.symm⟩

/-- The memory of the host after `LOAD_GPR_C`, and the registers the guest starts with. -/
theorem Shows.loaded (h : Shows regs w s) (alu : Alu) :
    ((w.cpu.set .rdi HOST_RSP).run alu (loadGprC regs)).reg =
      Function.update s.guest .rsp (s.host .rsp) ∧
    SameOutside regs s.mem ((w.cpu.set .rdi HOST_RSP).run alu (loadGprC regs)).mem := by
  obtain ⟨hreg, -, hmem⟩ := run_saveGprC (c := w.cpu.set .rdi HOST_RSP) alu s.regs h.words
  refine ⟨hreg.trans ?_, h.mem.trans hmem⟩
  rw [Machines.regs, Function.update_idem, Cpu.set_reg, Function.update_of_ne (by decide), h.host]

theorem Shows.exits (h : Shows regs w s) (guest : Code regs) :
    Shows regs (vmxEnterGuest alu regs failureFlags w (.exits guest))
      ((HostStep.enterGuest (.exits guest)).apply failureFlags s) := by
  obtain ⟨hloaded, hsame⟩ := h.loaded alu
  have hback := run_load_save (c := w.cpu.set .rdi HOST_RSP) alu s.regs h.words
  unfold vmxEnterGuest
  generalize (w.cpu.set .rdi HOST_RSP).run alu (loadGprC regs) = c₁ at hloaded hsame hback ⊢
  have hstart : Function.update c₁.reg .rsp w.guestRsp = s.guest := by
    rw [hloaded, h.guestRsp, Function.update_idem, Function.update_eq_self]
  simp only [hstart]
  obtain ⟨hregs, hmem⟩ := guest.reads s.guest _ _ hsame
  have hhost : (w.cpu.set .rdi HOST_RSP).reg .rsp = w.cpu.reg .rsp := by
    rw [Cpu.set_reg, Function.update_of_ne (by decide)]
  obtain ⟨hreg', hwords', hmem'⟩ := hback (guest.run s.guest c₁.mem).1
    { c₁ with
      reg := Function.update (guest.run s.guest c₁.mem).1 .rsp (w.cpu.reg .rsp)
      mem := (guest.run s.guest c₁.mem).2 }
    (by rw [hhost]) (guest.writes _ _)
  refine ⟨?_, congrFun hregs .rsp, ?_, hmem.trans hmem'⟩
  · rw [hreg', Cpu.set_reg, h.host]
    rfl
  · have hafter : ((HostStep.enterGuest (.exits guest)).apply failureFlags s).regs
        = ⟨Function.update (guest.run s.guest c₁.mem).1 .rsp s.rspWord, s.cr2, s.rflags⟩ := by
      rw [hregs]
      rfl
    rw [hafter]
    exact hwords'

theorem Shows.failed (h : Shows regs w s) (alu : Alu) {c : Cpu}
    (hreg : c.reg = ((w.cpu.set .rdi HOST_RSP).run alu (loadGprC regs)).reg)
    (hmem : c.mem = ((w.cpu.set .rdi HOST_RSP).run alu (loadGprC regs)).mem) :
    Shows regs ⟨c.run alu (saveGprC regs), w.guestRsp⟩
      { s with host := Function.update s.host .rdi HOST_RSP } := by
  obtain ⟨hloaded, hsame⟩ := h.loaded alu
  rw [hloaded, ← h.host] at hreg
  obtain ⟨hreg', hwords', hmem'⟩ :=
    run_load_save (c := w.cpu.set .rdi HOST_RSP) alu s.regs h.words s.guest c
    hreg fun a _ => congrFun hmem a
  refine ⟨?_, h.guestRsp, hwords', ?_⟩
  · rw [hreg', Cpu.set_reg, h.host]
  · rw [hmem] at hmem'
    exact hsame.trans hmem'

theorem Shows.late (h : Shows regs w s) :
    Shows regs (vmxEnterGuest alu regs failureFlags w .late)
      ((.enterGuest .late : HostStep regs).apply failureFlags s) := by
  obtain ⟨hloaded, -⟩ := h.loaded alu
  refine h.failed alu ?_ rfl
  rw [hloaded, h.host, Function.update_idem]

theorem pushWord_pop (alu : Alu) (c : Cpu) (v : Quad) :
    ((c.pushWord v).exec alu (.pop .rdi)).reg = Function.update c.reg .rdi v ∧
    ((c.pushWord v).exec alu (.pop .rdi)).mem = c.mem.store (c.reg .rsp - 8#64) v := by
  refine ⟨?_, rfl⟩
  have hword : (c.pushWord v).mem.load64 (c.reg .rsp - 8#64) = v := ByteMemory.load64_store _ _ _
  rw [Cpu.exec_pop_reg, Cpu.pushWord_reg, Function.update_self, hword, Function.update_idem,
    sub_add_cancel, Function.update_eq_self]

theorem Shows.recordFailure {c : Cpu} {guestRsp : Quad} (h : Shows regs ⟨c, guestRsp⟩ s) (alu : Alu)
    (flags : Quad) (hstack : WordApart regs (s.host .rsp - 8#64))
    (hflags : WordApart regs failureFlags) :
    Shows regs ⟨recordFailure alu failureFlags flags c, guestRsp⟩
      { s with
        host := Function.update s.host .rdi flags
        mem :=
          ((s.mem.store (s.host .rsp - 8#64) flags).store failureFlags flags).store
            failureFlags 1#32 } := by
  obtain ⟨hpop, hmem⟩ := pushWord_pop alu c flags
  have hreg : c.reg = s.host := h.host
  have hrdi : ((c.pushWord flags).exec alu (.pop .rdi)).reg .rdi = flags := by
    rw [hpop, Function.update_self]
  simp only [VmxRegisters.recordFailure, hrdi, hmem, hpop, hreg]
  have hwords := wordsAt_store_of_apart h.words hstack flags (Nat.le_refl _)
  have hwords' := wordsAt_store_of_apart hwords hflags flags (Nat.le_refl _)
  exact ⟨rfl, h.guestRsp, wordsAt_store_of_apart hwords' hflags 1#32 (by decide),
    ((h.mem.store _ flags).store failureFlags flags).store failureFlags 1#32⟩

theorem Shows.early (h : Shows regs w s) (flags : Quad)
    (hfits : WordApart regs (s.host .rsp - 8#64) ∧ WordApart regs failureFlags) :
    Shows regs (vmxEnterGuest alu regs failureFlags w (.early flags))
      ((.enterGuest (.early flags) : HostStep regs).apply failureFlags s) := by
  have hrsp : Function.update s.host .rdi HOST_RSP .rsp = s.host .rsp :=
    Function.update_of_ne (by decide) _ _
  have hstack : WordApart regs (Function.update s.host .rdi HOST_RSP .rsp - 8#64) := by
    rw [hrsp]
    exact hfits.1
  have hrecorded := (h.failed alu
    (c := { (w.cpu.set .rdi HOST_RSP).run alu (loadGprC regs) with rflags := flags }) rfl
      rfl).recordFailure alu
    flags hstack hfits.2
  simp only [hrsp, Function.update_idem] at hrecorded
  exact hrecorded

theorem wordsAt_load (m : ByteMemory) (regs : Quad) : WordsAt m regs (Regs.load m regs).words := by
  simp only [WordsAt, Regs.words, Regs.load, wordOf, add_assoc, Nat.reduceMul, BitVec.reduceAdd,
    BitVec.add_zero, and_self]

/-- The processor has all of the memory of the two, with the structure in its place. -/
theorem Shows.mem_eq (h : Shows regs w s) : w.cpu.mem = s.mem.storeWords regs s.regs.words := by
  have hstored : WordsAt (s.mem.storeWords regs s.regs.words) regs s.regs.words :=
    wordsAt_storeWords _ _ (by simp [Regs.words])
  funext a
  by_cases ha : InRegs regs a
  · obtain ⟨i, hi, rfl⟩ := ha
    exact h.words.bytes_eq hstored hi
  · refine (h.mem a ha).trans (Eq.symm ?_)
    exact ByteMemory.storeWords_of_ne fun i hi heq => ha ⟨i, hi, heq⟩

theorem Shows.runHost (h : Shows regs w s) (code : HostCode) :
    Shows regs (w.runHost code) (s.runHost regs code) := by
  unfold World.runHost Machines.runHost
  rw [h.host, h.guestRsp, ← h.mem_eq]
  generalize code s.host w.cpu.mem (s.guest .rsp) = r
  refine ⟨rfl, (Function.update_self Reg.rsp r.2.2 (Regs.load r.2.1 regs).gpr).symm, ?_,
    fun _ _ => rfl⟩
  have hregs : (⟨Function.update (Function.update (Regs.load r.2.1 regs).gpr .rsp r.2.2) .rsp
      ((Regs.load r.2.1 regs).gpr .rsp), (Regs.load r.2.1 regs).cr2,
      (Regs.load r.2.1 regs).rflags⟩ : Regs)
      = Regs.load r.2.1 regs := by
    rw [Function.update_idem, Function.update_eq_self]
  rw [Machines.regs, hregs]
  exact wordsAt_load r.2.1 regs

theorem Shows.setRsp (h : Shows regs w s) (v : Quad) :
    Shows regs { w with guestRsp := v } { s with guest := Function.update s.guest .rsp v } := by
  refine ⟨h.host, (Function.update_self Reg.rsp v s.guest).symm, ?_, h.mem⟩
  rw [Machines.regs, Function.update_idem]
  exact h.words

theorem Shows.copyRegs (h : Shows regs w s) (x : Regs) :
    Shows regs { w with cpu := { w.cpu with mem := w.cpu.mem.storeWords regs x.words } }
      { s with
        guest := Function.update x.gpr .rsp (s.guest .rsp)
        rspWord := x.gpr .rsp
        cr2 := x.cr2
        rflags := x.rflags } := by
  refine ⟨h.host, h.guestRsp.trans (Function.update_self Reg.rsp _ x.gpr).symm, ?_,
    h.mem.trans fun a ha => ?_⟩
  · rw [Machines.regs, Function.update_idem, Function.update_eq_self]
    exact wordsAt_storeWords _ _ (by simp [Regs.words])
  · exact ByteMemory.storeWords_of_ne fun i hi heq => ha ⟨i, hi, heq⟩

theorem Shows.start (h : Shows regs w s) (guestStack : Quad) (init : HostCode) (x : Regs) :
    Shows regs ((HostStep.start guestStack init x).exec alu regs failureFlags w)
      ((.start guestStack init x : HostStep regs).apply failureFlags s) :=
  ((h.setRsp (initialRsp guestStack)).runHost init).copyRegs x

theorem Shows.setRflags (h : Shows regs w s) (v : Quad) :
    Shows regs ((HostStep.setRflags v).exec alu regs failureFlags w)
      ((.setRflags v : HostStep regs).apply failureFlags s) := by
  refine ⟨h.host, h.guestRsp, ?_, h.mem.trans fun a ha => ?_⟩
  · exact h.words.set (by simp [Regs.words]) (by simp [Regs.words]) v
  · refine ByteMemory.store_of_ne v fun i hi heq => ha ⟨8 * 16 + i, by omega, ?_⟩
    rw [heq, add_assoc, ← BitVec.ofNat_add]

/-- A step of the host is a step of the two processors. -/
theorem Shows.exec (h : Shows regs w s) (x : HostStep regs) (hfits : x.Fits failureFlags s) :
    Shows regs (x.exec alu regs failureFlags w) (x.apply failureFlags s) := by
  cases x with
  | enterGuest o =>
    cases o with
    | exits guest => exact h.exits guest
    | late => exact h.late
    | early flags => exact h.early flags hfits
  | start guestStack init guestRegs => exact h.start guestStack init guestRegs
  | setRflags v => exact h.setRflags v
  | host code => exact h.runHost code

theorem Shows.vcpuGetGpreg (h : Shows regs w s) (idx : Fin 16) :
    vcpuGetGpreg w.cpu.mem regs idx = if numbered idx = .rsp then s.rspWord
      else s.guest (numbered idx) := by
  have hlt : ∀ i : Fin 16, gpReg.getD i 0 < 18 := by decide
  rw [VmxRegisters.vcpuGetGpreg, h.words.load64 (hlt idx)]
  fin_cases idx <;> rfl

/-- Over any steps of the host the one processor stands for two with registers of their own. What
    an exit handler reads is the register of the guest, but for the stack pointer the word that
    the host stored last. -/
theorem vmx_registers_refine (alu : Alu) (regs failureFlags : Quad) (steps : List (HostStep regs))
    (w : World) (s : Machines) (h : Shows regs w s) (hfits : Fit failureFlags s steps) :
    Shows regs (steps.foldl (HostStep.exec alu regs failureFlags) w)
      (steps.foldl (HostStep.apply failureFlags) s) ∧
    ∀ idx, vcpuGetGpreg (steps.foldl (HostStep.exec alu regs failureFlags) w).cpu.mem regs idx
      = if numbered idx = .rsp then (steps.foldl (HostStep.apply failureFlags) s).rspWord
        else (steps.foldl (HostStep.apply failureFlags) s).guest (numbered idx) := by
  have hshows : Shows regs (steps.foldl (HostStep.exec alu regs failureFlags) w)
      (steps.foldl (HostStep.apply failureFlags) s) := by
    induction steps generalizing w s with
    | nil => exact h
    | cons x steps ih => exact ih _ _ (h.exec x hfits.1) hfits.2
  exact ⟨hshows, hshows.vcpuGetGpreg⟩

def setsRcx (regs v : Quad) : Code regs where
  run ρ m := (Function.update ρ .rcx v, m)
  reads _ _ _ h := ⟨rfl, h⟩
  writes _ _ _ _ := rfl

/-- An exit handler that reads the register from the structure. -/
def readsRcx (regs : Quad) : HostCode := fun ρ m rsp =>
  (Function.update ρ .rax (vcpuGetGpreg m regs 1), m, rsp)

/-- A test starts, the guest exits once, and the next two entries fail; a second test starts and
    its guest exits. -/
def twoTests : List (HostStep 0x1000#64) :=
  [.start 0x6000#64 (fun ρ m rsp => (ρ, m, rsp)) ⟨fun _ => 0x5000#64, 0#64, 2#64⟩,
    .enterGuest (.exits (setsRcx _ 7#64)), .host (readsRcx 0x1000#64), .enterGuest (.early 0x41#64),
    .enterGuest .late,
    .start 0x6000#64 (fun ρ m _ => (ρ, m, 0x7000#64)) ⟨fun _ => 0#64, 0#64, 2#64⟩,
    .enterGuest (.exits (setsRcx _ 9#64))]

theorem vmx_registers_refine_twoTests :
    let w := twoTests.foldl (HostStep.exec (fun _ c => c.rflags) 0x1000#64 0x2000#64)
      ⟨⟨fun _ => 0x8000#64, fun _ => 0#8, 0#64, 2#64, 8#64, 16#64⟩, 0#64⟩
    vcpuGetGpreg w.cpu.mem 0x1000#64 1 = 9#64 ∧ w.cpu.reg .rax = 7#64 ∧ w.guestRsp = 0x7000#64 := by
  have hwords : WordsAt (fun _ => 0#8) 0x1000#64
      (Machines.regs ⟨fun _ => 0x8000#64, fun _ => 0#64, fun _ => 0#8, 0#64, 0#64,
        0#64⟩).words := by
    repeat first | exact trivial | refine ⟨rfl, ?_⟩
  have hstack : WordApart 0x1000#64 (0x8000#64 - 8#64) := by
    unfold WordApart InRegs
    decide +kernel
  have hflags : WordApart 0x1000#64 0x2000#64 := by
    unfold WordApart InRegs
    decide +kernel
  obtain ⟨hshows, hread⟩ := vmx_registers_refine (fun _ c => c.rflags) 0x1000#64 0x2000#64 twoTests
    ⟨⟨fun _ => 0x8000#64, fun _ => 0#8, 0#64, 2#64, 8#64, 16#64⟩, 0#64⟩
    ⟨fun _ => 0x8000#64, fun _ => 0#64, fun _ => 0#8, 0#64, 0#64, 0#64⟩
    ⟨rfl, rfl, hwords, fun _ _ => rfl⟩
    ⟨trivial, trivial, trivial, ⟨hstack, hflags⟩, trivial, trivial, trivial, trivial⟩
  refine ⟨(hread 1).trans rfl, ?_, hshows.guestRsp.trans rfl⟩
  rw [hshows.host]
  decide +kernel

end Runs

end AcrnGuest.VmxRegisters
