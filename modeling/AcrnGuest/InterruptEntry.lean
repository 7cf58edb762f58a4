import Mathlib.Data.List.GetD
import Mathlib.Tactic.IntervalCases
import Mathlib.Tactic.SplitIfs
import AcrnGuest.StackCode

/-!
# The way of an interrupt (`lib/x86/isr.c`)

`handle_irq` writes a few instructions into memory of the heap and lets the gate of a vector
point to them. They put the address of the handler on the stack and jump to
`isr_entry_point`, which saves the registers, calls the handler through that address and goes
back to the interrupted code.

The bytes are decoded here as the processor decodes them. The jump is relative with 32 bits,
so it arrives only if the memory of the heap is near the code (`interrupt_runs_handler`).
-/

namespace AcrnGuest.InterruptEntry

open Amd64

/-! ### The source -/

def put {w : Nat} (s : ByteMemory × Quad) (v : BitVec w) : ByteMemory × Quad :=
  (s.1.store s.2 v, s.2 + BitVec.ofNat 64 (w / 8))

/-- The code that `handle_irq` writes to `thunk`. -/
def handleIrq (m : ByteMemory) (thunk func isrEntryPoint : Quad) : ByteMemory :=
  let s := (m, thunk)
  -- `sub $8, %rsp`
  let s := put (put (put (put s 0x48#8) 0x83#8) 0xec#8) 0x08#8
  -- `mov $func_low, (%rsp)`
  let s := put (put (put s 0xc7#8) 0x04#8) 0x24#8
  let s := put s (func.setWidth 32)
  -- `mov $func_high, 4(%rsp)`
  let s := put (put (put (put s 0xc7#8) 0x44#8) 0x24#8) 0x04#8
  let s := put s ((func >>> 32).setWidth 32)
  -- `jmp isr_entry_point`
  let s := put s 0xe9#8
  (put s ((isrEntryPoint - (s.2 + 4#64)).setWidth 32)).1

/-- `isr_entry_point` up to the call. -/
def saveRegisters : List Instr :=
  [.r15, .r14, .r13, .r12, .r11, .r10, .r9, .r8, .rdi, .rsi, .rbp, .rsp, .rbx, .rdx, .rcx,
    .rax].map .push ++
    [.mov .rdi .rsp]

/-- `isr_entry_point` behind the call, up to `iretq`. -/
def restoreRegisters : List Instr :=
  [.rax, .rcx, .rdx, .rbx, .rbp, .rbp, .rsi, .rdi, .r8, .r9, .r10, .r11, .r12, .r13, .r14,
    .r15].map .pop ++
    [.addRsp 8#64]

def callTarget (c : Cpu) : Quad := c.mem.load64 (c.reg .rsp + 128#64)

/-! ### The processor -/

/-- An instruction of the code in memory, or a jump. -/
inductive Fetched
  | instr (i : Instr)
  | jmp (rel : BitVec 32)
deriving DecidableEq

def imm (b : Nat → BitVec 8) (i : Nat) : BitVec 32 := b (i + 3) ++ b (i + 2) ++ b (i + 1) ++ b i

/-- The instruction in the bytes `b`, and its length; only the encodings that occur here. -/
def decode (b : Nat → BitVec 8) : Option (Fetched × Nat) :=
  if b 0 = 0x48#8 ∧ b 1 = 0x83#8 ∧ b 2 = 0xec#8 then
    some (.instr (.subRsp ((b 3).signExtend 64)), 4)
  else if b 0 = 0xc7#8 ∧ b 1 = 0x04#8 ∧ b 2 = 0x24#8 then
    some (.instr (.storeImm .rsp 0#64 (imm b 3)), 7)
  else if b 0 = 0xc7#8 ∧ b 1 = 0x44#8 ∧ b 2 = 0x24#8 then
    some (.instr (.storeImm .rsp ((b 3).signExtend 64) (imm b 4)), 8)
  else if b 0 = 0xe9#8 then some (.jmp (imm b 1), 5)
  else none

/-- One instruction at the instruction pointer. -/
def fetch (alu : Alu) (c : Cpu) : Option Cpu :=
  (decode fun i => c.mem (c.rip + BitVec.ofNat 64 i)).map fun f =>
    match f with
    | (.instr i, n) => { c.exec alu i with rip := c.rip + BitVec.ofNat 64 n }
    | (.jmp rel, n) => { c with rip := c.rip + BitVec.ofNat 64 n + rel.signExtend 64 }

/-- The state in front of `isr_entry_point`: the interrupt, and four instructions at its gate. -/
def thunkDone (alu : Alu) (g : Gate) (c : Cpu) : Option Cpu :=
  (fetch alu (g.deliver c none)).bind fun c => (fetch alu c).bind fun c =>
    (fetch alu c).bind (fetch alu)

/-- The function of the program at an address, with its effect on the memory. -/
abbrev Functions := Quad → ByteMemory → Quad → Option ByteMemory

/-- One interrupt, from the interrupted code to the state behind `iretq`. -/
def Interrupted (alu : Alu) (functions : Functions) (isrEntryPoint : Quad)
    (scratch : Nat) (g : Gate) (c c' : Cpu) : Prop :=
  ∃ x y, thunkDone alu g c = some x ∧ x.rip = isrEntryPoint ∧
    Called scratch (fun m => functions (callTarget (x.run alu saveRegisters)) m
      ((x.run alu saveRegisters).reg .rdi))
      (x.run alu saveRegisters) y ∧
    c' = (y.run alu restoreRegisters).iretq

/-! ### The code in memory -/

section Thunk

def bytesOf {w : Nat} (v : BitVec w) : List (BitVec 8) :=
  (List.range (w / 8)).map fun i => v.extractLsb' (8 * i) 8

/-- The bytes `bs` have been written from `a` on. -/
structure Written (a : Quad) (bs : List (BitVec 8)) (s : ByteMemory × Quad) : Prop where
  cursor : s.2 = a + BitVec.ofNat 64 bs.length
  bytes : ∀ i < bs.length, s.1 (a + BitVec.ofNat 64 i) = bs.getD i 0#8

theorem Written.put {a : Quad} {bs : List (BitVec 8)} {s : ByteMemory × Quad}
    (h : Written a bs s) {w : Nat} (v : BitVec w) (hw : 8 * (w / 8) = w)
    (hroom : bs.length + w / 8 < 2 ^ 64) :
    Written a (bs ++ bytesOf v) (InterruptEntry.put s v) := by
  have hlen : (bytesOf v).length = w / 8 := by rw [bytesOf, List.length_map, List.length_range]
  refine ⟨?_, fun i hi => ?_⟩
  · rw [InterruptEntry.put, h.cursor, List.length_append, hlen, BitVec.ofNat_add, add_assoc]
  · rw [List.length_append, hlen] at hi
    rw [InterruptEntry.put, h.cursor]
    rcases Nat.lt_or_ge i bs.length with hold | hnew
    · rw [List.getD_append _ _ _ _ hold, ← h.bytes i hold]
      refine ByteMemory.store_of_ne v fun j hj => ?_
      rw [add_assoc, ← BitVec.ofNat_add]
      exact add_ofNat_ne a (by omega) (by omega) (by omega)
    · obtain ⟨j, rfl⟩ := Nat.exists_eq_add_of_le hnew
      rw [List.getD_append_right _ _ _ _ (Nat.le_add_right _ _), Nat.add_sub_cancel_left,
        BitVec.ofNat_add, ← add_assoc]
      refine (ByteMemory.store_inside v (by omega) (by omega)).trans ?_
      simp [bytesOf, List.getD, show j < w / 8 by omega]

@[simp] theorem length_bytesOf {w : Nat} (v : BitVec w) : (bytesOf v).length = w / 8 := by
  rw [bytesOf, List.length_map, List.length_range]

theorem Written.byte {a : Quad} {bs : List (BitVec 8)} {s : ByteMemory × Quad} (h : Written a bs s)
    (v : BitVec 8) (hroom : bs.length + 1 < 2 ^ 64) :
    Written a (bs ++ [v]) (InterruptEntry.put s v) := by
  have hv : bytesOf v = [v] := by
    simp [bytesOf]
  rw [← hv]
  exact h.put v rfl hroom

def thunkBytes (func : Quad) (rel : BitVec 32) : List (BitVec 8) :=
  [0x48#8, 0x83#8, 0xec#8, 0x08#8, 0xc7#8, 0x04#8, 0x24#8] ++
    bytesOf ((func.setWidth 32 : BitVec 32)) ++
    [0xc7#8, 0x44#8, 0x24#8, 0x04#8] ++ bytesOf (((func >>> 32).setWidth 32 : BitVec 32)) ++
      [0xe9#8] ++ bytesOf rel

theorem handleIrq_bytes (m : ByteMemory) (thunk func isrEntryPoint : Quad) {i : Nat} (hi : i < 24) :
    handleIrq m thunk func isrEntryPoint (thunk + BitVec.ofNat 64 i)
      = (thunkBytes func ((isrEntryPoint - (thunk + 24#64)).setWidth 32)).getD i 0#8 := by
  have h₀ : Written thunk [] (m, thunk) := ⟨by simp, fun i hi => absurd hi (Nat.not_lt_zero i)⟩
  have h₁ := (((h₀.byte 0x48#8 (by simp)).byte 0x83#8 (by simp)).byte 0xec#8 (by simp)).byte 0x08#8
    (by simp)
  have h₂ := ((h₁.byte 0xc7#8 (by simp)).byte 0x04#8 (by simp)).byte 0x24#8 (by simp)
  have h₃ := h₂.put (func.setWidth 32 : BitVec 32) rfl (by simp)
  have h₄ := (((h₃.byte 0xc7#8 (by simp)).byte 0x44#8 (by simp)).byte 0x24#8 (by simp)).byte 0x04#8
    (by simp)
  have h₅ := h₄.put ((func >>> 32).setWidth 32 : BitVec 32) rfl (by simp)
  have h₆ := h₅.byte 0xe9#8 (by simp)
  have hend := congrArg (· + 4#64) h₆.cursor
  simp only [List.length_append, length_bytesOf, List.length_cons, List.length_nil,
    add_assoc] at hend
  have h₇ :=
    (h₆.put ((isrEntryPoint - (thunk + 24#64)).setWidth 32 : BitVec 32) rfl (by simp)).bytes i
    (by simpa using hi)
  rw [handleIrq, hend]
  exact h₇

/-- Two stores of 32 bits are one of 64. -/
theorem store_halves (m : ByteMemory) (a v : Quad) :
    (m.store a (v.setWidth 32)).store (a + 4#64) ((v >>> 32).setWidth 32) = m.store a v := by
  funext b
  have hlt := (b - a).isLt
  have hb : (b - (a + 4#64)).toNat = (2 ^ 64 - 4 + (b - a).toNat) % 2 ^ 64 := by
    rw [show b - (a + 4#64) = b - a - 4#64 by ring, BitVec.toNat_sub]
    rfl
  by_cases hlow : (b - a).toNat < 4
  · rw [ByteMemory.store_apart _ (by omega), ByteMemory.store, ByteMemory.store, if_pos (by omega),
      if_pos (by omega)]
    exact BitVec.extractLsb'_setWidth_of_le (by omega)
  have hb' : (b - (a + 4#64)).toNat = (b - a).toNat - 4 := by omega
  by_cases hhigh : (b - a).toNat < 8
  · rw [ByteMemory.store, hb', if_pos (by omega), ByteMemory.store, if_pos (by omega)]
    refine BitVec.eq_of_getLsbD_eq fun i hi => ?_
    simp only [BitVec.getLsbD_extractLsb', BitVec.getLsbD_setWidth, BitVec.getLsbD_ushiftRight]
    grind
  · rw [ByteMemory.store_apart _ (by omega), ByteMemory.store_apart _ (by omega),
      ByteMemory.store_apart _ (by omega)]

section Decode

variable {b : Nat → BitVec 8} {v : BitVec 32}

theorem imm_eq {k : Nat} (h : ∀ i < 4, b (k + i) = v.extractLsb' (8 * i) 8) : imm b k = v := by
  have h0 := h 0 (by decide)
  rw [Nat.add_zero] at h0
  rw [imm, h0, h 1 (by decide), h 2 (by decide), h 3 (by decide)]
  refine BitVec.eq_of_getLsbD_eq fun i hi => ?_
  simp only [BitVec.getLsbD_append, BitVec.getLsbD_extractLsb']
  grind

theorem decode_sub (h0 : b 0 = 0x48#8) (h1 : b 1 = 0x83#8) (h2 : b 2 = 0xec#8) (h3 : b 3 = 0x08#8) :
    decode b = some (.instr (.subRsp 8#64), 4) := by
  simp [decode, h0, h1, h2, h3]

theorem decode_low (h0 : b 0 = 0xc7#8) (h1 : b 1 = 0x04#8) (h2 : b 2 = 0x24#8)
    (hv : ∀ i < 4, b (3 + i) = v.extractLsb' (8 * i) 8) :
    decode b = some (.instr (.storeImm .rsp 0#64 v), 7) := by
  simp [decode, h0, h1, h2, imm_eq hv]

theorem decode_high (h0 : b 0 = 0xc7#8) (h1 : b 1 = 0x44#8) (h2 : b 2 = 0x24#8) (h3 : b 3 = 0x04#8)
    (hv : ∀ i < 4, b (4 + i) = v.extractLsb' (8 * i) 8) :
    decode b = some (.instr (.storeImm .rsp 4#64 v), 8) := by
  simp [decode, h0, h1, h2, h3, imm_eq hv]

theorem decode_jmp (h0 : b 0 = 0xe9#8) (hv : ∀ i < 4, b (1 + i) = v.extractLsb' (8 * i) 8) :
    decode b = some (.jmp v, 5) := by
  simp [decode, h0, imm_eq hv]

end Decode

section Fetch

variable (alu : Alu) {g : Gate} {c : Cpu} {func : Quad} {rel : BitVec 32}

theorem fetch_instr {c : Cpu} {i : Instr} {n : Nat}
    (h : decode (fun i => c.mem (c.rip + BitVec.ofNat 64 i)) = some (.instr i, n)) :
    fetch alu c = some { c.exec alu i with rip := c.rip + BitVec.ofNat 64 n } := by
  rw [fetch, h]
  rfl

theorem fetch_jmp {c : Cpu} {rel : BitVec 32} {n : Nat}
    (h : decode (fun i => c.mem (c.rip + BitVec.ofNat 64 i)) = some (.jmp rel, n)) :
    fetch alu c = some { c with rip := c.rip + BitVec.ofNat 64 n + rel.signExtend 64 } := by
  rw [fetch, h]
  rfl

def CodeAt (a func : Quad) (rel : BitVec 32) (m : ByteMemory) : Prop :=
  ∀ i < 24, m (a + BitVec.ofNat 64 i) = (thunkBytes func rel).getD i 0#8

theorem CodeAt.bytes {a : Quad} {k : Nat} {c : Cpu} (h : CodeAt a func rel c.mem)
    (hrip : c.rip = a + BitVec.ofNat 64 k) (i : Nat) (hi : k + i < 24) :
    c.mem (c.rip + BitVec.ofNat 64 i) = (thunkBytes func rel).getD (k + i) 0#8 := by
  rw [hrip, add_assoc, ← BitVec.ofNat_add]
  exact h _ hi

/-- A store to the stack leaves the code alone. -/
theorem CodeAt.store {a sp : Quad} {m : ByteMemory} {n k : Nat} (h : CodeAt a func rel m)
    (hoff : ∀ i < 24, ¬ Below sp n (a + BitVec.ofNat 64 i)) (hn : n ≤ 2 ^ 64) (hk : k + 4 ≤ n)
    (v : BitVec 32) :
    CodeAt a func rel (m.store (sp - BitVec.ofNat 64 n + BitVec.ofNat 64 k) v) := by
  intro i hi
  rw [← h i hi]
  refine ByteMemory.store_of_ne v fun j hj heq => hoff i hi ?_
  rw [heq, add_assoc, ← BitVec.ofNat_add]
  exact below_sub_add (by omega) hn

/-- The four instructions put the address of the handler on the stack and jump. -/
theorem thunkDone_eq (hcode : CodeAt g.entry func rel c.mem)
    (hoff : ∀ i < 24, ¬ Below g.top 48 (g.entry + BitVec.ofNat 64 i)) :
    ∃ x, thunkDone alu g c = some x ∧ x.reg = ((g.deliver c none).pushWord func).reg ∧
      x.mem = ((g.deliver c none).pushWord func).mem ∧
        x.rip = g.entry + 24#64 + rel.signExtend 64 := by
  have hgrown := g.grown_deliver c none
  have hsp : (g.deliver c none).reg .rsp - 8#64 = g.top - BitVec.ofNat 64 48 := by
    rw [hgrown.rsp, sub_sub]
    rfl
  have h₀ : CodeAt g.entry func rel (g.deliver c none).mem := fun i hi =>
    (hgrown.mem _ fun hb => hoff i hi (hb.mono (by simp))).trans (hcode i hi)
  have h₁ := h₀.store (k := 0) hoff (by omega) (by omega) (func.setWidth 32)
  have h₂ := h₁.store (k := 4) hoff (by omega) (by omega) ((func >>> 32).setWidth 32)
  rw [← hsp] at h₁ h₂
  obtain ⟨c₁, hf₁, hreg₁, hmem₁, hrip₁⟩ : ∃ c₁, fetch alu (g.deliver c none) = some c₁ ∧
      c₁.reg = ((g.deliver c none).pushWord func).reg ∧ c₁.mem = (g.deliver c none).mem ∧
      c₁.rip = g.entry + BitVec.ofNat 64 4 :=
    ⟨_, fetch_instr alu (decode_sub (h₀ 0 (by decide)) (h₀ 1 (by decide)) (h₀ 2 (by decide))
      (h₀ 3 (by decide))),
      rfl, rfl, rfl⟩
  have hrsp : c₁.reg .rsp = (g.deliver c none).reg .rsp - 8#64 := by
    rw [hreg₁, Cpu.pushWord_reg, Function.update_self]
  rw [← hmem₁] at h₀
  rw [← hmem₁, ← hrsp] at h₁ h₂
  have hb₁ := h₀.bytes hrip₁
  obtain ⟨c₂, hf₂, hreg₂, hmem₂, hrip₂⟩ : ∃ c₂, fetch alu c₁ = some c₂ ∧ c₂.reg = c₁.reg ∧
      c₂.mem = c₁.mem.store (c₁.reg .rsp + 0#64) (func.setWidth 32) ∧
        c₂.rip = g.entry + BitVec.ofNat 64 11 := by
    refine ⟨_, fetch_instr alu
      (decode_low (hb₁ 0 (by decide)) (hb₁ 1 (by decide)) (hb₁ 2 (by decide))
      fun i hi => ?_), rfl, rfl, by rw [hrip₁, add_assoc]; rfl⟩
    interval_cases i <;> exact hb₁ _ (by decide)
  rw [← hmem₂] at h₁
  rw [← hmem₂, ← hreg₂] at h₂
  have hb₂ := h₁.bytes hrip₂
  obtain ⟨c₃, hf₃, hreg₃, hmem₃, hrip₃⟩ : ∃ c₃, fetch alu c₂ = some c₃ ∧ c₃.reg = c₂.reg ∧
      c₃.mem = c₂.mem.store (c₂.reg .rsp + 4#64) ((func >>> 32).setWidth 32) ∧
      c₃.rip = g.entry + BitVec.ofNat 64 19 := by
    refine ⟨_, fetch_instr alu
      (decode_high (hb₂ 0 (by decide)) (hb₂ 1 (by decide)) (hb₂ 2 (by decide))
      (hb₂ 3 (by decide)) fun i hi => ?_), rfl, rfl, by rw [hrip₂, add_assoc]; rfl⟩
    interval_cases i <;> exact hb₂ _ (by decide)
  rw [← hmem₃] at h₂
  have hb₃ := h₂.bytes hrip₃
  have hf₄ : fetch alu c₃ =
      some { c₃ with rip := c₃.rip + BitVec.ofNat 64 5 + rel.signExtend 64 } := by
    refine fetch_jmp alu (decode_jmp (hb₃ 0 (by decide)) fun i hi => ?_)
    interval_cases i <;> exact hb₃ _ (by decide)
  refine ⟨{ c₃ with rip := c₃.rip + BitVec.ofNat 64 5 + rel.signExtend 64 }, ?_,
    hreg₃.trans (hreg₂.trans hreg₁), ?_, ?_⟩
  · rw [thunkDone, hf₁, Option.bind_some, hf₂, Option.bind_some, hf₃, Option.bind_some, hf₄]
  · show c₃.mem = _
    rw [hmem₃, hmem₂, hreg₂, BitVec.add_zero, store_halves, hmem₁, hrsp]
    rfl
  · show c₃.rip + BitVec.ofNat 64 5 + rel.signExtend 64 = _
    rw [hrip₃, add_assoc g.entry]
    rfl

end Fetch

end Thunk

/-! ### The frame -/

section Frames

variable {alu : Alu} {g : Gate} {c x y : Cpu} {func dummy : Quad}

/-- The words from the stack pointer at the call upwards: `isr_regs_t` and the two words behind
    it that the processor pushed. -/
def frame (c : Cpu) (image dummy func : Quad) : List Quad :=
  [c.reg .rax, c.reg .rcx, c.reg .rdx, c.reg .rbx, dummy, c.reg .rbp, c.reg .rsi, c.reg .rdi,
    c.reg .r8, c.reg .r9, c.reg .r10, c.reg .r11, c.reg .r12, c.reg .r13, c.reg .r14, c.reg .r15,
    func, c.rip, c.cs, image, c.reg .rsp, c.ss]

theorem grown_saved (alu : Alu) (hreg : x.reg = ((g.deliver c none).pushWord func).reg)
    (hmem : x.mem = ((g.deliver c none).pushWord func).mem) :
    ∃ dummy c', Grown c c' g.top (frame c (g.image c.rflags) dummy func) ∧
      x.run alu saveRegisters = c'.set .rdi (c'.reg .rsp) := by
  have hthunk := ((g.grown_deliver c none).pushWord (by simp) func).of_eq hreg hmem
  have hhigh := hthunk.run_push alu [.r15, .r14, .r13, .r12, .r11, .r10, .r9, .r8, .rdi, .rsi, .rbp]
    (by decide) (by simp)
  have hrsp := hhigh.pushWord (by simp)
    ((x.run alu ([.r15, .r14, .r13, .r12, .r11, .r10, .r9, .r8, .rdi, .rsi, .rbp].map .push)).reg
      .rsp)
  exact ⟨_, _, hrsp.run_push alu [.rbx, .rdx, .rcx, .rax] (by decide) (by simp), rfl⟩

theorem restored (alu : Alu) {image : Quad}
    (h : WordsAt y.mem (y.reg .rsp) (frame c image dummy func)) :
    (y.run alu restoreRegisters).iretq = ⟨c.reg, y.mem, c.rip, image, c.cs, c.ss⟩ := by
  have hstart : Unwinds y.mem y.reg (frame c image dummy func) y := ⟨rfl, fun _ _ => rfl, h⟩
  have hpops := Unwinds.run_pop alu
    [.rax, .rcx, .rdx, .rbx, .rbp, .rbp, .rsi, .rdi, .r8, .r9, .r10, .r11, .r12, .r13, .r14, .r15]
    [c.reg .rax, c.reg .rcx, c.reg .rdx, c.reg .rbx, dummy, c.reg .rbp, c.reg .rsi, c.reg .rdi,
      c.reg .r8, c.reg .r9, c.reg .r10, c.reg .r11, c.reg .r12, c.reg .r13, c.reg .r14,
      c.reg .r15] hstart (by decide) rfl
  refine (hpops.addRsp alu).iretq.trans ?_
  congr 1
  funext r
  cases r <;> rfl

end Frames

/-! ### The interrupt -/

section Interrupts

variable {alu : Alu} {functions : Functions} {m₀ : ByteMemory} {isrEntryPoint func : Quad}
  {scratch : Nat} {g : Gate} {c c' : Cpu}

/-- The distance from the end of the thunk fits the jump. -/
def Near (thunk isrEntryPoint : Quad) : Prop :=
  -2 ^ 31 ≤ (isrEntryPoint - (thunk + 24#64)).toInt ∧
    (isrEntryPoint - (thunk + 24#64)).toInt < 2 ^ 31

theorem signExtend_setWidth_iff (d : Quad) :
    (d.setWidth 32).signExtend 64 = d ↔ -2 ^ 31 ≤ d.toInt ∧ d.toInt < 2 ^ 31 := by
  have hlt := d.isLt
  rw [← BitVec.toInt_inj, BitVec.toInt_signExtend_of_le (by decide), BitVec.toInt_setWidth,
    BitVec.toInt_eq_toNat_cond, Int.bmod_def]
  split_ifs <;> omega

theorem jump_iff (thunk isrEntryPoint : Quad) :
    thunk + 24#64 + ((isrEntryPoint - (thunk + 24#64)).setWidth 32).signExtend 64 = isrEntryPoint ↔
      Near thunk isrEntryPoint := by
  rw [Near, ← signExtend_setWidth_iff, eq_sub_iff_add_eq']

/-- The memory that a handler is called with: the frame is on the stack, everything else is as the
    interrupt found it. -/
structure FrameMemory (g : Gate) (func : Quad) (c : Cpu) (m : ByteMemory) : Prop where
  words : ∃ dummy, WordsAt m (g.top - 176#64) (frame c (g.image c.rflags) dummy func)
  mem : ∀ a, ¬ Below g.top 176 a → m a = c.mem a

/-- The call of the handler, with the frame as its argument. -/
structure AtCall (g : Gate) (func : Quad) (c x : Cpu) : Prop where
  rsp : x.reg .rsp = g.top - BitVec.ofNat 64 176
  rdi : x.reg .rdi = g.top - BitVec.ofNat 64 176
  memory : FrameMemory g func c x.mem

theorem AtCall.callTarget {x : Cpu} (h : AtCall g func c x) : callTarget x = func := by
  obtain ⟨dummy, -, -, -, -, -, -, -, -, -, -, -, -, -, -, -, -, hfunc, -⟩ := h.memory.words
  simp only [add_assoc] at hfunc
  rw [InterruptEntry.callTarget, h.rsp]
  exact hfunc

theorem atCall (alu : Alu) (hcode : ∀ i < 24, c.mem (g.entry + BitVec.ofNat 64 i)
      = handleIrq m₀ g.entry func isrEntryPoint (g.entry + BitVec.ofNat 64 i))
    (hoff : ∀ i < 24, ¬ Below g.top (scratch + 176) (g.entry + BitVec.ofNat 64 i)) :
    ∃ x, thunkDone alu g c = some x ∧ (x.rip = isrEntryPoint ↔ Near g.entry isrEntryPoint) ∧
      AtCall g func c (x.run alu saveRegisters) := by
  obtain ⟨x, hx, hreg, hmem, hrip⟩ := thunkDone_eq alu
    (fun i hi => (hcode i hi).trans (handleIrq_bytes m₀ g.entry func isrEntryPoint hi))
    fun i hi hb => hoff i hi (hb.mono (by omega))
  obtain ⟨dummy, c₁, hgrown, hrun⟩ := grown_saved alu hreg hmem
  have hsp : c₁.reg .rsp = g.top - BitVec.ofNat 64 176 := hgrown.rsp
  refine ⟨x, hx, by rw [hrip, jump_iff], ?_⟩
  rw [hrun]
  refine ⟨?_, ?_, ⟨dummy, ?_⟩, hgrown.mem⟩
  · rw [Cpu.set_reg, Function.update_of_ne (by decide), hsp]
  · rw [Cpu.set_reg, Function.update_self, hsp]
  · rw [← hsp]
    exact hgrown.words

/-- A handler of this interrupt that returns leaves the frame alone. -/
def KeepsFrame (functions : Functions) (g : Gate) (func : Quad) (c : Cpu) : Prop :=
  ∀ m m', FrameMemory g func c m → functions func m (g.top - 176#64) = some m' →
    ∀ a, Below g.top 176 a → m' a = m a

/-- An interrupt that comes to an end has run the handler, and the interrupted code has its
    registers again. -/
theorem Interrupted.returns (hcode : ∀ i < 24, c.mem (g.entry + BitVec.ofNat 64 i)
      = handleIrq m₀ g.entry func isrEntryPoint (g.entry + BitVec.ofNat 64 i))
    (hoff : ∀ i < 24, ¬ Below g.top (scratch + 176) (g.entry + BitVec.ofNat 64 i))
    (hroom : scratch + 176 < 2 ^ 64) (hkeep : KeepsFrame functions g func c)
    (h : Interrupted alu functions isrEntryPoint scratch g c c') :
    ∃ m m', FrameMemory g func c m ∧ functions func m (g.top - 176#64) = some m' ∧
      c' = ⟨c.reg, c'.mem, c.rip, g.image c.rflags, c.cs, c.ss⟩ ∧
      ∀ a, ¬ Below g.top (scratch + 176) a → c'.mem a = m' a := by
  obtain ⟨x, hx, -, hcall⟩ := atCall alu hcode hoff
  obtain ⟨x', y, hx', -, hcalled, rfl⟩ := h
  obtain rfl : x = x' := Option.some.inj (hx.symm.trans hx')
  obtain ⟨hrsp, m', hm', hmem⟩ := hcalled
  rw [hcall.callTarget, hcall.rdi] at hm'
  rw [hcall.rsp] at hrsp hmem
  obtain ⟨dummy, hwords⟩ := hcall.memory.words
  -- the frame lies above what the compiled code used, and the handler does not touch it
  have hy : WordsAt y.mem (y.reg .rsp) (frame c (g.image c.rflags) dummy func) := by
    rw [hrsp]
    refine hwords.congr fun i hi => ?_
    have hi' : i < 176 := hi
    rw [hmem _ (not_below_add (by omega))]
    exact hkeep _ _ hcall.memory hm' _ (below_sub_add hi' (by omega))
  have hz := restored alu hy
  refine ⟨_, m', hcall.memory, hm', by rw [hz], fun a ha => ?_⟩
  rw [hz]
  exact hmem a fun hb => ha (hb.of_sub (by omega))

theorem exists_interrupted (alu : Alu) (hcode : ∀ i < 24, c.mem (g.entry + BitVec.ofNat 64 i)
      = handleIrq m₀ g.entry func isrEntryPoint (g.entry + BitVec.ofNat 64 i))
    (hoff : ∀ i < 24, ¬ Below g.top (scratch + 176) (g.entry + BitVec.ofNat 64 i))
    (hnear : Near g.entry isrEntryPoint)
    (hreturns : ∀ m, FrameMemory g func c m → (functions func m (g.top - 176#64)).isSome) :
    ∃ c', Interrupted alu functions isrEntryPoint scratch g c c' := by
  obtain ⟨x, hx, hjump, hcall⟩ := atCall alu hcode hoff
  obtain ⟨m', hm'⟩ := Option.isSome_iff_exists.mp (hreturns _ hcall.memory)
  refine ⟨_, x, _, hx, hjump.mpr hnear, .of_effect scratch (m := m') ?_, rfl⟩
  rw [hcall.callTarget, hcall.rdi]
  exact hm'

/-- An interrupt of a vector that `handle_irq` set up arrives at `isr_entry_point` exactly if the
    thunk is near. The handler is then called with the frame on the stack and the rest of the
    memory as it was; if it leaves the frame alone, the interrupted code goes on with all its
    registers and flags, and it does go on if the handler returns. -/
theorem interrupt_runs_handler (alu : Alu) (functions : Functions) (m₀ : ByteMemory)
    (isrEntryPoint func : Quad) (scratch : Nat) (g : Gate) (c : Cpu)
    (hcode : ∀ i < 24, c.mem (g.entry + BitVec.ofNat 64 i)
      = handleIrq m₀ g.entry func isrEntryPoint (g.entry + BitVec.ofNat 64 i))
    (hoff : ∀ i < 24, ¬ Below g.top (scratch + 176) (g.entry + BitVec.ofNat 64 i))
    (hroom : scratch + 176 < 2 ^ 64) (hkeep : KeepsFrame functions g func c) :
    (∃ x, thunkDone alu g c = some x ∧ (x.rip = isrEntryPoint ↔ Near g.entry isrEntryPoint)) ∧
    (∀ c', Interrupted alu functions isrEntryPoint scratch g c c' → ∃ m m',
      FrameMemory g func c m ∧ functions func m (g.top - 176#64) = some m' ∧
      c' = ⟨c.reg, c'.mem, c.rip, g.image c.rflags, c.cs, c.ss⟩ ∧
      ∀ a, ¬ Below g.top (scratch + 176) a → c'.mem a = m' a) ∧
    (Near g.entry isrEntryPoint →
      (∀ m, FrameMemory g func c m → (functions func m (g.top - 176#64)).isSome) →
      ∃ c', Interrupted alu functions isrEntryPoint scratch g c c') := by
  obtain ⟨x, hx, hjump, -⟩ := atCall alu hcode hoff
  refine ⟨⟨x, hx, hjump⟩, fun c' h => h.returns hcode hoff hroom hkeep, fun hnear hreturns => ?_⟩
  exact exists_interrupted alu hcode hoff hnear hreturns

/-- A handler that does nothing, with its thunk at `0x5000`. -/
theorem interrupt_runs_handler_idle :
    ∃ c', Interrupted (fun _ c => c.rflags) (fun _ m _ => some m) 0x600#64 512
      ⟨0x5000#64, 0x8000#64, 8#64, 16#64, 2#64, false⟩
      ⟨fun _ => 0x8000#64, handleIrq (fun _ => 0#8) 0x5000#64 0x700#64 0x600#64, 0x40#64, 0x202#64,
        8#64, 16#64⟩ c' :=
  (interrupt_runs_handler (fun _ c => c.rflags) (fun _ m _ => some m) (fun _ => 0#8) 0x600#64
    0x700#64 512 ⟨0x5000#64, 0x8000#64, 8#64, 16#64, 2#64, false⟩
    ⟨fun _ => 0x8000#64, handleIrq (fun _ => 0#8) 0x5000#64 0x700#64 0x600#64, 0x40#64, 0x202#64,
      8#64, 16#64⟩
    (fun _ _ => rfl) (by decide +kernel) (by decide)
    (fun m m' _ h a _ => by rw [Option.some.inj h])).2.2 (by unfold Near; decide) fun _ _ => rfl

end Interrupts

end AcrnGuest.InterruptEntry
