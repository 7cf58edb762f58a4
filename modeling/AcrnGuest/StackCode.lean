import Mathlib.Data.BitVec
import Mathlib.Data.List.Basic
import Mathlib.Logic.Function.Basic
import Mathlib.Tactic.Ring

/-!
# Straight code of a 64-bit processor

The registers and the memory of an x86-64 processor, the instructions by which code saves
and restores registers (`push`, `pop`, `xchg`, loads and stores relative to a register,
adjustments of the stack pointer), and the way the processor itself enters and leaves a handler.

The code is followed through the words on the stack: `Grown` says which words have been put
on it and that nothing else has changed, and `Cpu.run_pop` takes a list of registers off it again.
-/

namespace Amd64

/-! ### Memory -/

abbrev Quad := BitVec 64

abbrev ByteMemory := Quad → BitVec 8

def ByteMemory.store {w : Nat} (m : ByteMemory) (a : Quad) (v : BitVec w) : ByteMemory := fun b =>
  if 8 * (b - a).toNat < w then v.extractLsb' (8 * (b - a).toNat) 8 else m b

def ByteMemory.load64 (m : ByteMemory) (a : Quad) : Quad :=
  m (a + 7#64) ++ m (a + 6#64) ++ m (a + 5#64) ++ m (a + 4#64) ++ m (a + 3#64) ++ m (a + 2#64) ++
    m (a + 1#64) ++ m a

section Memory

variable {w : Nat} {m m' : ByteMemory} {a b : Quad}

theorem ByteMemory.store_apart (v : BitVec w) (h : w ≤ 8 * (b - a).toNat) : m.store a v b = m b :=
  if_neg (Nat.not_lt.mpr h)

theorem add_ofNat_ne (a : Quad) {i j : Nat} (hi : i < 2 ^ 64) (hj : j < 2 ^ 64) (h : i ≠ j) :
    a + BitVec.ofNat 64 i ≠ a + BitVec.ofNat 64 j := by
  intro heq
  have hnat := congrArg BitVec.toNat (add_left_cancel heq)
  rw [BitVec.toNat_ofNat, BitVec.toNat_ofNat, Nat.mod_eq_of_lt hi, Nat.mod_eq_of_lt hj] at hnat
  exact h hnat

theorem ByteMemory.store_of_ne (v : BitVec w) (h : ∀ i, 8 * i < w → b ≠ a + BitVec.ofNat 64 i) :
    m.store a v b = m b := by
  refine ByteMemory.store_apart v (Nat.not_lt.mp fun hlt => h _ hlt ?_)
  rw [BitVec.ofNat_toNat, BitVec.setWidth_eq, add_sub_cancel]

theorem ByteMemory.store_inside (v : BitVec w) {i : Nat} (hi : i < 2 ^ 64) (h : 8 * i < w) :
    m.store a v (a + BitVec.ofNat 64 i) = v.extractLsb' (8 * i) 8 := by
  have hoff : (a + BitVec.ofNat 64 i - a).toNat = i := by
    rw [add_sub_cancel_left, BitVec.toNat_ofNat, Nat.mod_eq_of_lt hi]
  rw [ByteMemory.store, hoff, if_pos h]

theorem ByteMemory.load64_congr (h : ∀ i < 8,
    m (a + BitVec.ofNat 64 i) = m' (a + BitVec.ofNat 64 i)) :
    m.load64 a = m'.load64 a := by
  have h0 := h 0 (by decide)
  rw [BitVec.add_zero] at h0
  simp only [ByteMemory.load64, h0, h 1 (by decide), h 2 (by decide), h 3 (by decide),
    h 4 (by decide), h 5 (by decide), h 6 (by decide), h 7 (by decide)]

theorem append_extract (v : Quad) :
    v.extractLsb' 56 8 ++ v.extractLsb' 48 8 ++ v.extractLsb' 40 8 ++ v.extractLsb' 32 8 ++
      v.extractLsb' 24 8 ++ v.extractLsb' 16 8 ++ v.extractLsb' 8 8 ++ v.extractLsb' 0 8 = v := by
  refine BitVec.eq_of_getLsbD_eq fun i hi => ?_
  simp only [BitVec.getLsbD_append, BitVec.getLsbD_extractLsb']
  grind

theorem ByteMemory.load64_store (m : ByteMemory) (a v : Quad) : (m.store a v).load64 a = v := by
  have hbyte : ∀ i < 8, m.store a v (a + BitVec.ofNat 64 i) = v.extractLsb' (8 * i) 8 :=
    fun i hi => ByteMemory.store_inside v (by omega) (by omega)
  have h0 := hbyte 0 (by decide)
  rw [BitVec.add_zero] at h0
  rw [ByteMemory.load64, h0, hbyte 1 (by decide), hbyte 2 (by decide), hbyte 3 (by decide),
    hbyte 4 (by decide), hbyte 5 (by decide), hbyte 6 (by decide), hbyte 7 (by decide)]
  exact append_extract v

theorem ByteMemory.extract_load64 (m : ByteMemory) (a : Quad) {i : Nat} (hi : i < 8) :
    (m.load64 a).extractLsb' (8 * i) 8 = m (a + BitVec.ofNat 64 i) := by
  obtain rfl | rfl | rfl | rfl | rfl | rfl | rfl | rfl :
      i = 0 ∨ i = 1 ∨ i = 2 ∨ i = 3 ∨ i = 4 ∨ i = 5 ∨ i = 6 ∨ i = 7 := by omega
  all_goals
    refine BitVec.eq_of_getLsbD_eq fun j hj => ?_
    simp only [ByteMemory.load64, BitVec.getLsbD_append, BitVec.getLsbD_extractLsb',
      BitVec.add_zero]
    grind

def Below (sp : Quad) (n : Nat) (a : Quad) : Prop := (sp - 1#64 - a).toNat < n

instance (sp : Quad) (n : Nat) (a : Quad) : Decidable (Below sp n a) :=
  inferInstanceAs (Decidable (_ < _))

theorem Below.mono {sp : Quad} {k n : Nat} (h : Below sp k a) (hkn : k ≤ n) : Below sp n a :=
  Nat.lt_of_lt_of_le h hkn

theorem Below.of_sub {sp : Quad} {k n : Nat} (h : Below (sp - BitVec.ofNat 64 k) n a)
    (hroom : n + k ≤ 2 ^ 64) : Below sp (n + k) a := by
  unfold Below at h ⊢
  have hoff : sp - 1#64 - a = sp - BitVec.ofNat 64 k - 1#64 - a + BitVec.ofNat 64 k := by ring
  rw [hoff, BitVec.toNat_add, BitVec.toNat_ofNat]
  have hk := Nat.mod_le k (2 ^ 64)
  have hmod := Nat.mod_le ((sp - BitVec.ofNat 64 k - 1#64 - a).toNat + k % 2 ^ 64) (2 ^ 64)
  omega

theorem below_sub_add {sp : Quad} {n i : Nat} (hi : i < n) (hn : n ≤ 2 ^ 64) :
    Below sp n (sp - BitVec.ofNat 64 n + BitVec.ofNat 64 i) := by
  have hoff : sp - 1#64 - (sp - BitVec.ofNat 64 n + BitVec.ofNat 64 i) =
      BitVec.ofNat 64 (n - 1 - i) := by
    rw [show n = n - 1 - i + i + 1 by omega, BitVec.ofNat_add, BitVec.ofNat_add]
    simp only [Nat.add_sub_cancel]
    ring
  rw [Below, hoff, BitVec.toNat_ofNat, Nat.mod_eq_of_lt (by omega)]
  omega

theorem not_below_add {sp : Quad} {n i : Nat} (h : n + i < 2 ^ 64) :
    ¬ Below sp n (sp + BitVec.ofNat 64 i) := by
  have hoff : sp - 1#64 - (sp + BitVec.ofNat 64 i) = BitVec.ofNat 64 (2 ^ 64 - 1 - i) := by
    have hsum : BitVec.ofNat 64 (2 ^ 64 - 1 - i) + BitVec.ofNat 64 i + 1#64 = 0#64 := by
      rw [← BitVec.ofNat_add, ← BitVec.ofNat_add, show 2 ^ 64 - 1 - i + i + 1 = 2 ^ 64 by omega]
      rfl
    calc sp - 1#64 - (sp + BitVec.ofNat 64 i)
        = BitVec.ofNat 64 (2 ^ 64 - 1 - i) -
          (BitVec.ofNat 64 (2 ^ 64 - 1 - i) + BitVec.ofNat 64 i + 1#64) := by ring
      _ = BitVec.ofNat 64 (2 ^ 64 - 1 - i) := by rw [hsum, BitVec.sub_zero]
  rw [Below, hoff, BitVec.toNat_ofNat, Nat.mod_eq_of_lt (by omega)]
  omega

def WordsAt (m : ByteMemory) (a : Quad) : List Quad → Prop
  | [] => True
  | w :: ws => m.load64 a = w ∧ WordsAt m (a + 8#64) ws

variable {ws : List Quad}

theorem WordsAt.congr (h : WordsAt m a ws)
    (hm : ∀ i < 8 * ws.length, m' (a + BitVec.ofNat 64 i) = m (a + BitVec.ofNat 64 i)) :
    WordsAt m' a ws := by
  induction ws generalizing a with
  | nil => trivial
  | cons w ws ih =>
    rw [List.length_cons] at hm
    refine ⟨(ByteMemory.load64_congr fun i hi => hm i (by omega)).trans h.1, ih h.2 fun i hi => ?_⟩
    have hnext : a + 8#64 + BitVec.ofNat 64 i = a + BitVec.ofNat 64 (8 + i) := by
      rw [BitVec.ofNat_add, add_assoc]
    rw [hnext]
    exact hm _ (by omega)

theorem WordsAt.bytes_eq (h : WordsAt m a ws) (h' : WordsAt m' a ws) {i : Nat}
    (hi : i < 8 * ws.length) : m (a + BitVec.ofNat 64 i) = m' (a + BitVec.ofNat 64 i) := by
  induction ws generalizing a i with
  | nil => exact absurd hi (Nat.not_lt_zero i)
  | cons w ws ih =>
    rcases Nat.lt_or_ge i 8 with hlow | hhigh
    · rw [← m.extract_load64 a hlow, ← m'.extract_load64 a hlow, h.1, h'.1]
    · rw [List.length_cons] at hi
      obtain ⟨j, rfl⟩ := Nat.exists_eq_add_of_le hhigh
      rw [BitVec.ofNat_add, ← add_assoc]
      exact ih h.2 h'.2 (by omega)

theorem WordsAt.cons_store (h : WordsAt m a ws) (hroom : 8 * (ws.length + 1) ≤ 2 ^ 64) (v : Quad) :
    WordsAt (m.store (a - 8#64) v) (a - 8#64) (v :: ws) := by
  refine ⟨ByteMemory.load64_store _ _ _, ?_⟩
  rw [sub_add_cancel]
  refine h.congr fun i hi => ByteMemory.store_apart v ?_
  have hoff : (a + BitVec.ofNat 64 i - (a - 8#64)).toNat = i + 8 := by
    have hdiff : a + BitVec.ofNat 64 i - (a - 8#64) = BitVec.ofNat 64 (i + 8) := by
      rw [BitVec.ofNat_add]
      ring
    rw [hdiff, BitVec.toNat_ofNat, Nat.mod_eq_of_lt (by omega)]
  omega

def ByteMemory.storeWords (m : ByteMemory) (a : Quad) : List Quad → ByteMemory
  | [] => m
  | w :: ws => (m.store a w).storeWords (a + 8#64) ws

theorem ByteMemory.storeWords_of_ne (h : ∀ i < 8 * ws.length, b ≠ a + BitVec.ofNat 64 i) :
    m.storeWords a ws b = m b := by
  induction ws generalizing m a with
  | nil => rfl
  | cons w ws ih =>
    rw [List.length_cons] at h
    refine (ih fun i hi => ?_).trans (ByteMemory.store_of_ne w fun i hi => h i (by omega))
    have hnext : a + 8#64 + BitVec.ofNat 64 i = a + BitVec.ofNat 64 (8 + i) := by
      rw [BitVec.ofNat_add, add_assoc]
    rw [hnext]
    exact h _ (by omega)

theorem wordsAt_storeWords (m : ByteMemory) (a : Quad) (hroom : 8 * ws.length ≤ 2 ^ 64) :
    WordsAt (m.storeWords a ws) a ws := by
  induction ws generalizing m a with
  | nil => trivial
  | cons w ws ih =>
    rw [List.length_cons] at hroom
    refine ⟨(ByteMemory.load64_congr fun i hi => ?_).trans (ByteMemory.load64_store m a w),
      ih _ _ (by omega)⟩
    rw [ByteMemory.storeWords]
    refine ByteMemory.storeWords_of_ne fun j hj => ?_
    rw [add_assoc, ← BitVec.ofNat_add]
    exact add_ofNat_ne a (by omega) (by omega) (by omega)

theorem WordsAt.load64 (h : WordsAt m a ws) {k : Nat} (hk : k < ws.length) :
    m.load64 (a + BitVec.ofNat 64 (8 * k)) = ws.getD k 0#64 := by
  induction ws generalizing a k with
  | nil => exact absurd hk (Nat.not_lt_zero _)
  | cons w ws ih =>
    cases k with
    | zero =>
      rw [Nat.mul_zero, BitVec.add_zero]
      exact h.1
    | succ k =>
      rw [Nat.mul_add, Nat.add_comm, BitVec.ofNat_add, ← add_assoc]
      exact ih h.2 (Nat.lt_of_succ_lt_succ hk)

theorem WordsAt.set (h : WordsAt m a ws) (hroom : 8 * ws.length ≤ 2 ^ 64) {k : Nat}
    (hk : k < ws.length) (v : Quad) :
    WordsAt (m.store (a + BitVec.ofNat 64 (8 * k)) v) a (ws.set k v) := by
  induction ws generalizing a k with
  | nil => exact absurd hk (Nat.not_lt_zero _)
  | cons w ws ih =>
    rw [List.length_cons] at hroom hk
    cases k with
    | zero =>
      rw [Nat.mul_zero, BitVec.add_zero]
      refine ⟨ByteMemory.load64_store _ _ _, h.2.congr fun i hi => ByteMemory.store_apart v ?_⟩
      have hoff : a + 8#64 + BitVec.ofNat 64 i - a = BitVec.ofNat 64 (8 + i) := by
        rw [BitVec.ofNat_add]
        ring
      rw [hoff, BitVec.toNat_ofNat, Nat.mod_eq_of_lt (by omega)]
      omega
    | succ k =>
      have hnext : a + BitVec.ofNat 64 (8 * (k + 1)) = a + 8#64 + BitVec.ofNat 64 (8 * k) := by
        rw [Nat.mul_add, BitVec.ofNat_add]
        ring
      refine ⟨?_, hnext ▸ ih h.2 (by omega) (by omega)⟩
      refine (ByteMemory.load64_congr fun i hi => ByteMemory.store_apart v ?_).trans h.1
      have hoff : a + BitVec.ofNat 64 i - (a + BitVec.ofNat 64 (8 * (k + 1)))
          = BitVec.ofNat 64 i - BitVec.ofNat 64 (8 * (k + 1)) := by ring
      rw [hoff, BitVec.toNat_sub, BitVec.toNat_ofNat, BitVec.toNat_ofNat,
        Nat.mod_eq_of_lt (by omega), Nat.mod_eq_of_lt (by omega)]
      omega

end Memory

/-! ### The processor -/

inductive Reg
  | rax | rcx | rdx | rbx | rsp | rbp | rsi | rdi
  | r8 | r9 | r10 | r11 | r12 | r13 | r14 | r15
deriving DecidableEq

structure Cpu where
  reg : Reg → Quad
  mem : ByteMemory
  rip : Quad
  rflags : Quad
  cs : Quad
  ss : Quad

inductive Instr
  | push (r : Reg)
  | pushImm (v : Quad)
  | pop (r : Reg)
  /-- `sub $n, %rsp`. -/
  | subRsp (n : Quad)
  /-- `add $n, %rsp`. -/
  | addRsp (n : Quad)
  /-- `mov %src, %dst`. -/
  | mov (dst src : Reg)
  /-- The same on the low halves, which clears the high half of `dst`. -/
  | movLow (dst src : Reg)
  /-- `xor %r, %r` on the low halves. -/
  | clear (r : Reg)
  /-- `mov disp(%base), %dst`. -/
  | load (dst base : Reg) (disp : Quad)
  /-- `mov %src, disp(%base)`. -/
  | store (base : Reg) (disp : Quad) (src : Reg)
  /-- `movl $v, disp(%base)`. -/
  | storeImm (base : Reg) (disp : Quad) (v : BitVec 32)
  /-- `xchg %r, a`. -/
  | xchg (r : Reg) (a : Quad)
deriving DecidableEq

/-- What an arithmetic instruction leaves in the flags. The code here never reads them, so the
    results hold for every such function. -/
abbrev Alu := Instr → Cpu → Quad

def Cpu.set (c : Cpu) (r : Reg) (v : Quad) : Cpu := { c with reg := Function.update c.reg r v }

def Cpu.pushWord (c : Cpu) (v : Quad) : Cpu :=
  { c with
    reg := Function.update c.reg .rsp (c.reg .rsp - 8#64)
    mem := c.mem.store (c.reg .rsp - 8#64) v }

def Cpu.exec (alu : Alu) (c : Cpu) (i : Instr) : Cpu :=
  match i with
  | .push r => c.pushWord (c.reg r)
  | .pushImm v => c.pushWord v
  | .pop r => (c.set .rsp (c.reg .rsp + 8#64)).set r (c.mem.load64 (c.reg .rsp))
  | .subRsp n => { c.set .rsp (c.reg .rsp - n) with rflags := alu i c }
  | .addRsp n => { c.set .rsp (c.reg .rsp + n) with rflags := alu i c }
  | .mov dst src => c.set dst (c.reg src)
  | .movLow dst src => c.set dst (((c.reg src).setWidth 32).setWidth 64)
  | .clear r => { c.set r 0#64 with rflags := alu i c }
  | .load dst base disp => c.set dst (c.mem.load64 (c.reg base + disp))
  | .store base disp src => { c with mem := c.mem.store (c.reg base + disp) (c.reg src) }
  | .storeImm base disp v => { c with mem := c.mem.store (c.reg base + disp) v }
  | .xchg r a => { c.set r (c.mem.load64 a) with mem := c.mem.store a (c.reg r) }

def Cpu.run (alu : Alu) (c : Cpu) (code : List Instr) : Cpu := code.foldl (Cpu.exec alu) c

def Cpu.ret (c : Cpu) : Cpu :=
  { c.set .rsp (c.reg .rsp + 8#64) with rip := c.mem.load64 (c.reg .rsp) }

/-- `iretq` takes five words from the stack. -/
def Cpu.iretq (c : Cpu) : Cpu :=
  let sp := c.reg .rsp
  { reg := Function.update c.reg .rsp (c.mem.load64 (sp + 24#64))
    mem := c.mem
    rip := c.mem.load64 sp
    cs := c.mem.load64 (sp + 8#64)
    rflags := c.mem.load64 (sp + 16#64)
    ss := c.mem.load64 (sp + 32#64) }

/-- How the processor enters a handler: the stack it takes, the selectors and the flags it
    loads, and whether it sets RF in the flags that it pushes, as it does for a fault. -/
structure Gate where
  entry : Quad
  stack : Quad
  cs : Quad
  ss : Quad
  rflags : Quad
  rf : Bool

/-- The flags that are pushed. -/
def Gate.image (g : Gate) (rflags : Quad) : Quad := if g.rf then rflags ||| 0x10000#64 else rflags

theorem Gate.getLsbD_image (g : Gate) (rflags : Quad) :
    (g.image rflags).getLsbD 16 = (g.rf || rflags.getLsbD 16) := by
  unfold Gate.image
  cases g.rf with
  | true =>
    rw [if_pos rfl, BitVec.getLsbD_or, Bool.true_or]
    exact Bool.or_true _
  | false => rfl

/-- The stack pointer of a handler before anything is pushed. -/
def Gate.top (g : Gate) : Quad := g.stack &&& ~~~15#64

/-- An interrupt or an exception of `c`, with its error code if it has one. -/
def Gate.deliver (g : Gate) (c : Cpu) (errorCode : Option Quad) : Cpu :=
  let c' := { c with reg := Function.update c.reg .rsp g.top }
  let c' := ((c'.pushWord c.ss).pushWord (c.reg .rsp)).pushWord (g.image c.rflags)
  let c' := (c'.pushWord c.cs).pushWord c.rip
  let c' := errorCode.elim c' c'.pushWord
  { c' with rip := g.entry, cs := g.cs, ss := g.ss, rflags := g.rflags }

section Running

variable {alu : Alu} {c c' : Cpu}

@[simp] theorem Cpu.set_reg (c : Cpu) (r : Reg) (v : Quad) :
    (c.set r v).reg = Function.update c.reg r v := rfl

@[simp] theorem Cpu.set_mem (c : Cpu) (r : Reg) (v : Quad) : (c.set r v).mem = c.mem := rfl

@[simp] theorem Cpu.pushWord_reg (c : Cpu) (v : Quad) :
    (c.pushWord v).reg = Function.update c.reg .rsp (c.reg .rsp - 8#64) := rfl

@[simp] theorem Cpu.exec_subRsp_reg (c : Cpu) (n : Quad) :
    (c.exec alu (.subRsp n)).reg = Function.update c.reg .rsp (c.reg .rsp - n) := rfl

@[simp] theorem Cpu.exec_addRsp_reg (c : Cpu) (n : Quad) :
    (c.exec alu (.addRsp n)).reg = Function.update c.reg .rsp (c.reg .rsp + n) := rfl

@[simp] theorem Cpu.exec_pop_reg (c : Cpu) (r : Reg) :
    (c.exec alu (.pop r)).reg
      = Function.update (Function.update c.reg .rsp (c.reg .rsp + 8#64)) r
        (c.mem.load64 (c.reg .rsp)) := rfl

@[simp] theorem Cpu.run_nil : c.run alu [] = c := rfl

@[simp] theorem Cpu.run_cons (i : Instr) (code : List Instr) :
    c.run alu (i :: code) = (c.exec alu i).run alu code := rfl

theorem Cpu.run_append (xs ys : List Instr) : c.run alu (xs ++ ys) = (c.run alu xs).run alu ys :=
  List.foldl_append

/-- The stack pointer `sp` has gone down over the words `ws`; the other registers are those of `c`
    and the memory is that of `c` but for the bytes of these words. -/
structure Grown (c c' : Cpu) (sp : Quad) (ws : List Quad) : Prop where
  rsp : c'.reg .rsp = sp - BitVec.ofNat 64 (8 * ws.length)
  regs : ∀ r, r ≠ .rsp → c'.reg r = c.reg r
  words : WordsAt c'.mem (c'.reg .rsp) ws
  mem : ∀ a, ¬ Below sp (8 * ws.length) a → c'.mem a = c.mem a

theorem Grown.pushWord {sp : Quad} {ws : List Quad} (h : Grown c c' sp ws)
    (hroom : 8 * (ws.length + 1) ≤ 2 ^ 64) (v : Quad) : Grown c (c'.pushWord v) sp (v :: ws) := by
  have hrsp : (c'.pushWord v).reg .rsp = c'.reg .rsp - 8#64 := by
    rw [Cpu.pushWord_reg, Function.update_self]
  refine ⟨?_, fun r hr => ?_, ?_, fun a ha => ?_⟩
  · rw [hrsp, h.rsp, List.length_cons, Nat.mul_add, BitVec.ofNat_add, sub_sub]
  · exact (Function.update_of_ne hr _ _).trans (h.regs r hr)
  · rw [hrsp]
    exact h.words.cons_store hroom v
  · refine (ByteMemory.store_apart v ?_).trans
      (h.mem a fun hb => ha (hb.mono (by rw [List.length_cons]; omega)))
    -- `a` is not among the eight bytes below the words
    rw [h.rsp]
    rw [List.length_cons, Below, Nat.not_lt] at ha
    have hlt := (sp - 1#64 - a).isLt
    have hoff : a - (sp - BitVec.ofNat 64 (8 * ws.length) - 8#64)
        = BitVec.ofNat 64 (8 * ws.length + 7) - (sp - 1#64 - a) := by
      rw [BitVec.ofNat_add, show 8#64 = 7#64 + 1#64 from rfl]
      ring
    rw [hoff, BitVec.toNat_sub, BitVec.toNat_ofNat, Nat.mod_eq_of_lt (by omega)]
    omega

variable {sp : Quad} {ws : List Quad}

/-- Only the registers and the memory count. -/
theorem Grown.of_eq {c'' : Cpu} (h : Grown c c' sp ws) (hreg : c''.reg = c'.reg)
    (hmem : c''.mem = c'.mem) :
    Grown c c'' sp ws := by
  obtain ⟨hrsp, hregs, hwords, hrest⟩ := h
  rw [← hreg] at hrsp hregs hwords
  rw [← hmem] at hwords hrest
  exact ⟨hrsp, hregs, hwords, hrest⟩

theorem Grown.push (h : Grown c c' sp ws) (alu : Alu) (hroom : 8 * (ws.length + 1) ≤ 2 ^ 64)
    {r : Reg} (hr : r ≠ .rsp) :
    Grown c (c'.exec alu (.push r)) sp (c.reg r :: ws) := by
  rw [← h.regs r hr]
  exact h.pushWord hroom _

theorem Grown.run_push (h : Grown c c' sp ws) (alu : Alu) (rs : List Reg) (hrs : .rsp ∉ rs)
    (hroom : 8 * (ws.length + rs.length) ≤ 2 ^ 64) :
    Grown c (c'.run alu (rs.map .push)) sp ((rs.map c.reg).reverse ++ ws) := by
  induction rs generalizing c' ws with
  | nil => exact h
  | cons r rs ih =>
    rw [List.length_cons] at hroom
    obtain ⟨hr, hrs'⟩ := not_or.mp (mt List.mem_cons.mpr hrs)
    rw [List.map_cons, Cpu.run_cons, List.map_cons, List.reverse_cons, List.append_assoc]
    exact ih (h.push alu (by omega) (Ne.symm hr)) hrs'
      (by rw [List.length_append, List.length_singleton]; omega)

theorem Grown.subRsp (h : Grown c c' sp ws) (alu : Alu) :
    ∃ w, Grown c (c'.exec alu (.subRsp 8#64)) sp (w :: ws) := by
  refine ⟨c'.mem.load64 (c'.reg .rsp - 8#64), ?_⟩
  have hrsp : (c'.exec alu (.subRsp 8#64)).reg .rsp = c'.reg .rsp - 8#64 := by
    rw [Cpu.exec_subRsp_reg, Function.update_self]
  refine ⟨?_, fun r hr => ?_, ?_, fun a ha => ?_⟩
  · rw [hrsp, h.rsp, List.length_cons, Nat.mul_add, BitVec.ofNat_add, sub_sub]
  · exact (Function.update_of_ne hr _ _).trans (h.regs r hr)
  · rw [hrsp]
    refine ⟨rfl, ?_⟩
    rw [sub_add_cancel]
    exact h.words
  · exact h.mem a fun hb => ha (hb.mono (by rw [List.length_cons]; omega))

/-- What the handler of an interrupt finds on its stack. -/
theorem Gate.grown_deliver (g : Gate) (c : Cpu) (errorCode : Option Quad) :
    Grown c (g.deliver c errorCode) g.top
      (errorCode.toList ++ [c.rip, c.cs, g.image c.rflags, c.reg .rsp, c.ss]) := by
  have h₀ : Grown c { c with reg := Function.update c.reg .rsp g.top } g.top [] :=
    ⟨by simp, fun r hr => Function.update_of_ne hr _ _, trivial, fun _ _ => rfl⟩
  have h := ((((h₀.pushWord (by simp) c.ss).pushWord (by simp) (c.reg .rsp)).pushWord
    (by simp) (g.image c.rflags)).pushWord (by simp) c.cs).pushWord (by simp) c.rip
  cases errorCode with
  | none => exact h.of_eq rfl rfl
  | some e => exact (h.pushWord (by simp) e).of_eq rfl rfl

/-- The registers after words have been taken from the stack, one register after the other. -/
def assign : List Reg → List Quad → (Reg → Quad) → Reg → Quad
  | r :: rs, v :: vs, ρ => assign rs vs (Function.update ρ r v)
  | _, _, ρ => ρ

/-- The words `ws` are still on the stack of `c`; its other registers are `ρ`. -/
structure Unwinds (m : ByteMemory) (ρ : Reg → Quad) (ws : List Quad) (c : Cpu) : Prop where
  mem : c.mem = m
  regs : ∀ r, r ≠ .rsp → c.reg r = ρ r
  words : WordsAt m (c.reg .rsp) ws

section Unwinding

variable {m : ByteMemory} {ρ : Reg → Quad} {v : Quad}

theorem Unwinds.pop (h : Unwinds m ρ (v :: ws) c) (alu : Alu) {r : Reg} (hr : r ≠ .rsp) :
    Unwinds m (Function.update ρ r v) ws (c.exec alu (.pop r)) := by
  refine ⟨h.mem, fun q hq => ?_, ?_⟩
  · rw [Cpu.exec_pop_reg, h.mem, h.words.1]
    by_cases hqr : q = r
    · rw [hqr, Function.update_self, Function.update_self]
    · rw [Function.update_of_ne hqr, Function.update_of_ne hq,
        Function.update_of_ne hqr, h.regs q hq]
  · rw [Cpu.exec_pop_reg, Function.update_of_ne (Ne.symm hr), Function.update_self]
    exact h.words.2

theorem Unwinds.run_pop (alu : Alu) (rs : List Reg) (vs : List Quad) (h : Unwinds m ρ (vs ++ ws) c)
    (hrs : .rsp ∉ rs) (hlen : vs.length = rs.length) :
    Unwinds m (assign rs vs ρ) ws (c.run alu (rs.map .pop)) := by
  induction rs generalizing c vs ρ with
  | nil =>
    rw [List.length_eq_zero_iff.mp hlen] at h ⊢
    exact h
  | cons r rs ih =>
    obtain _ | ⟨v, vs⟩ := vs
    · exact absurd hlen (by simp)
    obtain ⟨hr, hrs'⟩ := not_or.mp (mt List.mem_cons.mpr hrs)
    exact ih vs (h.pop alu (Ne.symm hr)) hrs' (by simpa using hlen)

theorem Unwinds.addRsp (h : Unwinds m ρ (v :: ws) c) (alu : Alu) :
    Unwinds m ρ ws (c.exec alu (.addRsp 8#64)) := by
  refine ⟨h.mem, fun q hq => ?_, ?_⟩
  · rw [Cpu.exec_addRsp_reg, Function.update_of_ne hq, h.regs q hq]
  · rw [Cpu.exec_addRsp_reg, Function.update_self]
    exact h.words.2

theorem Unwinds.iretq {rip cs rflags rsp ss : Quad}
    (h : Unwinds m ρ (rip :: cs :: rflags :: rsp :: ss :: ws) c) :
    c.iretq = ⟨Function.update ρ .rsp rsp, m, rip, rflags, cs, ss⟩ := by
  obtain ⟨hmem, hregs, hrip, hcs, hrflags, hrsp, hss, -⟩ := h
  simp only [add_assoc] at hrflags hrsp hss
  have hreg : Function.update c.reg .rsp rsp = Function.update ρ .rsp rsp := by
    funext r
    by_cases hr : r = .rsp
    · rw [hr, Function.update_self, Function.update_self]
    · rw [Function.update_of_ne hr, Function.update_of_ne hr, hregs r hr]
  subst hmem hrip hcs hrflags hrsp hss
  rw [← hreg]
  rfl

end Unwinding

/-! Registers exchanged with words in memory. -/

/-- The registers and the words after the exchanges. -/
def exchange : List (Reg × Nat) → (Reg → Quad) → List Quad → (Reg → Quad) × List Quad
  | [], ρ, ws => (ρ, ws)
  | (r, k) :: rs, ρ, ws => exchange rs (Function.update ρ r (ws.getD k 0#64)) (ws.set k (ρ r))

theorem Cpu.run_xchg (alu : Alu) {a : Quad} (rs : List (Reg × Nat)) (h : WordsAt c.mem a ws)
    (hrs : ∀ p ∈ rs, p.2 < ws.length) (hroom : 8 * ws.length ≤ 2 ^ 64) :
    (c.run alu (rs.map fun p => .xchg p.1 (a + BitVec.ofNat 64 (8 * p.2)))).reg =
      (exchange rs c.reg ws).1 ∧
    WordsAt (c.run alu (rs.map fun p => .xchg p.1 (a + BitVec.ofNat 64 (8 * p.2)))).mem a
      (exchange rs c.reg ws).2 ∧
    ∀ b, (∀ i < 8 * ws.length, b ≠ a + BitVec.ofNat 64 i) →
      (c.run alu (rs.map fun p => .xchg p.1 (a + BitVec.ofNat 64 (8 * p.2)))).mem b = c.mem b := by
  induction rs generalizing c ws with
  | nil => exact ⟨rfl, h, fun _ _ => rfl⟩
  | cons p rs ih =>
    obtain ⟨r, k⟩ := p
    have hk : k < ws.length := hrs (r, k) List.mem_cons_self
    have hreg : (c.exec alu (.xchg r (a + BitVec.ofNat 64 (8 * k)))).reg
        = Function.update c.reg r (ws.getD k 0#64) := by
      rw [← h.load64 hk]
      rfl
    obtain ⟨hreg', hwords', hmem'⟩ := ih (c := c.exec alu (.xchg r (a + BitVec.ofNat 64 (8 * k))))
      (h.set hroom hk (c.reg r))
      (fun p hp => by rw [List.length_set]; exact hrs p (List.mem_cons_of_mem _ hp))
      (by rw [List.length_set]; exact hroom)
    rw [hreg] at hreg' hwords'
    refine ⟨hreg', hwords', fun b hb => ?_⟩
    rw [List.length_set] at hmem'
    refine (hmem' b hb).trans (ByteMemory.store_of_ne _ fun i hi => ?_)
    rw [add_assoc, ← BitVec.ofNat_add]
    exact hb _ (by omega)

/-- A call of compiled code with an effect on the memory. The code may use any register and
    `scratch` bytes below the stack pointer. -/
structure Called (scratch : Nat) (effect : ByteMemory → Option ByteMemory) (c c' : Cpu) : Prop where
  rsp : c'.reg .rsp = c.reg .rsp
  mem : ∃ m, effect c.mem = some m ∧ ∀ a, ¬ Below (c.reg .rsp) scratch a → c'.mem a = m a

theorem Called.of_effect (scratch : Nat) {effect : ByteMemory → Option ByteMemory} {m : ByteMemory}
    (h : effect c.mem = some m) : Called scratch effect c { c with mem := m } :=
  ⟨rfl, m, h, fun _ _ => rfl⟩

end Running

end Amd64
