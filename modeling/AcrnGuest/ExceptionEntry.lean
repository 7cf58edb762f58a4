import AcrnGuest.RuntimeExceptions
import AcrnGuest.StackCode

/-!
# The way of an exception (`lib/x86/desc.c`)

The entry of a vector brings the stack to one shape, whether or not the processor pushed an
error code; `__handle_exception` completes it to a `struct ex_regs`, calls the handler of the
vector through `do_handle_exception` and goes back through that structure. A handler may
redirect the instruction pointer in it, which is how a test goes on behind the instruction
that faulted.

An exception is followed here from the fault to the end of `iretq`. The C code in between is
compiled code that may use any register and some bytes below the stack pointer.
-/

namespace AcrnGuest.ExceptionEntry

open Amd64

/-! ### The source -/

/-- The macros `EX` and `EX_E`, without and with an error code of the processor. -/
inductive FaultEntry
  | ex
  | exE
deriving DecidableEq

def FaultEntry.code (n : Nat) : FaultEntry → List Instr
  | .ex => [.pushImm 0#64, .pushImm (BitVec.ofNat 64 n)]
  | .exE => [.pushImm (BitVec.ofNat 64 n)]

def idtHandlers : Nat → Option FaultEntry
  | 0 | 1 | 2 | 3 | 4 | 5 | 6 | 7 => some .ex
  | 8 => some .exE
  | 10 | 11 | 12 | 13 | 14 => some .exE
  | 16 => some .ex
  | 17 => some .exE
  | 18 | 19 => some .ex
  | _ => none

/-- `__handle_exception` up to the call. -/
def saveRegisters : List Instr :=
  [.r15, .r14, .r13, .r12, .r11, .r10, .r9, .r8, .rdi, .rsi, .rbp].map .push ++ .subRsp 8#64 ::
    [.rbx, .rdx, .rcx, .rax].map .push ++ [.mov .rdi .rsp]

/-- `__handle_exception` behind the call, up to `iretq`. -/
def restoreRegisters : List Instr :=
  [.rax, .rcx, .rdx, .rbx].map .pop ++ .addRsp 8#64 ::
    [.rbp, .rsi, .rdi, .r8, .r9, .r10, .r11, .r12, .r13, .r14, .r15].map .pop ++
    [.addRsp 8#64, .addRsp 8#64]

def EXCEPTION_ADDR : Quad := 0x1004#64
def EXCEPTION_RFLAGS_ADDR : Quad := 0x1005#64
def EXCEPTION_ECODE_ADDR : Quad := 0x1006#64

def ripField (regs : Quad) : Quad := regs + 144#64

/-- The fields of the structure at `regs` that the handlers read. -/
def exRegs (m : ByteMemory) (regs : Quad) : ExRegs 64 where
  vector := m.load64 (regs + 128#64)
  errorCode := m.load64 (regs + 136#64)
  rip := m.load64 (ripField regs)
  rflags := m.load64 (regs + 160#64)

/-- A handler changes the memory; there is no result if it ends in `abort`. -/
abbrev Handler := ByteMemory → Quad → Option ByteMemory

def doHandleException (exceptionHandlers : Nat → Option Handler) : Handler := fun m regs =>
  let vector := (exRegs m regs).vector
  if vector < 32#64 then (exceptionHandlers vector.toNat).bind fun handler =>
    handler m regs else none

section Handlers

variable (gs : Quad)

/-- `check_exception_table` on the structure in memory. -/
def checkExceptionTableAt (exceptionTable : List (ExRecord 64)) (table : RuntimeExceptionTable 64) :
    Handler := fun m regs =>
  let (exVal, outcome) := checkExceptionTable exceptionTable table (exRegs m regs)
  let m := m.store (gs + EXCEPTION_ADDR) exVal
  match outcome with
  | .resumed r => some (m.store (ripField regs) r.rip)
  | .unhandled _ => none

def exceptionHandler (exceptionHandlerLongjmp : Quad) : Handler := fun m regs =>
  let r := exRegs m regs
  let exVal := r.vector ||| (r.errorCode <<< 16) ||| (((r.rflags >>> 16) &&& 1) <<< 8)
  let m := m.store (gs + EXCEPTION_ADDR) (exVal.setWidth 32)
  some (m.store (ripField regs) exceptionHandlerLongjmp)

def exceptionVector (m : ByteMemory) : BitVec 8 := m (gs + EXCEPTION_ADDR)

def exceptionErrorCode (m : ByteMemory) : BitVec 16 :=
  m (gs + EXCEPTION_ECODE_ADDR + 1#64) ++ m (gs + EXCEPTION_ECODE_ADDR)

def exceptionRflagsRf (m : ByteMemory) : Bool := m (gs + EXCEPTION_RFLAGS_ADDR) &&& 1#8 ≠ 0#8

end Handlers

/-! ### The processor -/

def pushesErrorCode (v : Nat) :
    Bool := v = 8 || 10 ≤ v && v ≤ 14 || v = 17 || v = 21 || v = 29 || v = 30

/-- The error code of vector `v` as a handler finds it. -/
def errorCodeOf (v : Nat) (e : Quad) : Quad := if pushesErrorCode v then e else 0#64

/-- The state at the call of `do_handle_exception`. -/
def entered (alu : Alu) (g : Gate) (v : Nat) (e : Quad) (entry : FaultEntry) (c : Cpu) : Cpu :=
  (g.deliver c (if pushesErrorCode v then some e else none)).run alu (entry.code v ++ saveRegisters)

/-- One exception, from the fault in `c` to the state behind `iretq`. -/
def Raised (alu : Alu) (exceptionHandlers : Nat → Option Handler) (scratch : Nat)
    (g : Gate) (v : Nat) (e : Quad) (c c' : Cpu) : Prop :=
  ∃ entry y, idtHandlers v = some entry ∧
    Called scratch (fun m => doHandleException exceptionHandlers m
      ((entered alu g v e entry c).reg .rdi))
      (entered alu g v e entry c) y ∧
    c' = (y.run alu restoreRegisters).iretq

/-! ### The frame -/

/-- The words from the stack pointer at the call upwards: `struct ex_regs` and the two words
    behind it that the processor pushed. -/
def frame (c : Cpu) (image dummy vector errorCode rip : Quad) : List Quad :=
  [c.reg .rax, c.reg .rcx, c.reg .rdx, c.reg .rbx, dummy, c.reg .rbp, c.reg .rsi,
    c.reg .rdi, c.reg .r8, c.reg .r9, c.reg .r10, c.reg .r11, c.reg .r12, c.reg .r13, c.reg .r14,
    c.reg .r15, vector, errorCode, rip, c.cs, image, c.reg .rsp, c.ss]

section Frames

variable (alu : Alu) (g : Gate) (c : Cpu) {v : Nat} (e : Quad) {entry : FaultEntry}

/-- The entry of a vector pushes a word for the error code exactly if the processor does not. -/
theorem idtHandlers_eq (h : idtHandlers v = some entry) :
    entry = if pushesErrorCode v then .exE else .ex := by
  unfold idtHandlers at h
  split at h <;> simp_all [pushesErrorCode]

/-- Behind the entry of the vector all frames look alike. -/
theorem grown_entry (h : idtHandlers v = some entry) :
    Grown c ((g.deliver c (if pushesErrorCode v then some e else none)).run alu
      (entry.code v)) g.top
      [BitVec.ofNat 64 v, errorCodeOf v e, c.rip, c.cs, g.image c.rflags, c.reg .rsp, c.ss] := by
  rw [idtHandlers_eq h]
  by_cases hv : pushesErrorCode v = true
  · rw [if_pos hv, if_pos hv, errorCodeOf, if_pos hv]
    exact (g.grown_deliver c (some e)).pushWord (by simp) _
  · rw [if_neg hv, if_neg hv, errorCodeOf, if_neg hv]
    exact ((g.grown_deliver c none).pushWord (by simp) _).pushWord (by simp) _

theorem grown_entered (h : idtHandlers v = some entry) :
    ∃ dummy c', Grown c c' g.top
      (frame c (g.image c.rflags) dummy (BitVec.ofNat 64 v) (errorCodeOf v e) c.rip) ∧
      entered alu g v e entry c = c'.set .rdi (c'.reg .rsp) := by
  have hhigh := (grown_entry alu g c e h).run_push alu
    [.r15, .r14, .r13, .r12, .r11, .r10, .r9, .r8, .rdi, .rsi, .rbp] (by decide) (by simp)
  obtain ⟨dummy, hlow⟩ := hhigh.subRsp alu
  refine ⟨dummy, _, hlow.run_push alu [.rbx, .rdx, .rcx, .rax] (by decide) (by simp), ?_⟩
  rw [entered, Cpu.run_append]
  rfl

theorem restored {y : Cpu} {image dummy vector errorCode rip : Quad}
    (h : WordsAt y.mem (y.reg .rsp) (frame c image dummy vector errorCode rip)) :
    (y.run alu restoreRegisters).iretq = ⟨c.reg, y.mem, rip, image, c.cs, c.ss⟩ := by
  have hstart : Unwinds y.mem y.reg (frame c image dummy vector errorCode rip) y :=
    ⟨rfl, fun _ _ => rfl, h⟩
  have hlow := Unwinds.run_pop alu [.rax, .rcx, .rdx, .rbx]
    [c.reg .rax, c.reg .rcx, c.reg .rdx, c.reg .rbx] hstart (by decide) rfl
  have hhigh := Unwinds.run_pop alu [.rbp, .rsi, .rdi, .r8, .r9, .r10, .r11, .r12, .r13, .r14, .r15]
    [c.reg .rbp, c.reg .rsi, c.reg .rdi, c.reg .r8, c.reg .r9, c.reg .r10, c.reg .r11, c.reg .r12,
      c.reg .r13, c.reg .r14, c.reg .r15] (hlow.addRsp alu) (by decide) rfl
  refine ((hhigh.addRsp alu).addRsp alu).iretq.trans ?_
  congr 1
  funext r
  cases r <;> rfl

end Frames

/-! ### The handlers -/

section Redirecting

variable {alu : Alu} {exceptionHandlers : Nat → Option Handler} {scratch : Nat} {g : Gate}
  {v : Nat} {e : Quad} {c c' : Cpu} {gs : Quad}

def exVal (r : ExRegs 64) : BitVec 32 :=
  (r.vector ||| (r.errorCode <<< 16) ||| (((r.rflags >>> 16) &&& 1) <<< 8)).setWidth 32

/-- What both handlers do: they store the word and replace the instruction pointer. -/
def redirect (gs : Quad) (target : ExRegs 64 → Option Quad) : Handler := fun m regs =>
  (target (exRegs m regs)).map fun rip =>
    (m.store (gs + EXCEPTION_ADDR) (exVal (exRegs m regs))).store (ripField regs) rip

theorem exceptionHandler_eq (exceptionHandlerLongjmp : Quad) :
    exceptionHandler gs exceptionHandlerLongjmp = redirect gs fun _ =>
      some exceptionHandlerLongjmp := rfl

def outcomeRip : Outcome 64 → Option Quad
  | .resumed r => some r.rip
  | .unhandled _ => none

theorem outcomeRip_eq_some_iff {exceptionTable : List (ExRecord 64)}
    {table : RuntimeExceptionTable 64} {r : ExRegs 64} {target : Quad} :
    outcomeRip (checkExceptionTable exceptionTable table r).2 = some target ↔
      (checkExceptionTable exceptionTable table r).2 = .resumed { r with rip := target } := by
  unfold checkExceptionTable
  dsimp only
  cases exceptionTable.find? fun ex => ex.rip = r.rip with
  | some ex => simp [outcomeRip]
  | none =>
    cases (List.finRange 32).find? fun i => (table i).rip = r.rip with
    | some i => simp [outcomeRip]
    | none => simp [outcomeRip]

theorem checkExceptionTableAt_eq (exceptionTable : List (ExRecord 64))
    (table : RuntimeExceptionTable 64) :
    checkExceptionTableAt gs exceptionTable table
      = redirect gs fun r => outcomeRip (checkExceptionTable exceptionTable table r).2 := by
  funext m regs
  unfold checkExceptionTableAt redirect
  cases h : (checkExceptionTable exceptionTable table (exRegs m regs)).2 with
  | resumed r =>
    simp only [h, outcomeRip, Option.map_some]
    rfl
  | unhandled r => simp only [h, outcomeRip, Option.map_none]

def faultRegs (g : Gate) (v : Nat) (e : Quad) (c : Cpu) : ExRegs 64 :=
  ⟨BitVec.ofNat 64 v, errorCodeOf v e, c.rip, g.image c.rflags⟩

theorem exRegs_frame {m : ByteMemory} {regs image dummy vector errorCode rip : Quad}
    (h : WordsAt m regs (frame c image dummy vector errorCode rip)) :
    exRegs m regs = ⟨vector, errorCode, rip, image⟩ := by
  obtain ⟨-, -, -, -, -, -, -, -, -, -, -, -, -, -, -, -, hvector, herror, hrip, -, himage, -⟩ := h
  simp only [add_assoc] at hvector herror hrip himage
  subst hvector herror hrip himage
  rfl

theorem lt_of_idtHandlers {entry : FaultEntry} (h : idtHandlers v = some entry) : v < 32 := by
  unfold idtHandlers at h
  split at h <;> simp_all

theorem getLsbD_exVal (r : ExRegs 64) (i : Nat) :
    (exVal r).getLsbD i =
      (decide (i < 32) && (r.vector.getLsbD i ||
        (decide (16 ≤ i) && r.errorCode.getLsbD (i - 16)) ||
      (decide (i = 8) && r.rflags.getLsbD 16))) := by
  simp only [exVal, BitVec.getLsbD_setWidth, BitVec.getLsbD_or, BitVec.getLsbD_shiftLeft,
    BitVec.getLsbD_and, BitVec.getLsbD_ushiftRight]
  have hone : ∀ j, (1 : BitVec 64).getLsbD j = decide (j = 0) := fun j => by
    rw [show (1 : BitVec 64) = 1#64 from rfl, BitVec.getLsbD_one]
    grind
  rw [hone]
  by_cases hi : i < 32
  · by_cases h8 : i = 8
    · subst h8
      simp
    · by_cases h16 : 16 ≤ i <;> grind
  · simp [hi]

theorem record_bytes (gs : Quad) (m : ByteMemory) :
    exceptionVector gs m = m (gs + EXCEPTION_ADDR + BitVec.ofNat 64 0) ∧
    exceptionErrorCode gs m
      = m (gs + EXCEPTION_ADDR + BitVec.ofNat 64 3) ++ m (gs + EXCEPTION_ADDR + BitVec.ofNat 64 2) ∧
    exceptionRflagsRf gs m =
      decide (m (gs + EXCEPTION_ADDR + BitVec.ofNat 64 1) &&& 1#8 ≠ 0#8) := by
  simp only [add_assoc]
  exact ⟨by rw [exceptionVector, BitVec.add_zero], by rw [exceptionErrorCode, add_assoc]; rfl, rfl⟩

/-- The record of a fault is read back by the functions of the tests. -/
theorem record_read {r : ExRegs 64} (hv : r.vector.toNat < 256) {m : ByteMemory}
    (hm : ∀ i < 4, m (gs + EXCEPTION_ADDR + BitVec.ofNat 64 i) = (exVal r).extractLsb' (8 * i) 8) :
    exceptionVector gs m = r.vector.setWidth 8 ∧ exceptionErrorCode gs m = r.errorCode.setWidth 16 ∧
      exceptionRflagsRf gs m = r.rflags.getLsbD 16 := by
  have hhigh : ∀ i, 8 ≤ i → r.vector.getLsbD i = false := fun i hi =>
    Nat.testBit_lt_two_pow (Nat.lt_of_lt_of_le hv
      (show 2 ^ 8 ≤ 2 ^ i from Nat.pow_le_pow_right Nat.two_pos hi))
  obtain ⟨hvector, herror, hrf⟩ := record_bytes gs m
  refine ⟨?_, ?_, ?_⟩
  · rw [hvector, hm 0 (by decide)]
    refine BitVec.eq_of_getLsbD_eq fun i hi => ?_
    rw [BitVec.getLsbD_extractLsb', getLsbD_exVal, BitVec.getLsbD_setWidth]
    grind
  · rw [herror, hm 3 (by decide), hm 2 (by decide)]
    refine BitVec.eq_of_getLsbD_eq fun i hi => ?_
    rw [BitVec.getLsbD_append, BitVec.getLsbD_extractLsb', BitVec.getLsbD_extractLsb',
      getLsbD_exVal, getLsbD_exVal, BitVec.getLsbD_setWidth]
    grind
  · have hbit : ((exVal r).extractLsb' 8 8 &&& 1#8) =
        (BitVec.ofBool (r.rflags.getLsbD 16)).setWidth 8 := by
      refine BitVec.eq_of_getLsbD_eq fun i hi => ?_
      rw [BitVec.getLsbD_and, BitVec.getLsbD_extractLsb', getLsbD_exVal, BitVec.getLsbD_one,
        BitVec.getLsbD_setWidth, BitVec.getLsbD_ofBool]
      grind
    rw [hrf, hm 1 (by decide), hbit]
    cases r.rflags.getLsbD 16 <;> rfl

theorem record_congr {m m' : ByteMemory}
    (h : ∀ i < 4, m' (gs + EXCEPTION_ADDR + BitVec.ofNat 64 i) =
      m (gs + EXCEPTION_ADDR + BitVec.ofNat 64 i)) :
    exceptionVector gs m' = exceptionVector gs m ∧
      exceptionErrorCode gs m' = exceptionErrorCode gs m ∧
      exceptionRflagsRf gs m' = exceptionRflagsRf gs m := by
  obtain ⟨hvector, herror, hrf⟩ := record_bytes gs m
  obtain ⟨hvector', herror', hrf'⟩ := record_bytes gs m'
  rw [hvector, herror, hrf, hvector', herror', hrf', h 0 (by decide), h 1 (by decide),
    h 2 (by decide), h 3 (by decide)]
  exact ⟨rfl, rfl, rfl⟩

/-- The state behind an exception whose handler went to `rip`: the registers are those of the
    fault, the record is that of the fault, and no memory has changed but the record and the
    bytes of the stack that the entry and the handler used. -/
structure Resumed (gs : Quad) (scratch : Nat) (g : Gate) (v : Nat) (e : Quad) (rip : Quad)
    (c c' : Cpu) :
    Prop where
  context : c' = ⟨c.reg, c'.mem, rip, g.image c.rflags, c.cs, c.ss⟩
  vector : exceptionVector gs c'.mem = BitVec.ofNat 8 v
  errorCode : exceptionErrorCode gs c'.mem = (errorCodeOf v e).setWidth 16
  rf : exceptionRflagsRf gs c'.mem = (g.rf || c.rflags.getLsbD 16)
  mem : ∀ a, ¬ Below g.top (scratch + 184) a →
    (∀ i < 4, a ≠ gs + EXCEPTION_ADDR + BitVec.ofNat 64 i) →
    c'.mem a = c.mem a

theorem doHandleException_redirect {target : ExRegs 64 → Option Quad} {m : ByteMemory}
    {regs dummy errorCode rip : Quad} (hv : v < 32)
    (hhandler : exceptionHandlers v = some (redirect gs target))
    (h : WordsAt m regs (frame c (g.image c.rflags) dummy (BitVec.ofNat 64 v) errorCode rip)) :
    doHandleException exceptionHandlers m regs = redirect gs target m regs := by
  have hvn : (BitVec.ofNat 64 v).toNat = v := by
    rw [BitVec.toNat_ofNat, Nat.mod_eq_of_lt (by omega)]
  rw [doHandleException, exRegs_frame h]
  rw [if_pos (BitVec.lt_def.mpr (by rw [hvn]; exact hv)), hvn, hhandler, Option.bind_some]

def frameAt (g : Gate) : Quad := g.top - BitVec.ofNat 64 184

theorem ripField_add (g : Gate) (j : Nat) :
    ripField (frameAt g) + BitVec.ofNat 64 j = frameAt g + BitVec.ofNat 64 (144 + j) := by
  rw [ripField, add_assoc, BitVec.ofNat_add]

theorem below_frameAt (scratch : Nat) (g : Gate) {i : Nat} (hi : i < 184) :
    Below g.top (scratch + 184) (frameAt g + BitVec.ofNat 64 i) := by
  have hroom : 184 ≤ 2 ^ 64 := by omega
  have h : Below g.top 184 (frameAt g + BitVec.ofNat 64 i) := below_sub_add hi hroom
  exact h.mono (Nat.le_add_left 184 scratch)

/-- The record is not in the part of the stack that an exception uses. -/
def RecordApart (gs : Quad) (scratch : Nat) (g : Gate) : Prop :=
  ∀ i < 4, ¬ Below g.top (scratch + 184) (gs + EXCEPTION_ADDR + BitVec.ofNat 64 i)

/-- The memory behind a handler that redirects to `rip`. -/
def redirected (gs : Quad) (g : Gate) (m : ByteMemory) (val : BitVec 32) (rip : Quad) :
    ByteMemory :=
  (m.store (gs + EXCEPTION_ADDR) val).store (ripField (frameAt g)) rip

theorem redirected_frame {m : ByteMemory} {image dummy vector errorCode rip : Quad}
    (hrec : RecordApart gs scratch g)
    (h : WordsAt m (frameAt g) (frame c image dummy vector errorCode rip)) (val : BitVec 32)
    (rip' : Quad) :
    WordsAt (redirected gs g m val rip') (frameAt g)
      (frame c image dummy vector errorCode rip') := by
  refine WordsAt.set (k := 18) (h.congr fun i hi => ?_) (by simp [frame]) (by simp [frame]) rip'
  refine ByteMemory.store_of_ne _ fun j hj heq => hrec j (by omega) ?_
  rw [← heq]
  exact below_frameAt scratch g hi

theorem redirected_record {m : ByteMemory} (hrec : RecordApart gs scratch g)
    (val : BitVec 32) (rip : Quad) {i : Nat} (hi : i < 4) :
    redirected gs g m val rip (gs + EXCEPTION_ADDR + BitVec.ofNat 64 i) =
      val.extractLsb' (8 * i) 8 := by
  rw [redirected, ByteMemory.store_of_ne]
  · exact ByteMemory.store_inside _ (by omega) (by omega)
  · intro j hj heq
    refine hrec i hi ?_
    rw [heq, ripField_add]
    exact below_frameAt scratch g (by omega)

theorem redirected_apart {m : ByteMemory} {a : Quad} (val : BitVec 32) (rip : Quad)
    (ha : ¬ Below g.top (scratch + 184) a)
    (hrec : ∀ i < 4, a ≠ gs + EXCEPTION_ADDR + BitVec.ofNat 64 i) :
    redirected gs g m val rip a = m a := by
  rw [redirected, ByteMemory.store_of_ne, ByteMemory.store_of_ne]
  · exact fun j hj => hrec j (by omega)
  · intro j hj heq
    refine ha ?_
    rw [heq, ripField_add]
    exact below_frameAt scratch g (by omega)

theorem Raised.resumed {target : ExRegs 64 → Option Quad}
    (h : Raised alu exceptionHandlers scratch g v e c c')
    (hhandler : exceptionHandlers v = some (redirect gs target)) (hroom : scratch + 184 < 2 ^ 64)
    (hrec : RecordApart gs scratch g) :
    ∃ rip, target (faultRegs g v e c) = some rip ∧ Resumed gs scratch g v e rip c c' := by
  obtain ⟨entry, y, hentry, hcalled, rfl⟩ := h
  obtain ⟨dummy, c₁, hgrown, hx⟩ := grown_entered alu g c e hentry
  have hv := lt_of_idtHandlers hentry
  rw [hx] at hcalled
  obtain ⟨hrsp, m, hm, hmem⟩ := hcalled
  have hsp : c₁.reg .rsp = frameAt g := hgrown.rsp
  have hwords := hgrown.words
  rw [Cpu.set_reg, Function.update_of_ne (by decide)] at hrsp hmem
  rw [hsp] at hwords hrsp hmem
  -- the call reads the frame and goes through the handler of the vector
  rw [Cpu.set_mem, Cpu.set_reg, Function.update_self, hsp,
    doHandleException_redirect hv hhandler hwords, redirect, exRegs_frame hwords,
    Option.map_eq_some_iff] at hm
  obtain ⟨rip, htarget, rfl⟩ := hm
  -- what the compiled code used lies below the frame
  have hbelow : ∀ a, ¬ Below g.top (scratch + 184) a → ¬ Below (frameAt g) scratch a :=
    fun a ha hb => ha (hb.of_sub (by omega))
  have hy : WordsAt y.mem (y.reg .rsp)
      (frame c (g.image c.rflags) dummy (BitVec.ofNat 64 v) (errorCodeOf v e) rip) := by
    rw [hrsp]
    refine (redirected_frame hrec hwords _ rip).congr fun i hi => hmem _ (not_below_add ?_)
    exact Nat.lt_of_lt_of_le (Nat.add_lt_add_left hi scratch) (Nat.le_of_lt hroom)
  have hvector : (faultRegs g v e c).vector.toNat < 256 := by
    rw [faultRegs, BitVec.toNat_ofNat]
    exact Nat.lt_of_le_of_lt (Nat.mod_le _ _) (by omega)
  obtain ⟨hread, herror, hrf⟩ := record_read hvector fun i hi =>
    (hmem _ (hbelow _ (hrec i hi))).trans (redirected_record hrec _ rip hi)
  refine ⟨rip, htarget, ?_⟩
  rw [restored alu c hy]
  refine ⟨rfl, ?_, herror, hrf.trans (g.getLsbD_image c.rflags), fun a ha hne => ?_⟩
  · rw [hread, faultRegs, BitVec.setWidth_ofNat_of_le (by decide)]
  · rw [hmem a (hbelow a ha)]
    exact (redirected_apart _ rip ha hne).trans
      (hgrown.mem a fun hb => ha (hb.mono (Nat.le_add_left _ _)))

/-- A handler that returns brings the exception to its end. -/
theorem exists_raised (target : ExRegs 64 → Option Quad) {entry : FaultEntry} (rip : Quad)
    (hentry : idtHandlers v = some entry)
    (hhandler : exceptionHandlers v = some (redirect gs target))
    (htarget : target (faultRegs g v e c) = some rip) (alu : Alu) (scratch : Nat) :
    ∃ c', Raised alu exceptionHandlers scratch g v e c c' := by
  obtain ⟨dummy, c₁, hgrown, hx⟩ := grown_entered alu g c e hentry
  have hmem : (entered alu g v e entry c).mem = c₁.mem := by rw [hx, Cpu.set_mem]
  have hrdi : (entered alu g v e entry c).reg .rdi = c₁.reg .rsp := by
    rw [hx, Cpu.set_reg, Function.update_self]
  have heffect : doHandleException exceptionHandlers c₁.mem (c₁.reg .rsp)
      = some ((c₁.mem.store (gs + EXCEPTION_ADDR) (exVal (faultRegs g v e c))).store
          (ripField (c₁.reg .rsp)) rip) := by
    rw [doHandleException_redirect (lt_of_idtHandlers hentry) hhandler hgrown.words, redirect,
      exRegs_frame hgrown.words]
    exact Option.map_eq_some_iff.mpr ⟨rip, htarget, rfl⟩
  exact ⟨_, entry, _, hentry, .of_effect scratch (by rw [hmem, hrdi, heffect]), rfl⟩

/-- While the vector has the handler that `setup_idt` installs, an exception comes to an end
    exactly if there is a fixup for its instruction pointer. The code then goes on at the fixup
    with all registers and flags as they were at the fault, but for RF, and the test reads the
    vector, the error code and the resume flag of this fault. -/
theorem exceptions_resume (alu : Alu) (scratch : Nat) (g : Gate) (v : Nat) (e : Quad) (c : Cpu)
    (gs : Quad) (exceptionHandlers : Nat → Option Handler) (exceptionTable : List (ExRecord 64))
    (calls : List (ExceptionCall 64))
    (hhandler : exceptionHandlers v =
      some (checkExceptionTableAt gs exceptionTable (Exceptions.after calls).table))
    (hroom : scratch + 184 < 2 ^ 64) (hrec : RecordApart gs scratch g) :
    ((∃ c', Raised alu exceptionHandlers scratch g v e c c') ↔
      (idtHandlers v).isSome ∧
        ∃ target, (Exceptions.after calls).Fixup exceptionTable c.rip target) ∧
    ∀ c', Raised alu exceptionHandlers scratch g v e c c' →
      ∃ target, (Exceptions.after calls).Fixup exceptionTable c.rip target ∧
        Resumed gs scratch g v e target c c' := by
  rw [checkExceptionTableAt_eq] at hhandler
  have hsound := Exceptions.sound_after calls
  have hfixup : ∀ target,
      outcomeRip (checkExceptionTable exceptionTable (Exceptions.after calls).table
        (faultRegs g v e c)).2 = some target ↔
        (Exceptions.after calls).Fixup exceptionTable c.rip target := by
    intro target
    rw [outcomeRip_eq_some_iff, hsound.resumed_iff]
    rfl
  have hresumed : ∀ c', Raised alu exceptionHandlers scratch g v e c c' →
      ∃ target, (Exceptions.after calls).Fixup exceptionTable c.rip target ∧
        Resumed gs scratch g v e target c c' := by
    intro c' h
    obtain ⟨target, htarget, hres⟩ := h.resumed hhandler hroom hrec
    exact ⟨target, (hfixup target).mp htarget, hres⟩
  refine ⟨⟨fun ⟨c', h⟩ => ?_, fun ⟨hentry, target, htarget⟩ => ?_⟩, hresumed⟩
  · obtain ⟨target, htarget, -⟩ := hresumed c' h
    obtain ⟨entry, -, hentry, -⟩ := h
    exact ⟨by rw [hentry, Option.isSome_some], target, htarget⟩
  · obtain ⟨entry, hentry⟩ := Option.isSome_iff_exists.mp hentry
    exact exists_raised _ target hentry hhandler ((hfixup target).mpr htarget) alu scratch

/-- A general protection fault at a registered address, on a stack below the record. -/
def faultAtForty : Cpu where
  reg _ := 0xFFF8#64
  mem _ := 0#8
  rip := 0x40#64
  rflags := 2#64
  cs := 8#64
  ss := 16#64

theorem forty_fifty_ne_zero : 0x40#64 ≠ 0 ∧ 0x50#64 ≠ 0 := by decide

def fixupAtFifty : Registration 64 :=
  ⟨⟨0x40#64, 0x50#64⟩, forty_fifty_ne_zero.1, forty_fifty_ne_zero.2⟩

def faultGate : Gate := ⟨0x100#64, 0xFFF8#64, 8#64, 16#64, 2#64, true⟩

theorem exceptions_resume_gp :
    ∃ c', Raised (fun _ c => c.rflags)
      (fun _ => some (checkExceptionTableAt 0xF000#64 [⟨0x30#64, 0x38#64⟩]
        (Exceptions.after [.register fixupAtFifty]).table))
      512 faultGate 13 0x48#64 faultAtForty c' :=
  (exceptions_resume (fun _ c => c.rflags) 512 faultGate 13 0x48#64 faultAtForty 0xF000#64
    (fun _ => some (checkExceptionTableAt 0xF000#64 [⟨0x30#64, 0x38#64⟩]
      (Exceptions.after [.register fixupAtFifty]).table))
    [⟨0x30#64, 0x38#64⟩] [.register fixupAtFifty] rfl (by decide)
    (by unfold RecordApart; decide)).1.mpr
    ⟨rfl, 0x50#64, Or.inr ⟨by decide,
      Or.inl ⟨0, fixupAtFifty, rfl, rfl, fun j hj => absurd hj (Fin.not_lt_zero j)⟩⟩⟩

end Redirecting

end AcrnGuest.ExceptionEntry
