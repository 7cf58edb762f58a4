import AcrnGuest.Loop
import Mathlib.Data.List.FinRange
import Mathlib.Logic.Function.Basic
import Mathlib.Tactic.Common

/-!
# Interrupts in the v8086 monitor (`x86/v8086/common.c`)

The monitor lets a test register a handler for one vector. The vector's IDT entry is then
a proxy, whose stub reports one of two vectors of its own, and the table of registered
interrupts tells the real one. When the test unregisters the handler, the default stub of
the vector is written back.

Three tests of which vectors are valid do not agree. A registration accepts every vector
below 255. The dispatch takes a record of vector zero for a free one. The table of
default stubs has 32 entries, and some of them are null.
-/

namespace AcrnGuest.V8086

/-! ### Stubs and gates -/

/-- The entry points that the `EX` macros define. -/
inductive Stub
  | de | db | nmi | bp | of | br | ud | nm | df | ts | np | ss | gp | pf | mf | ac | mc | xm
  | vri | vrie | vci
deriving DecidableEq

def V8086_REG_INT : BitVec 32 := 253#32
def V8086_REG_INT_E : BitVec 32 := 254#32
def V8086_COMM_INT : BitVec 32 := 255#32

def Stub.vector : Stub → BitVec 32
  | .de => 0#32
  | .db => 1#32
  | .nmi => 2#32
  | .bp => 3#32
  | .of => 4#32
  | .br => 5#32
  | .ud => 6#32
  | .nm => 7#32
  | .df => 8#32
  | .ts => 10#32
  | .np => 11#32
  | .ss => 12#32
  | .gp => 13#32
  | .pf => 14#32
  | .mf => 16#32
  | .ac => 17#32
  | .mc => 18#32
  | .xm => 19#32
  | .vri => V8086_REG_INT
  | .vrie => V8086_REG_INT_E
  | .vci => V8086_COMM_INT

/-- The stubs of `EX_E`, which leave the error code to the processor. -/
def Stub.leavesErrorCode : Stub → Bool
  | .df | .ts | .np | .ss | .gp | .pf | .ac | .vrie => true
  | _ => false

def EX_COUNT : Nat := 32

def idtHandlers : Nat → Option Stub
  | 0 => some .de
  | 1 => some .db
  | 2 => some .nmi
  | 3 => some .bp
  | 4 => some .of
  | 5 => some .br
  | 6 => some .ud
  | 7 => some .nm
  | 8 => some .df
  | 10 => some .ts
  | 11 => some .np
  | 12 => some .ss
  | 13 => some .gp
  | 14 => some .pf
  | 16 => some .mf
  | 17 => some .ac
  | 18 => some .mc
  | 19 => some .xm
  | _ => none

structure IdtEntry where
  offset0 : BitVec 16
  selector : BitVec 16
  ist : BitVec 3
  resv1 : BitVec 5
  type : BitVec 4
  resv2 : BitVec 1
  dpl : BitVec 2
  p : BitVec 1
  offset1 : BitVec 16
deriving DecidableEq

/-- An entry of `boot_idt` as the image has it. -/
def IdtEntry.zero : IdtEntry :=
  ⟨0#16, 0#16, 0#3, 0#5, 0#4, 0#1, 0#2, 0#1, 0#16⟩

structure IrqRecord where
  irq : BitVec 32
  handler : BitVec 32
deriving DecidableEq

abbrev INT_TABLE_SIZE : Nat := 1

/-- What the monitor keeps: the IDT, the registered interrupts and the words that it shares with the
    v8086 code. -/
structure Monitor where
  idt : Nat → IdtEntry
  intTable : Fin INT_TABLE_SIZE → IrqRecord
  funcId : BitVec 32
  exceptionData : BitVec 32
  retInsAddr : BitVec 32
  v8086Esp : BitVec 32
  v8086Iopl : BitVec 32

structure ExRecord where
  eip : BitVec 32
  handler : BitVec 32

/-- The linked image: where the stubs are, the code selector, the static exception table and the
    functions that a command invokes. -/
structure Image where
  addr : Stub → BitVec 32
  addr_injective : Function.Injective addr
  addr_ne_zero : ∀ stub, addr stub ≠ 0#32
  cs : BitVec 16
  exceptionTable : List ExRecord
  v8086Funcs : BitVec 32 → Monitor → Monitor

def DPL_3 : BitVec 2 := 3#2

def INTERGATE : BitVec 4 := 0xE#4

/-- The entry that `set_idt_entry_ex` writes. -/
def gate (addr : BitVec 32) (dpl : BitVec 2) (sel : BitVec 16) (type : BitVec 4) : IdtEntry where
  offset0 := addr.setWidth 16
  selector := sel
  ist := 0#3
  resv1 := 0#5
  type := type
  resv2 := 0#1
  dpl := dpl
  p := 1#1
  offset1 := (addr >>> 16).setWidth 16

def setIdtEntryEx (m : Monitor) (vec : Nat) (addr : BitVec 32) (dpl : BitVec 2) (sel : BitVec 16)
    (type : BitVec 4) : Monitor :=
  { m with idt := Function.update m.idt vec (gate addr dpl sel type) }

variable (image : Image)

def setIdtEntry (m : Monitor) (vec : Nat) (addr : BitVec 32) (dpl : BitVec 2) : Monitor :=
  setIdtEntryEx m vec addr dpl image.cs INTERGATE

/-! ### Registering -/

def regIdtEntry (irq : BitVec 32) : Stub :=
  if (8#32 ≤ irq && irq ≤ 14#32) || irq = 17#32 then .vrie else .vri

/-- The result is the index of the record, or `none` for `RET_FAILURE`. -/
def registerInt (m : Monitor) (irq handler : BitVec 32) : Monitor × Option (Fin INT_TABLE_SIZE) :=
  if irq < 255#32 && handler ≠ 0#32 then
    match (List.finRange INT_TABLE_SIZE).find? fun i =>
        (m.intTable i).irq = 0#32 && (m.intTable i).handler = 0#32 with
    | some i =>
        let m := { m with intTable := Function.update m.intTable i ⟨irq, handler⟩ }
        (setIdtEntry image m irq.toNat (image.addr (regIdtEntry irq)) DPL_3, some i)
    | none => (m, none)
  else (m, none)

/-- The word of `idt_handlers` at `i`; there is none behind the table. -/
def idtHandlerAddr (i : Nat) : Option (BitVec 32) :=
  if i < EX_COUNT then some ((idtHandlers i).elim 0#32 image.addr) else none

/-- There is no result if the table of default stubs is read behind its end. -/
def unregisterInt (m : Monitor) (index : Nat) : Option Monitor :=
  if h : index < INT_TABLE_SIZE then
    let irq := (m.intTable ⟨index, h⟩).irq.toNat
    (idtHandlerAddr image irq).map fun addr =>
      let m := setIdtEntry image m irq addr DPL_3
      { m with intTable := Function.update m.intTable ⟨index, h⟩ ⟨0#32, 0#32⟩ }
  else some m

def setupIdt (m : Monitor) : Monitor :=
  let m := Loop.up (fun i m =>
    match idtHandlers i with
    | some stub => setIdtEntry image m i (image.addr stub) DPL_3
    | none => m) EX_COUNT m
  let m := { m with intTable := fun _ => ⟨0#32, 0#32⟩ }
  setIdtEntry image m V8086_COMM_INT.toNat (image.addr .vci) DPL_3

/-! ### Dispatch -/

def FUNC_V8086_EXIT : BitVec 32 := 0#32
def FUNC_SET_IOPL : BitVec 32 := 9#32
def FUNC_ID_MAX : BitVec 32 := 16#32
def GP_VECTOR : BitVec 32 := 13#32

/-- The fields of `struct ex_regs` that the dispatch uses. -/
structure ExRegs where
  vector : BitVec 32
  errorCode : BitVec 32
  eip : BitVec 32
  cs : BitVec 32
  eflags : BitVec 32
  esp : BitVec 32
  ss : BitVec 32

def resetExRegs (m : Monitor) (regs : ExRegs) (newEip : BitVec 32) : ExRegs :=
  { regs with
    ss := 0#32
    esp := if 0#32 < m.v8086Esp then m.v8086Esp else regs.esp
    cs := 0#32
    eip := newEip
    eflags := m.v8086Iopl }

def isFuncInvocation (vector fid : BitVec 32) : Bool :=
  (vector = GP_VECTOR && fid = FUNC_SET_IOPL) || vector = V8086_COMM_INT || fid = FUNC_V8086_EXIT

inductive Handled
  | resumed (regs : ExRegs)
  | unhandled (regs : ExRegs)

def handleException (m : Monitor) (regs : ExRegs) : Monitor × Handled :=
  let fid := m.funcId
  let m := { m with funcId := FUNC_ID_MAX }
  if isFuncInvocation regs.vector fid then
    let m := if fid < FUNC_ID_MAX then image.v8086Funcs fid m else m
    (m, .resumed (resetExRegs m regs m.retInsAddr))
  else
    match
      if regs.vector = V8086_REG_INT || regs.vector = V8086_REG_INT_E then
        (List.finRange INT_TABLE_SIZE).find? fun i =>
          (m.intTable i).irq ≠ 0#32 && (m.intTable i).handler ≠ 0#32
      else none with
    | some i =>
        let exVal := (m.intTable i).irq ||| (regs.errorCode <<< 16)
        let m := { m with exceptionData := exVal }
        (m, .resumed (resetExRegs m regs (m.intTable i).handler))
    | none =>
        let exVal :=
          regs.vector ||| (regs.errorCode <<< 16) ||| (((regs.eflags >>> 16) &&& 1#32) <<< 8)
        let m := { m with exceptionData := exVal }
        match image.exceptionTable.find? fun ex => ex.eip ≤ regs.eip && regs.eip < ex.handler with
        | some ex => (m, .resumed (resetExRegs m regs ex.handler))
        | none => (m, .unhandled regs)

/-- The registers as a stub leaves them on the stack, above the words that the processor pushed. -/
def Stub.regs (stub : Stub) (pushed : Nat → BitVec 32) : ExRegs :=
  if stub.leavesErrorCode then
    ⟨stub.vector, pushed 0, pushed 1, pushed 2, pushed 3, pushed 4, pushed 5⟩
  else ⟨stub.vector, 0#32, pushed 0, pushed 1, pushed 2, pushed 3, pushed 4⟩

def Stub.all : List Stub :=
  [.de, .db, .nmi, .bp, .of, .br, .ud, .nm, .df, .ts, .np, .ss, .gp, .pf, .mf, .ac, .mc, .xm,
    .vri, .vrie, .vci]

def stubAt (addr : BitVec 32) : Option Stub := Stub.all.find? fun stub => image.addr stub = addr

/-- An interrupt that the processor delivers on a vector: it enters the stub that a present gate
    points to. -/
def interrupt (m : Monitor) (vec : Nat) (pushed : Nat → BitVec 32) : Option (Monitor × Handled) :=
  if (m.idt vec).p = 1#1 then
    (stubAt image ((m.idt vec).offset1 ++ (m.idt vec).offset0)).map fun stub =>
      handleException image m (stub.regs pushed)
  else none

/-- What the test reads as the vector of the last exception. -/
def exceptionVector (m : Monitor) : BitVec 8 := m.exceptionData.setWidth 8

/-! ### Sequences of registrations -/

/-- An accepted registration, with the IDT entry that it replaced. -/
structure Registered where
  irq : BitVec 32
  handler : BitVec 32
  before : IdtEntry

/-- The monitor, the registration in force, and the vectors that were unregistered so far. -/
structure Session where
  monitor : Monitor
  registered : Option Registered
  released : List Nat

/-- The monitor as `main` starts it, whatever the shared words are. -/
def Session.start (m : Monitor) : Session :=
  ⟨{ setupIdt image { m with idt := fun _ => IdtEntry.zero } with funcId := FUNC_ID_MAX }, none, []⟩

inductive Call
  | register (irq handler : BitVec 32)
  | unregister

/-- There is no result for an `unregister` without a registration, and for one that is undefined. -/
def Session.step (s : Session) : Call → Option Session
  | .register irq handler =>
      match registerInt image s.monitor irq handler with
      | (m, some _) =>
          some { s with monitor := m, registered := some ⟨irq, handler, s.monitor.idt irq.toNat⟩ }
      | (m, none) => some { s with monitor := m }
  | .unregister =>
      s.registered.bind fun r =>
        (unregisterInt image s.monitor 0).map fun m => ⟨m, none, r.irq.toNat :: s.released⟩

/-- An interrupt on the vector resumes at the handler, and the test reads the vector. -/
def Registered.Dispatched (r : Registered) (m : Monitor) : Prop :=
  ∀ pushed, ∃ m' regs, interrupt image m r.irq.toNat pushed = some (m', .resumed regs) ∧
    regs.eip = r.handler ∧ exceptionVector m' = r.irq.setWidth 8

/-- Unregistering writes back the IDT entry that the registration replaced. -/
def Registered.Restored (r : Registered) (m : Monitor) : Prop :=
  ∃ m', unregisterInt image m 0 = some m' ∧ m'.idt r.irq.toNat = r.before

/-! ### The gates -/

def userGate (addr : BitVec 32) : IdtEntry := gate addr DPL_3 image.cs INTERGATE

theorem userGate_target (addr : BitVec 32) :
    (userGate image addr).offset1 ++ (userGate image addr).offset0 = addr := by
  simp only [userGate, gate]
  ext i hi
  rw [BitVec.getElem_append]
  split
  · simp [BitVec.getLsbD_eq_getElem hi]
  · next hlow => simp [Nat.add_sub_cancel' (Nat.not_lt.mp hlow), BitVec.getLsbD_eq_getElem hi]

theorem stubAt_addr (stub : Stub) : stubAt image (image.addr stub) = some stub := by
  simp only [stubAt, image.addr_injective.eq_iff]
  cases stub <;> rfl

def idleEntry (released : List Nat) (vec : Nat) : IdtEntry :=
  match idtHandlers vec with
  | some stub => userGate image (image.addr stub)
  | none =>
      if vec = V8086_COMM_INT.toNat then userGate image (image.addr .vci)
      else if vec ∈ released then userGate image 0#32
      else IdtEntry.zero

theorem idtHandlers_of_le {vec : Nat} (h : EX_COUNT ≤ vec) : idtHandlers vec = none := by
  unfold EX_COUNT at h
  unfold idtHandlers
  split <;> first | rfl | omega

/-- The loop of `setup_idt` writes the gates of the default stubs. -/
theorem setupLoop_idt (m : Monitor) (n vec : Nat) :
    (Loop.up (fun i m =>
      match idtHandlers i with
      | some stub => setIdtEntry image m i (image.addr stub) DPL_3
      | none => m) n m).idt vec
      = if vec < n then (idtHandlers vec).elim (m.idt vec) (userGate image <| image.addr ·)
        else m.idt vec := by
  induction n with
  | zero => rfl
  | succ n ih =>
      rw [Loop.up]
      by_cases hvec : vec = n
      · subst hvec
        rw [if_neg (Nat.lt_irrefl vec)] at ih
        rw [if_pos (Nat.lt_succ_self vec)]
        cases idtHandlers vec with
        | some stub => exact Function.update_self ..
        | none => exact ih
      · have hiff : vec < n + 1 ↔ vec < n := by omega
        simp only [hiff, ← ih]
        cases idtHandlers n with
        | some stub => exact Function.update_of_ne hvec ..
        | none => rfl

theorem setupIdt_idt {m : Monitor} (hm : m.idt = fun _ => IdtEntry.zero) (vec : Nat) :
    (setupIdt image m).idt vec = idleEntry image [] vec := by
  have hloop := setupLoop_idt image m EX_COUNT vec
  rw [hm] at hloop
  unfold setupIdt idleEntry
  dsimp only [setIdtEntry, setIdtEntryEx]
  by_cases hcomm : vec = V8086_COMM_INT.toNat
  · rw [hcomm, Function.update_self, idtHandlers_of_le (by decide), if_pos rfl]
    rfl
  · rw [Function.update_of_ne hcomm, if_neg hcomm, if_neg List.not_mem_nil]
    refine hloop.trans ?_
    split
    · cases idtHandlers vec <;> rfl
    · next hle => rw [idtHandlers_of_le (Nat.not_lt.mp hle)]

/-! ### The invariant -/

variable {image}

/-- What holds between the calls: the record and the IDT entry are those of the registration, and
    every other IDT entry is the idle one. -/
structure Session.Sound (image : Image) (s : Session) : Prop where
  noCommand : s.monitor.funcId = FUNC_ID_MAX
  slot : s.monitor.intTable 0 = s.registered.elim ⟨0#32, 0#32⟩ fun r => ⟨r.irq, r.handler⟩
  accepted : ∀ r ∈ s.registered, r.irq < 255#32 ∧ r.handler ≠ 0#32
  proxy : ∀ r ∈ s.registered,
    s.monitor.idt r.irq.toNat = userGate image (image.addr (regIdtEntry r.irq))
  before : ∀ r ∈ s.registered, r.before = idleEntry image s.released r.irq.toNat
  idle : ∀ vec, (∀ r ∈ s.registered, r.irq.toNat ≠ vec) →
    s.monitor.idt vec = idleEntry image s.released vec

theorem Session.sound_start (m : Monitor) : (Session.start image m).Sound image where
  noCommand := rfl
  slot := rfl
  accepted := nofun
  proxy := nofun
  before := nofun
  idle vec _ := setupIdt_idt image rfl vec

variable {s : Session}

/-- The loops over the table look at its only record. -/
theorem find?_slot (p : Fin INT_TABLE_SIZE → Bool) :
    (List.finRange INT_TABLE_SIZE).find? p = if p 0 then some 0 else none := by
  have hrange : List.finRange INT_TABLE_SIZE = [0] := by decide
  rw [hrange]
  cases hp : p 0 <;> simp [hp]

theorem update_slot (t : Fin INT_TABLE_SIZE → IrqRecord) (i : Fin INT_TABLE_SIZE) (e : IrqRecord) :
    Function.update t i e = fun _ => e := by
  funext j
  rw [Subsingleton.elim j i, Function.update_self]

/-- A registration is accepted if nothing is registered, and changes nothing otherwise. -/
theorem Session.Sound.registerInt_eq (h : s.Sound image) (irq handler : BitVec 32) :
    registerInt image s.monitor irq handler =
      if irq < 255#32 ∧ handler ≠ 0#32 ∧ s.registered = none then
        (setIdtEntry image { s.monitor with intTable := fun _ => ⟨irq, handler⟩ } irq.toNat
          (image.addr (regIdtEntry irq)) DPL_3, some 0)
      else (s.monitor, none) := by
  have hfree : ((s.monitor.intTable 0).irq = 0#32 && (s.monitor.intTable 0).handler = 0#32) = true ↔
      s.registered = none := by
    rw [h.slot]
    cases hr : s.registered with
    | none => simp
    | some r =>
        have hhandler := (h.accepted r hr).2
        simp [hhandler]
  unfold registerInt
  simp only [find?_slot, hfree, update_slot]
  by_cases hargs : irq < 255#32 ∧ handler ≠ 0#32
  · by_cases hnone : s.registered = none
    · simp [hargs, hnone]
    · simp [hargs, hnone]
  · rw [if_neg (by simpa using hargs), if_neg (fun hall => hargs ⟨hall.1, hall.2.1⟩)]

theorem Session.Sound.register (h : s.Sound image) {s' : Session} {irq handler : BitVec 32}
    (hstep : s.step image (.register irq handler) = some s') : s'.Sound image := by
  rw [Session.step, h.registerInt_eq] at hstep
  by_cases haccept : irq < 255#32 ∧ handler ≠ 0#32 ∧ s.registered = none
  · rw [if_pos haccept] at hstep
    obtain ⟨hirq, hhandler, hnone⟩ := haccept
    have hidle : ∀ vec, s.monitor.idt vec = idleEntry image s.released vec :=
      fun vec => h.idle vec (by rw [hnone]; exact nofun)
    cases hstep
    constructor
    · exact h.noCommand
    · rfl
    · rintro r ⟨⟩
      exact ⟨hirq, hhandler⟩
    · rintro r ⟨⟩
      exact Function.update_self ..
    · rintro r ⟨⟩
      exact hidle irq.toNat
    · intro vec hvec
      exact (Function.update_of_ne (hvec _ rfl).symm ..).trans (hidle vec)
  · rw [if_neg haccept] at hstep
    cases hstep
    exact h

/-- What an `unregister` does where it is defined. -/
theorem Session.Sound.unregisterInt_eq (h : s.Sound image) {r : Registered}
    (hr : r ∈ s.registered) :
    unregisterInt image s.monitor 0 =
      (idtHandlerAddr image r.irq.toNat).map fun addr =>
        { setIdtEntry image s.monitor r.irq.toNat addr DPL_3 with
          intTable := fun _ => ⟨0#32, 0#32⟩ } := by
  have hslot : s.monitor.intTable 0 = ⟨r.irq, r.handler⟩ := by
    rw [h.slot, hr]
    rfl
  have hirq : (s.monitor.intTable ⟨0, Nat.one_pos⟩).irq = r.irq := congrArg IrqRecord.irq hslot
  unfold unregisterInt
  rw [dif_pos Nat.one_pos]
  simp only [hirq, update_slot]

/-- The gate that an `unregister` writes is the idle entry from then on. -/
theorem userGate_eq_idleEntry {vec : Nat} {addr : BitVec 32}
    (haddr : idtHandlerAddr image vec = some addr) (released : List Nat) :
    userGate image addr = idleEntry image (vec :: released) vec := by
  obtain ⟨hvec, haddr⟩ := Option.ite_none_right_eq_some.mp haddr
  cases haddr
  unfold idleEntry
  cases idtHandlers vec with
  | some stub => rfl
  | none =>
      have hcomm : vec ≠ V8086_COMM_INT.toNat := by
        rintro rfl
        exact absurd hvec (by decide)
      simp only [if_neg hcomm, List.mem_cons_self, if_true]
      rfl

theorem idleEntry_cons_of_ne {vec other : Nat} (h : other ≠ vec) (released : List Nat) :
    idleEntry image (vec :: released) other = idleEntry image released other := by
  simp only [idleEntry, List.mem_cons, h, false_or]

theorem Session.Sound.unregister (h : s.Sound image) {s' : Session}
    (hstep : s.step image .unregister = some s') : s'.Sound image := by
  obtain ⟨r, hr, hstep⟩ := Option.bind_eq_some_iff.mp hstep
  rw [h.unregisterInt_eq hr, Option.map_map] at hstep
  obtain ⟨addr, haddr, rfl⟩ := Option.map_eq_some_iff.mp hstep
  constructor
  · exact h.noCommand
  · rfl
  · exact nofun
  · exact nofun
  · exact nofun
  · intro vec _
    by_cases hvec : vec = r.irq.toNat
    · rw [hvec]
      exact (Function.update_self ..).trans (userGate_eq_idleEntry haddr s.released)
    · have hidle := h.idle vec fun r' hr' => by
        obtain rfl : r = r' := Option.mem_unique hr hr'
        exact fun heq => hvec heq.symm
      exact ((Function.update_of_ne hvec ..).trans hidle).trans
        (idleEntry_cons_of_ne hvec s.released).symm

theorem Session.Sound.step (h : s.Sound image) {call : Call} {s' : Session}
    (hstep : s.step image call = some s') : s'.Sound image := by
  cases call with
  | register irq handler => exact h.register hstep
  | unregister => exact h.unregister hstep

theorem Session.sound_of_calls (m : Monitor) {calls : List Call}
    (hrun : calls.foldlM (Session.step image) (Session.start image m) = some s) :
    s.Sound image := by
  have hstart : (Session.start image m).Sound image := Session.sound_start m
  generalize Session.start image m = s₀ at hrun hstart
  induction calls generalizing s₀ with
  | nil => cases hrun; exact hstart
  | cons call calls ih =>
      obtain ⟨s₁, hstep, hrun⟩ := Option.bind_eq_some_iff.mp hrun
      exact ih s₁ hrun (hstart.step hstep)

/-! ### Dispatch and restore -/

theorem regIdtEntry_cases (irq : BitVec 32) :
    (regIdtEntry irq).vector = V8086_REG_INT ∨ (regIdtEntry irq).vector = V8086_REG_INT_E := by
  unfold regIdtEntry
  split
  · exact Or.inr rfl
  · exact Or.inl rfl

/-- An interrupt on the registered vector reaches `handle_exception` by the proxy stub. -/
theorem Session.Sound.interrupt_eq (h : s.Sound image) {r : Registered} (hr : r ∈ s.registered)
    (pushed : Nat → BitVec 32) :
    interrupt image s.monitor r.irq.toNat pushed
      = some (handleException image s.monitor ((regIdtEntry r.irq).regs pushed)) := by
  unfold interrupt
  rw [h.proxy r hr, userGate_target, stubAt_addr]
  exact if_pos rfl

theorem regs_vector (stub : Stub) (pushed : Nat → BitVec 32) :
    (stub.regs pushed).vector = stub.vector := by
  unfold Stub.regs
  split <;> rfl

/-- The low byte of the recorded word is the vector. -/
theorem exceptionVector_or (v e : BitVec 32) : (v ||| (e <<< 16)).setWidth 8 = v.setWidth 8 := by
  ext i hi
  simp

theorem isFuncInvocation_proxy {vector : BitVec 32}
    (hvector : vector = V8086_REG_INT ∨ vector = V8086_REG_INT_E) :
    isFuncInvocation vector FUNC_ID_MAX = false := by
  rcases hvector with rfl | rfl <;> decide

/-- With no command pending, a proxy vector goes to the registered handler if the record's vector is
    not zero. -/
theorem handleException_registered (image : Image) {m : Monitor} {regs : ExRegs}
    (hcommand : m.funcId = FUNC_ID_MAX)
    (hvector : regs.vector = V8086_REG_INT ∨ regs.vector = V8086_REG_INT_E)
    (hirq : (m.intTable 0).irq ≠ 0#32) (hhandler : (m.intTable 0).handler ≠ 0#32) :
    ∃ m' regs', handleException image m regs = (m', .resumed regs') ∧
      regs'.eip = (m.intTable 0).handler ∧
      exceptionVector m' = (m.intTable 0).irq.setWidth 8 := by
  have hproxy : (regs.vector = V8086_REG_INT || regs.vector = V8086_REG_INT_E) = true := by
    simpa using hvector
  have hrecord : ((m.intTable 0).irq ≠ 0#32 && (m.intTable 0).handler ≠ 0#32) = true := by
    simpa using ⟨hirq, hhandler⟩
  unfold handleException
  simp only [hcommand, isFuncInvocation_proxy hvector, hproxy, find?_slot, hrecord, if_true,
    Bool.false_eq_true, if_false]
  exact ⟨_, _, rfl, rfl, exceptionVector_or _ _⟩

/-- A record of vector zero is passed over: the proxy's own vector is recorded. -/
theorem handleException_zero (image : Image) {m : Monitor} {regs : ExRegs}
    (hcommand : m.funcId = FUNC_ID_MAX)
    (hvector : regs.vector = V8086_REG_INT ∨ regs.vector = V8086_REG_INT_E)
    (hirq : (m.intTable 0).irq = 0#32) :
    exceptionVector (handleException image m regs).1 = regs.vector.setWidth 8 := by
  have hrecord : ((m.intTable 0).irq ≠ 0#32 && (m.intTable 0).handler ≠ 0#32) = false := by
    simp [hirq]
  have hlow : ∀ v e f : BitVec 32,
      (v ||| (e <<< 16) ||| ((f &&& 1#32) <<< 8)).setWidth 8 = v.setWidth 8 := by
    intro v e f
    ext i hi
    simp
  unfold handleException
  simp only [hcommand, isFuncInvocation_proxy hvector, find?_slot, hrecord, Bool.false_eq_true,
    if_false, ite_self]
  split <;> exact hlow _ _ _

theorem Session.Sound.dispatched_iff (h : s.Sound image) {r : Registered} (hr : r ∈ s.registered) :
    r.Dispatched image s.monitor ↔ r.irq ≠ 0#32 := by
  have hslot : s.monitor.intTable 0 = ⟨r.irq, r.handler⟩ := by
    rw [h.slot, hr]
    rfl
  have hproxy : ∀ pushed, ((regIdtEntry r.irq).regs pushed).vector = V8086_REG_INT ∨
      ((regIdtEntry r.irq).regs pushed).vector = V8086_REG_INT_E := by
    intro pushed
    rw [regs_vector]
    exact regIdtEntry_cases r.irq
  constructor
  · intro hdispatched hzero
    obtain ⟨m', regs, hrun, -, hrecorded⟩ := hdispatched fun _ => 0#32
    rw [h.interrupt_eq hr] at hrun
    have hvector := handleException_zero image h.noCommand (hproxy fun _ => 0#32)
      (by rw [hslot]; exact hzero)
    rw [Option.some.inj hrun, hrecorded, hzero] at hvector
    revert hvector
    decide
  · intro hirq pushed
    rw [h.interrupt_eq hr]
    obtain ⟨m', regs, hrun, heip, hrecorded⟩ := handleException_registered image
      h.noCommand (hproxy pushed) (by rwa [hslot]) (by rw [hslot]; exact (h.accepted r hr).2)
    rw [hslot] at heip hrecorded
    exact ⟨m', regs, congrArg some hrun, heip, hrecorded⟩

/-- The default gate is the entry before the registration if the vector has a default stub, or if a
    null stub was written before. -/
theorem userGate_eq_idleEntry_iff {vec : Nat} (hvec : vec < EX_COUNT) (released : List Nat) :
    userGate image ((idtHandlers vec).elim 0#32 image.addr) = idleEntry image released vec ↔
      (idtHandlers vec).isSome ∨ vec ∈ released := by
  have hcomm : vec ≠ V8086_COMM_INT.toNat := by
    rintro rfl
    exact absurd hvec (by decide)
  have hnull : userGate image 0#32 ≠ IdtEntry.zero := by
    intro heq
    have hp : 1#1 = 0#1 := congrArg IdtEntry.p heq
    revert hp
    decide
  unfold idleEntry
  cases idtHandlers vec with
  | some stub => exact iff_of_true rfl (Or.inl rfl)
  | none =>
      simp only [if_neg hcomm, Option.elim_none, Option.isSome_none, Bool.false_eq_true, false_or]
      split
      · next hmem => exact iff_of_true rfl hmem
      · next hmem => exact iff_of_false hnull hmem

theorem Session.Sound.restored_iff (h : s.Sound image) {r : Registered} (hr : r ∈ s.registered) :
    r.Restored image s.monitor ↔
      r.irq.toNat < EX_COUNT ∧ ((idtHandlers r.irq.toNat).isSome ∨ r.irq.toNat ∈ s.released) := by
  unfold Registered.Restored
  rw [h.unregisterInt_eq hr, h.before r hr]
  constructor
  · rintro ⟨m', hrun, hentry⟩
    obtain ⟨addr, haddr, rfl⟩ := Option.map_eq_some_iff.mp hrun
    obtain ⟨hvec, haddr⟩ := Option.ite_none_right_eq_some.mp haddr
    cases haddr
    exact ⟨hvec, (userGate_eq_idleEntry_iff hvec s.released).mp
      ((Function.update_self ..).symm.trans hentry)⟩
  · rintro ⟨hvec, hdefault⟩
    refine ⟨_, by rw [idtHandlerAddr, if_pos hvec, Option.map_some], ?_⟩
    exact (Function.update_self ..).trans ((userGate_eq_idleEntry_iff hvec s.released).mpr hdefault)

/-- After every sequence of calls from the start of `main`, the registration in force is dispatched
    exactly if its vector is not zero, and restored exactly if its vector is one of the 32 default
    ones and has a default stub or was unregistered before. -/
theorem registered_dispatched_restored_iff (image : Image) (m : Monitor) {calls : List Call}
    {s : Session} (hrun : calls.foldlM (Session.step image) (Session.start image m) = some s)
    {r : Registered} (hr : s.registered = some r) :
    (r.Dispatched image s.monitor ↔ r.irq ≠ 0#32) ∧
    (r.Restored image s.monitor ↔
      r.irq.toNat < EX_COUNT ∧
        ((idtHandlers r.irq.toNat).isSome ∨ r.irq.toNat ∈ s.released)) :=
  have hsound := Session.sound_of_calls m hrun
  ⟨hsound.dispatched_iff hr, hsound.restored_iff hr⟩

/-! ### Three registrations -/

/-- Stubs of sixteen bytes each, from 4 MiB on, and an empty exception table. -/
def smallImage : Image where
  addr stub := 0x400000#32 + 16#32 * stub.vector
  addr_injective :=
    Function.LeftInverse.injective
      (g := fun a => (Stub.all.find? fun stub => 0x400000#32 + 16#32 * stub.vector = a).getD .de)
      fun stub => by cases stub <;> decide
  addr_ne_zero stub := by cases stub <;> decide
  cs := 8#16
  exceptionTable := []
  v8086Funcs _ m := m

def quietMonitor : Monitor :=
  ⟨fun _ => IdtEntry.zero, fun _ => ⟨0#32, 0#32⟩, 0#32, 0#32, 0#32, 0#32, 0#32⟩

/-- A general protection handler is dispatched and restored. -/
theorem gp_registration_dispatched_restored :
    ∃ s r, [Call.register 13#32 0x8000#32].foldlM (Session.step smallImage)
        (Session.start smallImage quietMonitor) = some s ∧ s.registered = some r ∧
      r.Dispatched smallImage s.monitor ∧ r.Restored smallImage s.monitor := by
  refine ⟨_, _, rfl, rfl, ?_⟩
  obtain ⟨hdispatched, hrestored⟩ :=
    registered_dispatched_restored_iff smallImage quietMonitor
      (rfl : [Call.register 13#32 0x8000#32].foldlM (Session.step smallImage)
        (Session.start smallImage quietMonitor) = some _) rfl
  exact ⟨hdispatched.mpr (by decide), hrestored.mpr (by decide)⟩

/-- Vector 0 is accepted and not dispatched, vector 9 is not restored, and unregistering vector 32
    reads behind the table of default stubs. -/
theorem registrations_not_dispatched_restored :
    (∃ s r, [Call.register 0#32 0x8000#32].foldlM (Session.step smallImage)
        (Session.start smallImage quietMonitor) = some s ∧ s.registered = some r ∧
      ¬r.Dispatched smallImage s.monitor) ∧
    (∃ s r, [Call.register 9#32 0x8000#32].foldlM (Session.step smallImage)
        (Session.start smallImage quietMonitor) = some s ∧ s.registered = some r ∧
      ¬r.Restored smallImage s.monitor) ∧
    (∃ s r, [Call.register 32#32 0x8000#32].foldlM (Session.step smallImage)
        (Session.start smallImage quietMonitor) = some s ∧ s.registered = some r ∧
      unregisterInt smallImage s.monitor 0 = none) := by
  refine ⟨⟨_, _, rfl, rfl, ?_⟩, ⟨_, _, rfl, rfl, ?_⟩, ⟨_, _, rfl, rfl, rfl⟩⟩
  · intro hdispatched
    -- the proxy's own vector is looked up in the static table, and nothing is found
    obtain ⟨m', regs, hrun, -, -⟩ := hdispatched fun _ => 0#32
    cases hrun
  · rintro ⟨m', hrun, hentry⟩
    cases hrun
    revert hentry
    decide

end AcrnGuest.V8086
