import Mathlib.Data.BitVec
import Mathlib.Tactic.Ring
import AcrnGuest.GdtEntries

/-!
# The interrupt descriptor table (`lib/x86/desc.c`, `lib/x86/isr.c`)

`set_idt_entry_ex` fills an entry of `boot_idt` through the fields of `idt_entry_t`; other
functions of the tests change one field of an entry that is there. The processor reads a gate
from the places the architecture gives its fields, and so does the emulation of an external
interrupt for the address of the handler.

Over any sequence of these calls the table that the processor sees is the one that the calls
describe (`idt_calls_refine`).
-/

namespace AcrnGuest

/-! ### The source -/

def idtEntry (bootIdt : Word) (vec : Fin 256) : Word := bootIdt + 16#64 * BitVec.ofNat 64 vec

namespace IdtEntryT

theorem type_fits : 0 < 4 ∧ 8 + 4 ≤ 16 := by decide
theorem p_fits : 0 < 1 ∧ 15 + 1 ≤ 16 := by decide

def ist : BitField := flagsField 0 3 (by decide)
def type : BitField := flagsField 8 4 type_fits
def dpl : BitField := flagsField 13 2 (by decide)
def p : BitField := flagsField 15 1 p_fits

end IdtEntryT

def setIdtEntryEx (m : Bytes) (bootIdt : Word) (vec : Fin 256) (addr : Word) (selector : BitVec 16)
    (dpl ist : BitVec 32) : Bytes :=
  let e := idtEntry bootIdt vec
  let m := (m.store (e + 0#64) 0#64).store (e + 8#64) 0#64
  -- `offset0` is at offset 0, `selector` at 2, the bit-fields at 4, `offset1` at 6, `offset2` at 8
  let m := m.store (e + 0#64) (addr.setWidth 16)
  let m := m.store (e + 2#64) selector
  let m := m.assign (e + 4#64) IdtEntryT.ist (ist.setWidth 8)
  let m := m.assign (e + 4#64) IdtEntryT.type 14#8
  let m := m.assign (e + 4#64) IdtEntryT.dpl (dpl.setWidth 8)
  let m := m.assign (e + 4#64) IdtEntryT.p 1#8
  let m := m.store (e + 6#64) ((addr >>> 16).setWidth 16)
  m.store (e + 8#64) ((addr >>> 32).setWidth 32)

/-- `set_idt_entry_ist`; `cs` is what `read_cs` returns. -/
def setIdtEntryIst (m : Bytes) (bootIdt : Word) (cs : BitVec 16) (vec : Fin 256) (addr : Word)
    (dpl ist : BitVec 32) : Bytes :=
  setIdtEntryEx m bootIdt vec addr cs dpl ist

def setIdtEntry (m : Bytes) (bootIdt : Word) (cs : BitVec 16) (vec : Fin 256) (addr : Word)
    (dpl : BitVec 32) : Bytes :=
  setIdtEntryEx m bootIdt vec addr cs dpl 0#32

def setIdtDpl (m : Bytes) (bootIdt : Word) (vec : Fin 256) (dpl : BitVec 16) : Bytes :=
  m.assign (idtEntry bootIdt vec + 4#64) IdtEntryT.dpl (dpl.setWidth 8)

def setIdtSel (m : Bytes) (bootIdt : Word) (vec : Fin 256) (sel : BitVec 16) : Bytes :=
  m.store (idtEntry bootIdt vec + 2#64) sel

def setIntrAltStack (m : Bytes) (bootIdt : Word) (cs : BitVec 16) (e : Fin 256) (addr : Word) :
    Bytes :=
  let m := setIdtEntry m bootIdt cs e addr 0#32
  m.assign (idtEntry bootIdt e + 4#64) IdtEntryT.ist 1#8

/-- `entry` in `handle_external_interrupt`. -/
def externalInterruptEntry (m : Bytes) (bootIdt : Word) (vector : Fin 256) : Word :=
  let idt := idtEntry bootIdt vector
  let offset2 := m.load16 (idt + 10#64) ++ m.load16 (idt + 8#64)
  (m.load16 (idt + 0#64)).setWidth 64 ||| ((m.load16 (idt + 6#64)).setWidth 64 <<< 16) |||
    (offset2.setWidth 64 <<< 32)

/-! ### The architectural layout -/

/-- What the processor takes from a gate of 16 bytes. -/
structure InterruptGate where
  offset : Word
  selector : BitVec 16
  ist : BitVec 3
  type : BitVec 4
  /-- The bit behind the type, which is 0 in a gate. -/
  s : BitVec 1
  dpl : BitVec 2
  p : BitVec 1
deriving DecidableEq

def InterruptGate.read (m : Bytes) (a : Word) : InterruptGate where
  offset := m.load16 (a + 10#64) ++ m.load16 (a + 8#64) ++ m.load16 (a + 6#64) ++
    m.load16 (a + 0#64)
  selector := m.load16 (a + 2#64)
  ist := (m.load16 (a + 4#64)).extractLsb' 0 3
  type := (m.load16 (a + 4#64)).extractLsb' 8 4
  s := (m.load16 (a + 4#64)).extractLsb' 12 1
  dpl := (m.load16 (a + 4#64)).extractLsb' 13 2
  p := (m.load16 (a + 4#64)).extractLsb' 15 1

/-! ### Calls -/

inductive IdtCall
  | setEntry (vec : Fin 256) (addr : Word) (selector : BitVec 16) (dpl ist : BitVec 32)
  | setDpl (vec : Fin 256) (dpl : BitVec 16)
  | setSel (vec : Fin 256) (sel : BitVec 16)
  | setAltStack (e : Fin 256) (addr : Word) (cs : BitVec 16)

def IdtCall.run (bootIdt : Word) (m : Bytes) : IdtCall → Bytes
  | .setEntry vec addr selector dpl ist => setIdtEntryEx m bootIdt vec addr selector dpl ist
  | .setDpl vec dpl => setIdtDpl m bootIdt vec dpl
  | .setSel vec sel => setIdtSel m bootIdt vec sel
  | .setAltStack e addr cs => setIntrAltStack m bootIdt cs e addr

def IdtCall.vector : IdtCall → Fin 256
  | .setEntry vec _ _ _ _ | .setDpl vec _ | .setSel vec _ | .setAltStack vec _ _ => vec

def IdtCall.gate (g : InterruptGate) : IdtCall → InterruptGate
  | .setEntry _ addr selector dpl ist =>
    ⟨addr, selector, ist.setWidth 3, 14#4, 0#1, dpl.setWidth 2, 1#1⟩
  | .setDpl _ dpl => { g with dpl := dpl.setWidth 2 }
  | .setSel _ sel => { g with selector := sel }
  | .setAltStack _ addr cs => ⟨addr, cs, 1#3, 14#4, 0#1, 0#2, 1#1⟩

def IdtCall.apply (t : Fin 256 → InterruptGate) (call : IdtCall) : Fin 256 → InterruptGate :=
  Function.update t call.vector (call.gate (t call.vector))

/-! ### One call -/

section Gates

variable {m : Bytes} {e : Word}

theorem extract_assignBits (f : BitField) (w : BitVec 16) (v : BitVec 8) {n : Nat}
    (hn : f.width = n) (hfit : f.pos + n ≤ 16) :
    (assignBits f w v).extractLsb' f.pos n = v.setWidth n := by
  refine BitVec.eq_of_getLsbD_eq fun i hi => ?_
  rw [BitVec.getLsbD_extractLsb', decide_eq_true hi, Bool.true_and,
    getLsbD_assignBits _ _ _ (by omega), if_pos ⟨by omega, by omega⟩, BitVec.getLsbD_setWidth,
    decide_eq_true hi, Bool.true_and, Nat.add_sub_cancel_left]

theorem extract_assignBits_apart (f : BitField) (w : BitVec 16) (v : BitVec 8) {k n : Nat}
    (h : k + n ≤ f.pos ∨ f.pos + f.width ≤ k) (hfit : k + n ≤ 16) :
    (assignBits f w v).extractLsb' k n = w.extractLsb' k n := by
  refine BitVec.eq_of_getLsbD_eq fun i hi => ?_
  rw [BitVec.getLsbD_extractLsb', BitVec.getLsbD_extractLsb', decide_eq_true hi, Bool.true_and,
    Bool.true_and, getLsbD_assignBits _ _ _ (by omega), if_neg (by omega)]

def gateFlags (dpl ist : BitVec 32) : BitVec 16 :=
  let w := assignBits IdtEntryT.ist 0#16 (ist.setWidth 8)
  let w := assignBits IdtEntryT.type w 14#8
  let w := assignBits IdtEntryT.dpl w (dpl.setWidth 8)
  assignBits IdtEntryT.p w 1#8

variable (m : Bytes) (bootIdt : Word) (vec : Fin 256) (addr : Word) (selector : BitVec 16)
  (dpl ist : BitVec 32)

theorem load16_flags_setIdtEntryEx :
    (setIdtEntryEx m bootIdt vec addr selector dpl ist).load16 (idtEntry bootIdt vec + 4#64) =
      gateFlags dpl ist := by
  simp (disch := decide) only [setIdtEntryEx, load16_apart, load16_store, Bytes.assign,
    load16_inside]
  rfl

theorem append_offsets (addr : Word) :
    ((addr >>> 32).setWidth 32).extractLsb' 16 16 ++ ((addr >>> 32).setWidth 32).extractLsb' 0 16 ++
      (addr >>> 16).setWidth 16 ++ addr.setWidth 16 = addr := by
  refine BitVec.eq_of_getLsbD_eq fun i hi => ?_
  simp only [BitVec.getLsbD_append, BitVec.getLsbD_extractLsb', BitVec.getLsbD_setWidth,
    BitVec.getLsbD_ushiftRight]
  grind

theorem gateFlags_fields : (gateFlags dpl ist).extractLsb' 0 3 = ist.setWidth 3 ∧
    (gateFlags dpl ist).extractLsb' 8 4 = 14#4 ∧ (gateFlags dpl ist).extractLsb' 12 1 = 0#1 ∧
    (gateFlags dpl ist).extractLsb' 13 2 = dpl.setWidth 2 ∧
      (gateFlags dpl ist).extractLsb' 15 1 = 1#1 := by
  refine ⟨?_, ?_, ?_, ?_, ?_⟩
  · simp (disch := decide) only [gateFlags, extract_assignBits_apart]
    exact (extract_assignBits IdtEntryT.ist _ _ rfl (by decide)).trans
      (BitVec.setWidth_setWidth_of_le _ (by decide))
  · simp (disch := decide) only [gateFlags, extract_assignBits_apart]
    exact extract_assignBits IdtEntryT.type _ _ rfl (by decide)
  · simp (disch := decide) only [gateFlags, extract_assignBits_apart]
    rfl
  · simp (disch := decide) only [gateFlags, extract_assignBits_apart]
    exact (extract_assignBits IdtEntryT.dpl _ _ rfl (by decide)).trans
      (BitVec.setWidth_setWidth_of_le _ (by decide))
  · exact extract_assignBits IdtEntryT.p _ _ rfl (by decide)

theorem read_setIdtEntryEx :
    InterruptGate.read (setIdtEntryEx m bootIdt vec addr selector dpl ist) (idtEntry bootIdt vec)
    = ⟨addr, selector, ist.setWidth 3, 14#4, 0#1, dpl.setWidth 2, 1#1⟩ := by
  have hoffset : (InterruptGate.read (setIdtEntryEx m bootIdt vec addr selector dpl ist)
      (idtEntry bootIdt vec)).offset = addr := by
    simp (disch := decide) only [InterruptGate.read, setIdtEntryEx, Bytes.assign,
      load16_apart, load16_store, load16_inside]
    exact append_offsets addr
  have hselector : (InterruptGate.read (setIdtEntryEx m bootIdt vec addr selector dpl ist)
      (idtEntry bootIdt vec)).selector = selector := by
    simp (disch := decide) only [InterruptGate.read, setIdtEntryEx, Bytes.assign,
      load16_apart, load16_store]
  obtain ⟨hist, htype, hs, hdpl, hp⟩ := gateFlags_fields dpl ist
  rw [InterruptGate.read, load16_flags_setIdtEntryEx, hist, htype, hs, hdpl, hp]
  exact congrArg₂ (fun o s =>
    (⟨o, s, ist.setWidth 3, 14#4, 0#1, dpl.setWidth 2, 1#1⟩ : InterruptGate)) hoffset hselector

theorem read_setIdtDpl (d : BitVec 16) :
    InterruptGate.read (setIdtDpl m bootIdt vec d) (idtEntry bootIdt vec)
    = { InterruptGate.read m (idtEntry bootIdt vec) with dpl := d.setWidth 2 } := by
  have hdpl : ∀ w, (assignBits IdtEntryT.dpl w (d.setWidth 8)).extractLsb' 13 2 =
      d.setWidth 2 := fun w =>
    (extract_assignBits IdtEntryT.dpl _ _ rfl (by decide)).trans
    (BitVec.setWidth_setWidth_of_le _ (by decide))
  simp (disch := decide) only [InterruptGate.read, setIdtDpl, Bytes.assign,
    load16_apart, load16_store, extract_assignBits_apart, hdpl]

theorem read_setIntrAltStack (cs : BitVec 16) :
    InterruptGate.read (setIntrAltStack m bootIdt cs vec addr) (idtEntry bootIdt vec)
      = ⟨addr, cs, 1#3, 14#4, 0#1, 0#2, 1#1⟩ := by
  have hist : ∀ w, (assignBits IdtEntryT.ist w 1#8).extractLsb' 0 3 = 1#3 := fun w =>
    extract_assignBits IdtEntryT.ist _ _ rfl (by decide)
  have hread : InterruptGate.read (setIntrAltStack m bootIdt cs vec addr) (idtEntry bootIdt vec)
      = { InterruptGate.read (setIdtEntry m bootIdt cs vec addr 0#32) (idtEntry bootIdt vec) with
        ist := 1#3 } := by
    simp (disch := decide) only [InterruptGate.read, setIntrAltStack, Bytes.assign,
      load16_apart, load16_store, extract_assignBits_apart, hist]
  rw [hread, setIdtEntry, read_setIdtEntryEx]
  rfl

theorem read_setIdtSel (sel : BitVec 16) :
    InterruptGate.read (setIdtSel m bootIdt vec sel) (idtEntry bootIdt vec)
    = { InterruptGate.read m (idtEntry bootIdt vec) with selector := sel } := by
  simp (disch := decide) only [InterruptGate.read, setIdtSel, load16_apart, load16_store]

theorem read_run (call : IdtCall) :
    InterruptGate.read (call.run bootIdt m) (idtEntry bootIdt call.vector)
    = call.gate (InterruptGate.read m (idtEntry bootIdt call.vector)) := by
  cases call with
  | setEntry vec addr selector dpl ist =>
    exact read_setIdtEntryEx m bootIdt vec addr selector dpl ist
  | setDpl vec d => exact read_setIdtDpl m bootIdt vec d
  | setSel vec sel => exact read_setIdtSel m bootIdt vec sel
  | setAltStack e addr cs => exact read_setIntrAltStack m bootIdt e addr cs

/-- A call changes the sixteen bytes of one entry at most. -/
theorem run_behind (call : IdtCall) {j : Word} (hj : 16 ≤ j.toNat) :
    call.run bootIdt m (idtEntry bootIdt call.vector + j) =
      m (idtEntry bootIdt call.vector + j) := by
  cases call with
  | setEntry vec addr selector dpl ist =>
    simp (disch := simp; omega) only [IdtCall.run, IdtCall.vector, setIdtEntryEx,
      Bytes.assign, store_behind]
  | setDpl vec d =>
    simp (disch := simp; omega) only [IdtCall.run, IdtCall.vector, setIdtDpl,
      Bytes.assign, store_behind]
  | setSel vec sel =>
    simp (disch := simp; omega) only [IdtCall.run, IdtCall.vector, setIdtSel, store_behind]
  | setAltStack e addr cs =>
    simp (disch := simp; omega) only [IdtCall.run, IdtCall.vector, setIntrAltStack, setIdtEntry,
      setIdtEntryEx, Bytes.assign, store_behind]

theorem run_apart (call : IdtCall) {a : Word} (h : 16 ≤ (a - idtEntry bootIdt call.vector).toNat) :
    call.run bootIdt m a = m a := by
  have hbehind := run_behind m bootIdt call h
  rwa [add_sub_cancel] at hbehind

end Gates

/-! ### Runs -/

section Runs

variable {m m' : Bytes} (bootIdt : Word)

/-- The bytes of another entry are not those of an entry. -/
theorem behind_of_ne {vec vec' : Fin 256} (h : vec' ≠ vec) {i : Nat} (hi : i < 16) :
    16 ≤ (idtEntry bootIdt vec' + BitVec.ofNat 64 i - idtEntry bootIdt vec).toNat := by
  have hoff : idtEntry bootIdt vec' + BitVec.ofNat 64 i - idtEntry bootIdt vec
      = BitVec.ofNat 64 (16 * vec' + i) - BitVec.ofNat 64 (16 * vec) := by
    rw [idtEntry, idtEntry, BitVec.ofNat_add, BitVec.ofNat_mul, BitVec.ofNat_mul]
    ring
  have hne : vec'.val ≠ vec.val := fun heq => h (Fin.ext heq)
  have hlt := vec.isLt
  have hlt' := vec'.isLt
  rw [hoff, BitVec.toNat_sub, BitVec.toNat_ofNat, BitVec.toNat_ofNat]
  omega

theorem behind_of_outside (vec : Fin 256) {a : Word} (h : 4096 ≤ (a - bootIdt).toNat) :
    16 ≤ (a - idtEntry bootIdt vec).toNat := by
  have hoff : a - idtEntry bootIdt vec = a - bootIdt - BitVec.ofNat 64 (16 * vec) := by
    rw [idtEntry, BitVec.ofNat_mul]
    ring
  have hlt := vec.isLt
  have hmax := (a - bootIdt).isLt
  rw [hoff, BitVec.toNat_sub, BitVec.toNat_ofNat]
  omega

theorem read_congr {a : Word} (h : ∀ i < 16,
    m' (a + BitVec.ofNat 64 i) = m (a + BitVec.ofNat 64 i)) :
    InterruptGate.read m' a = InterruptGate.read m a := by
  have hload : ∀ k < 15, m'.load16 (a + BitVec.ofNat 64 k) = m.load16 (a + BitVec.ofNat 64 k) := by
    intro k hk
    have hnext : a + BitVec.ofNat 64 k + 1#64 = a + BitVec.ofNat 64 (k + 1) := by
      rw [BitVec.ofNat_add, add_assoc]
    rw [Bytes.load16, Bytes.load16, hnext, h k (by omega), h (k + 1) (by omega)]
  rw [InterruptGate.read, InterruptGate.read, hload 0 (by decide), hload 2 (by decide),
    hload 4 (by decide), hload 6 (by decide), hload 8 (by decide), hload 10 (by decide)]

def idtTable (bootIdt : Word) (m : Bytes) (vec : Fin 256) : InterruptGate :=
  InterruptGate.read m (idtEntry bootIdt vec)

theorem idtTable_run (call : IdtCall) :
    idtTable bootIdt (call.run bootIdt m) = call.apply (idtTable bootIdt m) := by
  funext vec
  by_cases h : vec = call.vector
  · subst h
    rw [IdtCall.apply, Function.update_self]
    exact read_run m bootIdt call
  · rw [IdtCall.apply, Function.update_of_ne h]
    exact read_congr fun i hi => run_apart m bootIdt call (behind_of_ne bootIdt h hi)

theorem externalInterruptEntry_eq (m : Bytes) (bootIdt : Word) (vector : Fin 256) :
    externalInterruptEntry m bootIdt vector = (idtTable bootIdt m vector).offset := by
  refine BitVec.eq_of_getLsbD_eq fun i hi => ?_
  simp only [externalInterruptEntry, idtTable, InterruptGate.read, BitVec.getLsbD_or,
    BitVec.getLsbD_shiftLeft, BitVec.getLsbD_setWidth, BitVec.getLsbD_append]
  grind

/-- After any calls the processor finds in `boot_idt` the gates that the calls describe, the
    emulation of an external interrupt takes the handler of that gate, and no byte outside the
    table has changed. -/
theorem idt_calls_refine (m : Bytes) (bootIdt : Word) (calls : List IdtCall) :
    idtTable bootIdt (calls.foldl (IdtCall.run bootIdt) m) =
      calls.foldl IdtCall.apply (idtTable bootIdt m) ∧
    (∀ vector, externalInterruptEntry (calls.foldl (IdtCall.run bootIdt) m) bootIdt vector
      = (calls.foldl IdtCall.apply (idtTable bootIdt m) vector).offset) ∧
    ∀ a, 4096 ≤ (a - bootIdt).toNat → calls.foldl (IdtCall.run bootIdt) m a = m a := by
  have htable : ∀ m, idtTable bootIdt (calls.foldl (IdtCall.run bootIdt) m)
      = calls.foldl IdtCall.apply (idtTable bootIdt m) := by
    induction calls with
    | nil => exact fun _ => rfl
    | cons call calls ih =>
      intro m
      rw [List.foldl_cons, List.foldl_cons, ih, idtTable_run]
  refine ⟨htable m, fun vector => by rw [externalInterruptEntry_eq, htable], fun a ha => ?_⟩
  clear htable
  induction calls generalizing m with
  | nil => rfl
  | cons call calls ih =>
    rw [List.foldl_cons, ih, run_apart m bootIdt call (behind_of_outside bootIdt call.vector ha)]

end Runs

end AcrnGuest
