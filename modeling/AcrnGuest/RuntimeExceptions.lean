import Mathlib.Data.List.FinRange
import Mathlib.Logic.Function.Basic

/-!
# Exceptions that resume at a handler (`lib/x86/desc.c`)

A fault is looked up by its instruction pointer, first in a table that the linker
builds and then in 32 slots that tests fill and clear while they run. A cleared slot is
one whose two words are zero; the lookup compares the first word only, so that a fault
at address zero finds a cleared slot. This is the only fault that is answered wrongly,
and only as long as there is a cleared slot.

The width of `unsigned long` is a parameter.
-/

namespace AcrnGuest

variable {w : Nat}

/-! ### The source -/

structure ExRecord (w : Nat) where
  rip : BitVec w
  handler : BitVec w
deriving DecidableEq

structure ExRegs (w : Nat) where
  vector : BitVec w
  errorCode : BitVec w
  rip : BitVec w
  rflags : BitVec w
deriving DecidableEq

abbrev RuntimeExceptionTable (w : Nat) : Type := Fin 32 → ExRecord w

/-- The result is the index of the slot, or `none` for `-1`. -/
def registerRuntimeException (table : RuntimeExceptionTable w) (rip handler : BitVec w) :
    RuntimeExceptionTable w × Option (Fin 32) :=
  match (List.finRange 32).find? fun i => (table i).rip = 0 && (table i).handler = 0 with
  | some i => (Function.update table i ⟨rip, handler⟩, some i)
  | none => (table, none)

def unregisterRuntimeException (table : RuntimeExceptionTable w) (i : Fin 32) :
    RuntimeExceptionTable w :=
  Function.update table i ⟨0, 0⟩

inductive Outcome (w : Nat)
  | resumed (regs : ExRegs w)
  | unhandled (regs : ExRegs w)
deriving DecidableEq

/-- The word stored for the test, and what becomes of the fault. -/
def checkExceptionTable (exceptionTable : List (ExRecord w)) (table : RuntimeExceptionTable w)
    (regs : ExRegs w) : BitVec 32 × Outcome w :=
  let exVal := regs.vector ||| (regs.errorCode <<< 16) ||| (((regs.rflags >>> 16) &&& 1) <<< 8)
  (exVal.setWidth 32,
    match exceptionTable.find? fun ex => ex.rip = regs.rip with
    | some ex => .resumed { regs with rip := ex.handler }
    | none =>
        match (List.finRange 32).find? fun i => (table i).rip = regs.rip with
        | some i => .resumed { regs with rip := (table i).handler }
        | none => .unhandled regs)

/-! ### The registrations -/

/-- A record that may be registered. -/
structure Registration (w : Nat) extends ExRecord w where
  rip_ne_zero : rip ≠ 0
  handler_ne_zero : handler ≠ 0

inductive ExceptionCall (w : Nat)
  | register (e : Registration w)
  | unregister (i : Fin 32)

/-- The slots and, apart from them, what is registered at present under each index that
    `register_runtime_exception` returned. -/
structure Exceptions (w : Nat) where
  table : RuntimeExceptionTable w
  registered : Fin 32 → Option (Registration w)

def Exceptions.start : Exceptions w := ⟨fun _ => ⟨0, 0⟩, fun _ => none⟩

def Exceptions.step (s : Exceptions w) : ExceptionCall w → Exceptions w
  | .register e =>
      match registerRuntimeException s.table e.rip e.handler with
      | (table, some i) => ⟨table, Function.update s.registered i (some e)⟩
      | (table, none) => ⟨table, s.registered⟩
  | .unregister i => ⟨unregisterRuntimeException s.table i, Function.update s.registered i none⟩

def Exceptions.after (calls : List (ExceptionCall w)) : Exceptions w :=
  calls.foldl Exceptions.step Exceptions.start

/-- Each slot holds what is registered under its index, and is cleared otherwise. -/
def Exceptions.Sound (s : Exceptions w) : Prop :=
  ∀ i, s.table i = ((s.registered i).map Registration.toExRecord).getD ⟨0, 0⟩

theorem Exceptions.Sound.update {s : Exceptions w} (h : s.Sound) (i : Fin 32)
    (r : Option (Registration w)) :
    Exceptions.Sound ⟨Function.update s.table i ((r.map Registration.toExRecord).getD ⟨0, 0⟩),
      Function.update s.registered i r⟩ := by
  intro j
  dsimp only
  by_cases hj : j = i
  · rw [hj, Function.update_self, Function.update_self]
  · rw [Function.update_of_ne hj, Function.update_of_ne hj]
    exact h j

theorem Exceptions.Sound.step {s : Exceptions w} (h : s.Sound) (call : ExceptionCall w) :
    (s.step call).Sound := by
  cases call with
  | register e =>
      unfold Exceptions.step registerRuntimeException
      cases (List.finRange 32).find? fun i => (s.table i).rip = 0 && (s.table i).handler = 0 with
      | none => exact h
      | some i => exact h.update i (some e)
  | unregister i => exact h.update i none

theorem Exceptions.sound_after (calls : List (ExceptionCall w)) :
    (Exceptions.after calls).Sound := by
  apply List.foldlRecOn (motive := Exceptions.Sound)
  · exact fun i => rfl
  · exact fun s h call _ => h.step call

/-! ### The lookup -/

/-- A record of the static table or one that is registered. -/
def Exceptions.Lists (s : Exceptions w) (exceptionTable : List (ExRecord w))
    (e : ExRecord w) : Prop :=
  e ∈ exceptionTable ∨ ∃ i r, s.registered i = some r ∧ r.toExRecord = e

/-- The fault resumes at a handler listed for it, or is unhandled and none is listed. -/
def Exceptions.Answers (s : Exceptions w) (exceptionTable : List (ExRecord w)) (regs : ExRegs w)
    (outcome : Outcome w) : Prop :=
  (∃ e, s.Lists exceptionTable e ∧ e.rip = regs.rip ∧
      outcome = .resumed { regs with rip := e.handler }) ∨
    (∀ e, s.Lists exceptionTable e → e.rip ≠ regs.rip) ∧ outcome = .unhandled regs

variable {s : Exceptions w} {exceptionTable : List (ExRecord w)} {regs : ExRegs w}

theorem Exceptions.Sound.table_of_some (h : s.Sound) {i : Fin 32} {r : Registration w}
    (hr : s.registered i = some r) : s.table i = r.toExRecord := by
  rw [h i, hr]
  rfl

theorem Exceptions.Sound.table_of_none (h : s.Sound) {i : Fin 32} (hr : s.registered i = none) :
    s.table i = ⟨0, 0⟩ := by
  rw [h i, hr]
  rfl

theorem Exceptions.Sound.cases (h : s.Sound) (i : Fin 32) :
    (∃ r, s.registered i = some r ∧ s.table i = r.toExRecord) ∨
      s.registered i = none ∧ s.table i = ⟨0, 0⟩ := by
  cases hr : s.registered i with
  | some r => exact Or.inl ⟨r, rfl, h.table_of_some hr⟩
  | none => exact Or.inr ⟨rfl, h.table_of_none hr⟩

theorem Exceptions.Lists.static {e : ExRecord w} (h : s.Lists exceptionTable e) (hrip : e.rip = 0) :
    e ∈ exceptionTable := by
  rcases h with hstatic | ⟨i, r, -, rfl⟩
  · exact hstatic
  · exact absurd hrip r.rip_ne_zero

/-- The runtime slots answer a fault that the static table does not list, unless it is at zero and
    a slot is cleared. -/
theorem Exceptions.Sound.answers_iff (h : s.Sound)
    (hstatic : ∀ e ∈ exceptionTable, e.rip ≠ regs.rip) :
    s.Answers exceptionTable regs
        (match (List.finRange 32).find? fun i => (s.table i).rip = regs.rip with
        | some i => .resumed { regs with rip := (s.table i).handler }
        | none => .unhandled regs) ↔
      regs.rip ≠ 0 ∨ ∀ i, (s.registered i).isSome := by
  cases hfind : (List.finRange 32).find? fun i => (s.table i).rip = regs.rip with
  | some i =>
      have hrip : (s.table i).rip = regs.rip := by simpa using List.find?_some hfind
      rcases h.cases i with ⟨r, hr, htable⟩ | ⟨hr, htable⟩
      · dsimp only
        rw [htable] at hrip ⊢
        exact iff_of_true (Or.inl ⟨r.toExRecord, Or.inr ⟨i, r, hr, rfl⟩, hrip, rfl⟩)
          (Or.inl (hrip ▸ r.rip_ne_zero))
      · -- the fault is at zero and found a cleared slot
        have hzero : regs.rip = 0 := by rw [← hrip, htable]
        refine iff_of_false ?_ ?_
        · rintro (⟨e, hlists, he, -⟩ | ⟨-, hunhandled⟩)
          · exact hstatic e (hlists.static (he.trans hzero)) he
          · cases hunhandled
        · rintro (hne | hall)
          · exact hne hzero
          · exact absurd (hall i) (by rw [hr]; exact Bool.false_ne_true)
  | none =>
      have hnone : ∀ i, (s.table i).rip ≠ regs.rip := by
        intro i
        simpa using List.find?_eq_none.mp hfind i (List.mem_finRange i)
      refine iff_of_true (Or.inr ⟨?_, rfl⟩) ?_
      · rintro e (he | ⟨i, r, hr, rfl⟩)
        · exact hstatic e he
        · exact h.table_of_some hr ▸ hnone i
      · by_cases hzero : regs.rip = 0
        · refine Or.inr fun i => ?_
          rcases h.cases i with ⟨r, hr, -⟩ | ⟨-, htable⟩
          · rw [hr]
            rfl
          · exact absurd (by rw [htable, hzero]) (hnone i)
        · exact Or.inl hzero

/-- Where a fault at `rip` goes on: at the handler of the first record for that address in the
    static table, or else of the first one that is registered. Address zero finds a cleared slot,
    and goes on at zero. -/
def Exceptions.Fixup (s : Exceptions w) (exceptionTable : List (ExRecord w))
    (rip target : BitVec w) : Prop :=
  (∃ before after, exceptionTable = before ++ ⟨rip, target⟩ :: after ∧
    ∀ ex ∈ before, ex.rip ≠ rip) ∨
  (∀ ex ∈ exceptionTable, ex.rip ≠ rip) ∧
    ((∃ i r, s.registered i = some r ∧ r.toExRecord = ⟨rip, target⟩ ∧
        ∀ j < i, ∀ q, s.registered j = some q → q.rip ≠ rip) ∨
      (∃ i, s.registered i = none) ∧ rip = 0 ∧ target = 0)

theorem find?_slots_eq_some_iff {p : Fin 32 → Bool} {i : Fin 32} :
    (List.finRange 32).find? p = some i ↔ p i = true ∧ ∀ j < i, p j = false := by
  rw [← Fin.find?_eq_find?_finRange, Fin.find?_eq_some_iff]

theorem Exceptions.Sound.find?_slot_iff (h : s.Sound) {rip target : BitVec w} :
    (∃ i, (List.finRange 32).find? (fun i => (s.table i).rip = rip) = some i ∧
        (s.table i).handler = target) ↔
      (∃ i r, s.registered i = some r ∧ r.toExRecord = ⟨rip, target⟩ ∧
          ∀ j < i, ∀ q, s.registered j = some q → q.rip ≠ rip) ∨
        (∃ i, s.registered i = none) ∧ rip = 0 ∧ target = 0 := by
  constructor
  · rintro ⟨i, hfind, hhandler⟩
    obtain ⟨hi, hbefore⟩ := find?_slots_eq_some_iff.mp hfind
    have hrip : (s.table i).rip = rip := of_decide_eq_true hi
    rcases h.cases i with ⟨r, hr, htable⟩ | ⟨hr, htable⟩
    · refine Or.inl ⟨i, r, hr, ?_, fun j hj q hq => ?_⟩
      · rw [← htable, ← hrip, ← hhandler]
      · have hslot := of_decide_eq_false (hbefore j hj)
        rwa [h.table_of_some hq] at hslot
    · rw [htable] at hrip hhandler
      exact Or.inr ⟨⟨i, hr⟩, hrip.symm, hhandler.symm⟩
  · rintro (⟨i, r, hr, hrecord, hbefore⟩ | ⟨⟨i, hi⟩, rfl, rfl⟩)
    · have htable : s.table i = ⟨rip, target⟩ := (h.table_of_some hr).trans hrecord
      have hne : rip ≠ 0 := by
        have hrip : r.rip = rip := congrArg ExRecord.rip hrecord
        exact hrip ▸ r.rip_ne_zero
      refine ⟨i, find?_slots_eq_some_iff.mpr ⟨decide_eq_true (by rw [htable]), fun j hj => ?_⟩,
        by rw [htable]⟩
      refine decide_eq_false ?_
      rcases h.cases j with ⟨q, hq, htable'⟩ | ⟨-, htable'⟩
      · rw [htable']
        exact hbefore j hj q hq
      · rw [htable']
        exact hne.symm
    · -- the first slot at zero is a cleared one too, as no registered address is zero
      have hsome : ((List.finRange 32).find? fun i => (s.table i).rip = 0).isSome := by
        rw [List.find?_isSome]
        refine ⟨i, List.mem_finRange i, decide_eq_true ?_⟩
        rw [h.table_of_none hi]
      obtain ⟨k, hk⟩ := Option.isSome_iff_exists.mp hsome
      have hzero : (s.table k).rip = 0 := of_decide_eq_true (find?_slots_eq_some_iff.mp hk).1
      refine ⟨k, hk, ?_⟩
      rcases h.cases k with ⟨r, -, htable⟩ | ⟨-, htable⟩
      · rw [htable] at hzero
        exact absurd hzero r.rip_ne_zero
      · rw [htable]

/-- `check_exception_table` goes on where the fixup says. -/
theorem Exceptions.Sound.resumed_iff (h : s.Sound) {target : BitVec w} :
    (checkExceptionTable exceptionTable s.table regs).2 = .resumed { regs with rip := target } ↔
      s.Fixup exceptionTable regs.rip target := by
  unfold checkExceptionTable Exceptions.Fixup
  dsimp only
  cases hfind : exceptionTable.find? fun ex => ex.rip = regs.rip with
  | some ex =>
      obtain ⟨hex, before, after, hsplit, hbefore⟩ := List.find?_eq_some_iff_append.mp hfind
      have hrip : ex.rip = regs.rip := of_decide_eq_true hex
      have hother : ¬ ∀ ex ∈ exceptionTable, ex.rip ≠ regs.rip := fun hnone =>
        hnone ex (List.mem_of_find?_eq_some hfind) hrip
      rw [or_iff_left fun hslots => hother hslots.1]
      constructor
      · intro heq
        have htarget : ex.handler = target := congrArg ExRegs.rip (Outcome.resumed.inj heq)
        refine ⟨before, after, ?_, fun b hb => ?_⟩
        · rw [hsplit, ← hrip, ← htarget]
        · simpa using hbefore b hb
      · rintro ⟨before', after', hsplit', hbefore'⟩
        have hfind' : exceptionTable.find? (fun ex => ex.rip = regs.rip) =
            some ⟨regs.rip, target⟩ :=
          List.find?_eq_some_iff_append.mpr ⟨decide_eq_true rfl, before', after', hsplit',
            fun b hb => by simpa using hbefore' b hb⟩
        obtain rfl := Option.some.inj (hfind.symm.trans hfind')
        rfl
  | none =>
      have hstatic : ∀ ex ∈ exceptionTable, ex.rip ≠ regs.rip := by
        intro ex hex
        simpa using List.find?_eq_none.mp hfind ex hex
      have hother : ¬ ∃ before after, exceptionTable = before ++ ⟨regs.rip, target⟩ :: after ∧
          ∀ ex ∈ before, ex.rip ≠ regs.rip := by
        rintro ⟨before, after, hsplit, -⟩
        exact hstatic ⟨regs.rip, target⟩ (by rw [hsplit]; simp) rfl
      rw [or_iff_right hother, and_iff_right hstatic, ← h.find?_slot_iff]
      cases (List.finRange 32).find? fun i => (s.table i).rip = regs.rip with
      | some i => simp
      | none => simp

/-- After every sequence of calls a fault is answered as the tables list it, except at address zero
    while the static table does not list zero and a runtime slot is cleared. -/
theorem checkExceptionTable_answers_iff (exceptionTable : List (ExRecord w))
    (calls : List (ExceptionCall w)) (regs : ExRegs w) :
    (Exceptions.after calls).Answers exceptionTable regs
        (checkExceptionTable exceptionTable (Exceptions.after calls).table regs).2 ↔
      regs.rip ≠ 0 ∨ (∃ e ∈ exceptionTable, e.rip = regs.rip) ∨
        ∀ i, ((Exceptions.after calls).registered i).isSome := by
  unfold checkExceptionTable
  cases hfind : exceptionTable.find? fun ex => ex.rip = regs.rip with
  | some ex =>
      have hmem := List.mem_of_find?_eq_some hfind
      have hrip : ex.rip = regs.rip := by simpa using List.find?_some hfind
      exact iff_of_true (Or.inl ⟨ex, Or.inl hmem, hrip, rfl⟩) (Or.inr (Or.inl ⟨ex, hmem, hrip⟩))
  | none =>
      have hstatic : ∀ e ∈ exceptionTable, e.rip ≠ regs.rip := by
        intro e he
        simpa using List.find?_eq_none.mp hfind e he
      have hlisted : ¬∃ e ∈ exceptionTable, e.rip = regs.rip := by
        rintro ⟨e, he, hrip⟩
        exact hstatic e he hrip
      rw [or_iff_right hlisted]
      exact (Exceptions.sound_after calls).answers_iff hstatic

/-- A fault at address zero, before anything was registered, resumes at address zero. -/
theorem checkExceptionTable_resumes_at_zero :
    ¬(Exceptions.after []).Answers [] (⟨14, 0, 0, 2⟩ : ExRegs 64)
      (checkExceptionTable [] (Exceptions.after []).table (⟨14, 0, 0, 2⟩ : ExRegs 64)).2 ∧
    (checkExceptionTable [] (Exceptions.after []).table (⟨14, 0, 0, 2⟩ : ExRegs 64)).2
      = .resumed ⟨14, 0, 0, 2⟩ := by
  have hrun : (checkExceptionTable [] (Exceptions.after []).table (⟨14, 0, 0, 2⟩ : ExRegs 64)).2
      = .resumed ⟨14, 0, 0, 2⟩ := by decide
  refine ⟨?_, hrun⟩
  rw [hrun]
  rintro (⟨e, hlists, -, -⟩ | ⟨-, hunhandled⟩)
  · rcases hlists with hstatic | ⟨i, r, hr, -⟩
    · cases hstatic
    · cases hr
  · cases hunhandled

end AcrnGuest
