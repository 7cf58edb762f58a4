import AcrnGuest.Report
import AcrnGuest.StoreBufferLock

/-!
# Reports from several processors (`lib/report.c`, `lib/asm-generic/spinlock.h`)

The counters of the results are shared by all processors and incremented with plain
instructions. They are protected by a spin lock that is taken with an exchange and given
back with a plain store. On processors with store buffers this is enough: in every
interleaving the counters end as if the calls had been made one after the other, those of
each processor in their order (`reports_counted`).
-/

namespace AcrnGuest.ReportLock

open Tso

/-! ### The source -/

/-- The variables of `lib/report.c`, and everything else in the memory. -/
inductive Loc
  | lock
  | tests
  | failures
  | xfailures
  | skipped
  | elsewhere (address : Nat)
deriving DecidableEq

abbrev Code := List (Instr Nat Loc (BitVec 32))

/-- `spin_lock` exchanges the lock with 1 until the old value is 0, and `spin_unlock` stores
    0. -/
def spinlock : Lock Loc (BitVec 32) := ⟨.lock, 0#32, 1#32, by decide⟩

def increment (x : Loc) : Code := [.load 0 x, .addReg 0 1#32, .store x (.reg 0)]

/-- The counters in `va_report`; what it prints is left out. -/
def vaReportCode (pass xfail skip : Bool) : Code :=
  increment .tests ++
    (if skip then increment .skipped
    else if xfail && !pass then increment .xfailures
    else if xfail || !pass then increment .failures
    else [])

/-- What the call does while it holds the lock. -/
def criticalSection : ReportCall → Code
  | .report pass => vaReportCode pass false false
  | .reportXfail xfail pass => vaReportCode pass xfail false
  | .reportSkip => vaReportCode false false true
  | .reportPass => increment .tests

/-- The code of a processor between and in the calls. -/
inductive Item
  | call (c : ReportCall)
  | code (instrs : Code)

def Item.segment : Item → Segment Nat Loc (BitVec 32)
  | .call c => .critical (criticalSection c)
  | .code instrs => .other instrs

def Item.call? : Item → Option ReportCall
  | .call c => some c
  | .code _ => none

def Private : Loc → Prop
  | .elsewhere _ => True
  | _ => False

/-- The other code does not store to the variables of `lib/report.c`. -/
def Item.LeavesReport : Item → Prop
  | .call _ => True
  | .code instrs => ∀ i ∈ instrs, i.StoresIn Private

def tally (m : Loc → BitVec 32) : Tally := ⟨m .tests, m .failures, m .xfailures, m .skipped⟩

/-! ### One call -/

theorem alone_increment {Q : (Loc → BitVec 32) → (Nat → BitVec 32) → Prop} {x : Loc} (rest : Code)
    {v : Loc → BitVec 32} {ρ : Nat → BitVec 32}
    (h : ∀ ρ', Alone Q rest (Function.update v x (v x + 1#32)) ρ') :
    Alone Q (increment x ++ rest) v ρ := by
  have hx : (Operand.reg 0 : Operand Nat (BitVec 32)).eval
      (Function.update (Function.update ρ 0 (v x)) 0 (Function.update ρ 0 (v x) 0 + 1#32)) =
      v x + 1#32 := by
    simp [Operand.eval]
  have := h (Function.update (Function.update ρ 0 (v x)) 0 (Function.update ρ 0 (v x) 0 + 1#32))
  rw [← hx] at this
  exact this

/-- A call, run alone, counts itself. -/
theorem alone_criticalSection {Q : (Loc → BitVec 32) → Prop} {c : ReportCall}
    {v : Loc → BitVec 32} {ρ : Nat → BitVec 32}
    (h : ∀ v', tally v' = c.run (tally v) → Q v') :
    Alone (fun v' _ => Q v') (criticalSection c) v ρ := by
  cases c with
  | report pass =>
    cases pass with
    | true => exact alone_increment _ fun _ => h _ rfl
    | false => exact alone_increment _ fun _ => alone_increment [] fun _ => h _ rfl
  | reportXfail xfail pass =>
    cases xfail with
    | true =>
      cases pass <;>
        exact alone_increment _ fun _ => alone_increment [] fun _ => h _ rfl
    | false =>
      cases pass with
      | true => exact alone_increment _ fun _ => h _ rfl
      | false => exact alone_increment _ fun _ => alone_increment [] fun _ => h _ rfl
  | reportSkip => exact alone_increment _ fun _ => alone_increment [] fun _ => h _ rfl
  | reportPass => exact alone_increment [] fun _ => h _ rfl

/-! ### All calls -/

section Runs

variable {P : Type} [DecidableEq P] (items : P → List Item)

def calls (p : P) : List ReportCall := (items p).filterMap Item.call?

def callsOf (history : List (P × ReportCall)) (p : P) : List ReportCall :=
  (history.filter fun e => e.1 = p).map Prod.snd

/-- The counters are those after some history of calls, which has a first part of the calls of
    every processor; the sections of the others are still to come. -/
def Counted (todo : P → List Code) (m : Loc → BitVec 32) : Prop :=
  ∃ history : List (P × ReportCall),
    (∀ p, ∃ rest, callsOf history p ++ rest = calls items p ∧ todo p = rest.map criticalSection) ∧
    tally m = (history.map Prod.snd).foldl ReportCall.run ⟨0#32, 0#32, 0#32, 0#32⟩

theorem callsOf_append (history : List (P × ReportCall)) (p q : P) (c : ReportCall) :
    callsOf (history ++ [(p, c)]) q = callsOf history q ++ if p = q then [c] else [] := by
  by_cases h : p = q <;> simp [callsOf, h]

theorem Counted.next {items : P → List Item} {todo : P → List Code} {m : Loc → BitVec 32} {p : P}
    {body : Code} {rest : List Code} (h : Counted items todo m) (htodo : todo p = body :: rest) :
    ∃ c, body = criticalSection c ∧ ∀ m', tally m' = c.run (tally m) →
      Counted items (Function.update todo p rest) m' := by
  obtain ⟨history, hcalls, htally⟩ := h
  obtain ⟨r, hr, htodo'⟩ := hcalls p
  rw [htodo] at htodo'
  cases r with
  | nil => cases htodo'
  | cons c r =>
    obtain ⟨rfl, rfl⟩ := List.cons.inj htodo'
    refine ⟨c, rfl, fun m' hm' => ⟨history ++ [(p, c)], fun q => ?_, ?_⟩⟩
    · rw [callsOf_append]
      by_cases hq : p = q
      · subst hq
        refine ⟨r, ?_, Function.update_self ..⟩
        rw [if_pos rfl, List.append_assoc]
        exact hr
      · obtain ⟨rq, hrq, htodoq⟩ := hcalls q
        refine ⟨rq, ?_, ?_⟩
        · rw [if_neg hq, List.append_nil]
          exact hrq
        · rw [Function.update_of_ne (Ne.symm hq)]
          exact htodoq
    · rw [hm', htally]
      simp

theorem criticalSection_loads (c : ReportCall) : ∀ i ∈ criticalSection c,
    (i.LoadsIn fun l => ¬ Private l) ∧ i.Steady spinlock.loc spinlock.taken := by
  have hinc : ∀ x, ¬ Private x → x ≠ .lock → ∀ i ∈ increment x,
      (i.LoadsIn fun l => ¬ Private l) ∧ i.Steady spinlock.loc spinlock.taken := by
    intro x hx hlock
    simp [increment, Instr.LoadsIn, Instr.Steady, hx, spinlock, hlock]
  have htests := hinc .tests id (by decide)
  have hreport : ∀ pass xfail skip, ∀ i ∈ vaReportCode pass xfail skip,
      (i.LoadsIn fun l => ¬ Private l) ∧ i.Steady spinlock.loc spinlock.taken := by
    intro pass xfail skip i hi
    rcases List.mem_append.mp hi with hi | hi
    · exact htests i hi
    · split at hi
      · exact hinc .skipped id (by decide) i hi
      · split at hi
        · exact hinc .xfailures id (by decide) i hi
        · split at hi
          · exact hinc .failures id (by decide) i hi
          · cases hi
  cases c with
  | report pass => exact hreport pass false false
  | reportXfail xfail pass => exact hreport pass xfail false
  | reportSkip => exact hreport false false true
  | reportPass => exact htests

/-- The lock protects the counters. -/
theorem counted_protected : Protected spinlock Private (Counted items) where
  lock_shared := id
  local_of todo m m' hm h := by
    obtain ⟨history, hcalls, htally⟩ := h
    refine ⟨history, hcalls, ?_⟩
    rw [← htally, tally, tally, hm .tests id (by decide), hm .failures id (by decide),
      hm .xfailures id (by decide), hm .skipped id (by decide)]
  keeps todo p body rest v ρ htodo h := by
    obtain ⟨c, rfl, hnext⟩ := h.next htodo
    exact alone_criticalSection hnext
  loads todo p body rest v htodo h := by
    obtain ⟨c, rfl, -⟩ := h.next htodo
    exact criticalSection_loads c

/-- The processors run their items once, on memory with processor ordering. -/
def setting (left : BitVec 32 → Prop) : Setting P Nat Loc (BitVec 32) where
  order := .processor
  left := left
  loop _ := []

/-- The counters and the lock are 0 and nobody has begun. -/
structure Begins (s : Tso.Machine P Nat Loc (BitVec 32)) : Prop where
  lock : s.mem .lock = 0#32
  counters : tally s.mem = ⟨0#32, 0#32, 0#32, 0#32⟩
  code : ∀ p, (s.cpu p).code = program spinlock ((items p).map Item.segment)
  buf : ∀ p, (s.cpu p).buf = []

variable {items}

theorem sections_map_segment (l : List Item) :
    sections (l.map Item.segment) = (l.filterMap Item.call?).map criticalSection := by
  induction l with
  | nil => rfl
  | cons i l ih =>
    cases i with
    | call c => exact congrArg (criticalSection c :: ·) ih
    | code instrs => exact ih

theorem Begins.mutex (hitems : ∀ p, ∀ i ∈ items p, i.LeavesReport)
    {s : Tso.Machine P Nat Loc (BitVec 32)} (h : Begins items s) :
    Mutex spinlock Private (Counted items) s := by
  refine .free (fun p => (calls items p).map criticalSection) h.lock ?_ fun p => ⟨?_, ?_⟩
  · refine ⟨[], fun p => ⟨calls items p, rfl, rfl⟩, h.counters⟩
  · refine ⟨[], (items p).map Item.segment, ?_, by simp, fun c hc => ?_, sections_map_segment _⟩
    · exact h.code p
    · obtain ⟨i, hi, hseg⟩ := List.mem_map.mp hc
      cases i with
      | call c => cases hseg
      | code instrs =>
        obtain rfl := Segment.other.inj hseg
        exact hitems p _ hi
  · rw [h.buf p]
    simp

/-- Whatever else the processors do and however their steps interleave, when they have
    finished the counters are those of one history of all calls, in which the calls of each
    processor stand in their order. -/
theorem reports_counted (hitems : ∀ p, ∀ i ∈ items p, i.LeavesReport) {left : BitVec 32 → Prop}
    {s₀ s : Tso.Machine P Nat Loc (BitVec 32)} (h₀ : Begins items s₀)
    (hreach : (setting left).Reach s₀ s)
    (hdone : ∀ p, (s.cpu p).code = [] ∧ (s.cpu p).buf = []) :
    ∃ history : List (P × ReportCall), (∀ p, callsOf history p = calls items p) ∧
      tally s.mem = (history.map Prod.snd).foldl ReportCall.run ⟨0#32, 0#32, 0#32, 0#32⟩ := by
  have hend :=
    ((h₀.mutex hitems).reach (counted_protected items) rfl (fun _ => rfl) hreach).finished
    hdone
  obtain ⟨history, hcalls, htally⟩ := hend
  refine ⟨history, fun p => ?_, htally⟩
  obtain ⟨rest, hrest, hnil⟩ := hcalls p
  obtain rfl := List.map_eq_nil_iff.mp hnil.symm
  rw [← hrest, List.append_nil]

def twoReporters : Bool → List Item
  | false => [.call (.report true)]
  | true => [.code [.store (.elsewhere 0) (.imm 5#32)], .call (.report false)]

def twoBegin : Tso.Machine Bool Nat Loc (BitVec 32) :=
  ⟨fun _ => 0#32, fun p => ⟨program spinlock ((twoReporters p).map Item.segment),
    fun _ => 0#32, []⟩⟩

/-- The second processor finds the lock taken once. -/
def twoMoves : List (Bool × Move (BitVec 32)) :=
  [(false, .issue 0#32), (true, .issue 0#32), (false, .issue 0#32), (true, .drain),
    (true, .issue 0#32), (false, .issue 0#32), (false, .issue 0#32), (false, .issue 0#32),
    (false, .drain), (false, .drain)] ++ List.replicate 8 (true, .issue 0#32) ++
    List.replicate 3 (true, .drain)

theorem reports_counted_two : ∃ s, twoBegin.run .processor (fun _ => []) twoMoves = some s ∧
    ∃ history : List (Bool × ReportCall), (∀ p, callsOf history p = calls twoReporters p) ∧
      tally s.mem = (history.map Prod.snd).foldl ReportCall.run ⟨0#32, 0#32, 0#32, 0#32⟩ := by
  have hend : (twoBegin.run .processor (fun _ => []) twoMoves).map (fun s =>
      [(s.cpu false).code.isEmpty, (s.cpu false).buf.isEmpty, (s.cpu true).code.isEmpty,
        (s.cpu true).buf.isEmpty]) = some [true, true, true, true] := by decide +kernel
  obtain ⟨s, hrun, hs⟩ := Option.map_eq_some_iff.mp hend
  simp only [List.cons.injEq, List.isEmpty_iff, and_true] at hs
  have hreach : (setting fun _ => True).Reach twoBegin s :=
    Setting.reach_of_run (fun _ _ _ _ => trivial) hrun
  refine ⟨s, hrun, reports_counted (fun p i hi => ?_) ⟨rfl, rfl, fun _ => rfl, fun _ => rfl⟩ hreach
    fun p => ?_⟩
  · cases p with
    | false =>
      obtain rfl := List.mem_singleton.mp hi
      trivial
    | true =>
      rcases List.mem_pair.mp hi with rfl | rfl
      · simp [Item.LeavesReport, Instr.StoresIn, Private]
      · trivial
  · cases p with
    | false => exact ⟨hs.1, hs.2.1⟩
    | true => exact ⟨hs.2.2.1, hs.2.2.2⟩

end Runs

end AcrnGuest.ReportLock
