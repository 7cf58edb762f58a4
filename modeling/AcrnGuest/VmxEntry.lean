import AcrnGuest.Memory

/-!
# Entering the guest (`vmx_enter_guest`, `vmx_run`, `enter_guest`)

The processor, the guest and the handlers of a test are the environment: how an
attempt to enter the guest goes, what a handler returns and which calls of
`enter_guest` it makes are inputs of a run. The state keeps the record of all
attempts, so that a property of a run is a property of this record.

The assembly of `vmx_enter_guest` means to set `failure->early` when the
instruction falls through, but writes to `failure->flags` a second time. Hence an
early failure is seen only if the exit reason, which it leaves alone, happens to
hold the failure bit of an earlier entry.
-/

namespace AcrnGuest

/-! ### The source -/

def VMX_ENTRY_FAILURE : Word := 1#64 <<< 31
def VMX_VMCALL : Word := 18#64
def HYPERCALL_BIT : Word := 1#64 <<< 12
def HYPERCALL_MASK : Word := 0xfff#64
def HYPERCALL_VMEXIT : Word := 1#64
def HYPERCALL_VMABORT : Word := 2#64
def HYPERCALL_VMSKIP : Word := 3#64
def VMX_TEST_VMEXIT : BitVec 32 := 1#32
def VMX_TEST_EXIT : BitVec 32 := 2#32
def VMX_TEST_RESUME : BitVec 32 := 3#32
def VMX_TEST_VMABORT : BitVec 32 := 4#32
def VMX_TEST_VMSKIP : BitVec 32 := 5#32

/-- The test `vmcs_read(EXI_REASON) & VMX_ENTRY_FAILURE`. -/
def entryFailure (reason : BitVec 32) : Bool := reason.setWidth 64 &&& VMX_ENTRY_FAILURE ≠ 0#64

/-- How the processor carries out `vmlaunch` or `vmresume`. -/
inductive EntryOutcome
  /-- The guest runs and exits with a reason; it leaves `hypercall_field` and its flags. -/
  | success (reason : { r : BitVec 32 // entryFailure r = false }) (hypercallField rflags : Word)
  /-- Execution falls through to the next instruction, with the host flags. -/
  | early (rflags : Word)
  /-- The exit reason reports the failure. -/
  | failed (reason : { r : BitVec 32 // entryFailure r = true })
deriving DecidableEq

def EntryOutcome.isSuccess : EntryOutcome → Bool
  | .success .. => true
  | _ => false

def EntryOutcome.isEarly : EntryOutcome → Bool
  | .early _ => true
  | _ => false

inductive EntryInstr
  | vmlaunch
  | vmresume
deriving DecidableEq

/-- The record of one attempt: the instruction, the launch state of the VMCS and the
    exit reason before it, the outcome, and what `vmx_enter_guest` returned. -/
structure Entry where
  instr : EntryInstr
  vmcsLaunched : Bool
  oldReason : BitVec 32
  outcome : EntryOutcome
  returned : Bool
deriving DecidableEq

structure VmentryFailure where
  vmlaunch : Bool
  instr : String
  early : Bool
  flags : Word
deriving DecidableEq

structure Vmx where
  launched : Bool
  inGuest : Bool
  guestFinished : Bool
  v2GuestMain : Bool
  hypercallField : Word
  exits : BitVec 32
  regsRflags : Word
  -- fields and launch state of the current VMCS
  exiReason : BitVec 32
  guestRflags : Word
  vmcsLaunched : Bool
  entries : List Entry

/-- The assembly of `vmx_enter_guest`. After an early failure the second write to the
    flags replaces their lower half; `early` is not written. -/
def vmEntry (s : Vmx) (failure : VmentryFailure) : EntryOutcome → VmentryFailure × Vmx
  | .success reason hypercallField rflags =>
      (failure, { s with exiReason := reason.1, hypercallField := hypercallField,
                         guestRflags := rflags, vmcsLaunched := true })
  | .early rflags => ({ failure with flags := (rflags &&& ~~~ 0xffffffff#64) ||| 1#64 }, s)
  | .failed reason => (failure, { s with exiReason := reason.1 })

def vmxEnterGuest (s : Vmx) (failure : VmentryFailure) (outcome : EntryOutcome) :
    Bool × VmentryFailure × Vmx :=
  let failure := { failure with early := false }
  let after := vmEntry { s with inGuest := true } failure outcome
  let failure := { after.1 with vmlaunch := !s.launched,
                                instr := if s.launched then "vmresume" else "vmlaunch" }
  let returned := !failure.early && !entryFailure after.2.exiReason
  let entry : Entry :=
    { instr := if s.launched then .vmresume else .vmlaunch
      vmcsLaunched := s.vmcsLaunched
      oldReason := s.exiReason
      outcome := outcome
      returned := returned }
  (returned, failure, { after.2 with inGuest := false, entries := entry :: s.entries })

/-- `abort()`, and `longjmp(abort_target, 1)` back into `test_run`. -/
inductive Ended
  | aborted
  | jumped
deriving DecidableEq

def isHypercall (s : Vmx) : Bool :=
  s.exiReason.setWidth 64 &&& 0xff#64 = VMX_VMCALL && s.hypercallField &&& HYPERCALL_BIT ≠ 0#64

def handleHypercall (s : Vmx) : BitVec 32 × Vmx :=
  let hypercallNo := s.hypercallField &&& HYPERCALL_MASK
  let s := { s with hypercallField := 0#64 }
  if hypercallNo = HYPERCALL_VMEXIT then (VMX_TEST_VMEXIT, s)
  else if hypercallNo = HYPERCALL_VMABORT then (VMX_TEST_VMABORT, s)
  else if hypercallNo = HYPERCALL_VMSKIP then (VMX_TEST_VMSKIP, s)
  else (VMX_TEST_EXIT, s)

/-- `__abort_test`, `continue_abort` and `continue_skip` jump from the host only. -/
def abortTest (s : Vmx) : Ended := if s.inGuest then .aborted else .jumped

/-- An attempt to enter the guest and the contents of the uninitialised `failure`. -/
structure Attempt where
  outcome : EntryOutcome
  stack : VmentryFailure

def enterGuest (s : Vmx) (attempt : Attempt) : Except Ended Unit × Vmx :=
  if s.v2GuestMain = false then (.error (abortTest s), s)
  else if s.guestFinished then (.error (abortTest s), s)
  else
    let entered := vmxEnterGuest s attempt.stack attempt.outcome
    if entered.1 = false then (.error .aborted, entered.2.2)
    else
      let s := { entered.2.2 with launched := true }
      if isHypercall s then
        let handled := handleHypercall s
        let s := handled.2
        if handled.1 = VMX_TEST_VMEXIT then (.ok (), { s with guestFinished := true })
        else if handled.1 = VMX_TEST_VMABORT then (.error (abortTest s), s)
        else if handled.1 = VMX_TEST_VMSKIP then (.error (abortTest s), s)
        else (.error .aborted, s)
      else (.ok (), s)

/-- What a handler of the test does: it may call `enter_guest`, it leaves flags in
    `regs` and returns a value. -/
structure HandlerRun where
  entries : List Attempt
  rflags : Word
  ret : BitVec 32

def HandlerRun.run (h : HandlerRun) (s : Vmx) : Except Ended (BitVec 32) × Vmx :=
  go s h.entries
where
  go (s : Vmx) : List Attempt → Except Ended (BitVec 32) × Vmx
    | [] => (.ok h.ret, { s with regsRflags := h.rflags })
    | a :: as =>
        match enterGuest s a with
        | (.ok _, s') => go s' as
        | (.error e, s') => (.error e, s')

def exitHandler (s : Vmx) (current : HandlerRun) : Except Ended (BitVec 32) × Vmx :=
  let s := { s with exits := s.exits + 1, regsRflags := s.guestRflags }
  let handled : Except Ended (BitVec 32) × Vmx :=
    if isHypercall s then
      let handled := handleHypercall s
      (.ok handled.1, handled.2)
    else current.run s
  match handled with
  | (.error e, s) => (.error e, s)
  | (.ok ret, s) => (.ok ret, { s with guestRflags := s.regsRflags })

/-- `none` is the null pointer. -/
def entryFailureHandler (s : Vmx) : Option HandlerRun → Except Ended (BitVec 32) × Vmx
  | some handler => handler.run s
  | none => (.ok VMX_TEST_EXIT, s)

/-- The inputs of one iteration of `vmx_run`. -/
structure Iteration where
  attempt : Attempt
  exitHandler : HandlerRun
  entryFailureHandler : Option HandlerRun

/-- One iteration of `vmx_run`; `none` continues the loop. -/
def vmxRunStep (s : Vmx) (i : Iteration) : Option (Except Ended Unit) × Vmx :=
  let entered := vmxEnterGuest s i.attempt.stack i.attempt.outcome
  let handled :=
    if entered.1 then exitHandler { entered.2.2 with launched := true } i.exitHandler
    else entryFailureHandler entered.2.2 i.entryFailureHandler
  match handled with
  | (.error e, s) => (some (.error e), s)
  | (.ok ret, s) =>
      if ret = VMX_TEST_RESUME then (none, s)
      else if ret = VMX_TEST_VMEXIT then (some (.ok ()), { s with guestFinished := true })
      else (some (.error .aborted), s)

/-- `vmx_run`, as far as the inputs last; `none` means that it is still running. -/
def vmxRun (s : Vmx) : List Iteration → Option (Except Ended Unit) × Vmx
  | [] => (none, s)
  | i :: is =>
      match vmxRunStep s i with
      | (none, s') => vmxRun s' is
      | (some r, s') => (some r, s')

/-- What `test_run` hands to `vmx_run`: a cleared VMCS whose exit reason is not written
    yet, and the flags of `guest_regs`. -/
def testStart (s : Vmx) (exiReason : BitVec 32) (rflags : Word) : Vmx :=
  { s with launched := false, guestFinished := false, v2GuestMain := false, exits := 0#32,
           regsRflags := rflags, exiReason := exiReason, guestRflags := rflags ||| 2#64,
           vmcsLaunched := false, entries := [] }

/-- The calls that host code makes during a test. -/
inductive HostCall
  | testSetGuest
  | vmxRun (is : List Iteration)
  | enterGuest (attempt : Attempt)

/-- One call; `none` if it does not return. -/
def HostCall.exec (s : Vmx) : HostCall → Option (Except Ended Unit) × Vmx
  | .testSetGuest =>
      if s.v2GuestMain then (some (.error (abortTest s)), s)
      else (some (.ok ()), { s with v2GuestMain := true })
  | .vmxRun is => AcrnGuest.vmxRun s is
  | .enterGuest attempt => let r := AcrnGuest.enterGuest s attempt; (some r.1, r.2)

/-- A sequence of calls, up to the first one that does not return normally. -/
def hostRun (s : Vmx) : List HostCall → Vmx
  | [] => s
  | c :: cs =>
      match c.exec s with
      | (some (.ok _), s') => hostRun s' cs
      | (_, s') => s'

/-! ### Sound runs -/

/-- `vmx_enter_guest` told the truth, and `vmresume` met a launched VMCS. -/
def Entry.Right (e : Entry) : Prop :=
  (e.returned = true ↔ e.outcome.isSuccess = true) ∧ (e.instr = .vmresume → e.vmcsLaunched = true)

/-- An early failure is visible: the exit reason still reports an earlier failure. -/
def Entry.Visible (e : Entry) : Prop :=
  e.outcome.isEarly = true → entryFailure e.oldReason = true

instance (e : Entry) : Decidable e.Visible :=
  inferInstanceAs (Decidable (e.outcome.isEarly = true → entryFailure e.oldReason = true))

/-- The record is right, and `launched` is backed by a launched VMCS and an entry that
    succeeded. Only these three parts of the state matter. -/
structure Backed (launched vmcsLaunched : Bool) (entries : List Entry) : Prop where
  right : ∀ e ∈ entries, e.Right
  vmcs : launched = true → vmcsLaunched = true
  entered : launched = true → ∃ e ∈ entries, e.outcome.isSuccess = true

/-- The state is backed as long as every early failure was visible. -/
def Vmx.Sound (s : Vmx) : Prop :=
  (∀ e ∈ s.entries, e.Visible) → Backed s.launched s.vmcsLaunched s.entries

/-- **The answer of `vmx_enter_guest`** is right exactly if an early failure is visible. -/
theorem vmxEnterGuest_right_iff (s : Vmx) (failure : VmentryFailure) (outcome : EntryOutcome) :
    ((vmxEnterGuest s failure outcome).1 = true ↔ outcome.isSuccess = true) ↔
      (outcome.isEarly = true → entryFailure s.exiReason = true) := by
  cases outcome with
  | success reason field rflags =>
      simp [vmxEnterGuest, vmEntry, EntryOutcome.isSuccess, EntryOutcome.isEarly, reason.2]
  | early rflags =>
      simp [vmxEnterGuest, vmEntry, EntryOutcome.isSuccess, EntryOutcome.isEarly]
  | failed reason =>
      simp [vmxEnterGuest, vmEntry, EntryOutcome.isSuccess, EntryOutcome.isEarly, reason.2]

/-- What one attempt does to the parts of the state that matter. -/
theorem vmxEnterGuest_spec (s : Vmx) (failure : VmentryFailure) (outcome : EntryOutcome) :
    ∃ e : Entry, (vmxEnterGuest s failure outcome).2.2.entries = e :: s.entries ∧
      e.instr = (if s.launched then .vmresume else .vmlaunch) ∧ e.vmcsLaunched = s.vmcsLaunched ∧
      e.oldReason = s.exiReason ∧ e.outcome = outcome ∧
      e.returned = (vmxEnterGuest s failure outcome).1 ∧
      (vmxEnterGuest s failure outcome).2.2.launched = s.launched ∧
      (vmxEnterGuest s failure outcome).2.2.vmcsLaunched =
        (s.vmcsLaunched || outcome.isSuccess) := by
  refine ⟨_, rfl, rfl, rfl, rfl, rfl, rfl, ?_, ?_⟩
  · cases outcome <;> rfl
  · cases outcome <;> simp [vmxEnterGuest, vmEntry, EntryOutcome.isSuccess]

/-- **One attempt** keeps the state sound, also when the caller sets `launched` after the
    answer `true`. -/
theorem Vmx.Sound.vmxEnterGuest {s : Vmx} (h : s.Sound) (failure : VmentryFailure)
    (outcome : EntryOutcome) :
    (vmxEnterGuest s failure outcome).2.2.Sound ∧
      ((vmxEnterGuest s failure outcome).1 = true →
        { (vmxEnterGuest s failure outcome).2.2 with launched := true }.Sound) := by
  obtain ⟨e, hentries, hinstr, hvmcs, hold, houtcome, hreturned, hlaunched, hvmcs'⟩ :=
    vmxEnterGuest_spec s failure outcome
  -- the attempt is answered and executed rightly, given that it is visible
  have hstep : (∀ f ∈ e :: s.entries, f.Visible) →
      Backed s.launched s.vmcsLaunched s.entries ∧ e.Right := by
    intro hvisible
    have hbacked := h fun f hf => hvisible f (List.mem_cons_of_mem e hf)
    refine ⟨hbacked, ?_, ?_⟩
    · rw [hreturned, houtcome, vmxEnterGuest_right_iff, ← houtcome, ← hold]
      exact hvisible e List.mem_cons_self
    · intro hresume
      rw [hvmcs]
      apply hbacked.vmcs
      by_contra hnot
      rw [hinstr, if_neg hnot] at hresume
      exact absurd hresume (by decide)
  have hright : Backed s.launched s.vmcsLaunched s.entries ∧ e.Right →
      ∀ f ∈ e :: s.entries, f.Right := by
    intro hb f hf
    rcases List.mem_cons.mp hf with rfl | hf
    · exact hb.2
    · exact hb.1.right f hf
  constructor
  · intro hvisible
    rw [hentries] at hvisible
    have hb := hstep hvisible
    rw [hentries, hlaunched, hvmcs']
    refine ⟨hright hb, fun hl => ?_, fun hl => ?_⟩
    · rw [hb.1.vmcs hl, Bool.true_or]
    · obtain ⟨f, hf, hsuccess⟩ := hb.1.entered hl
      exact ⟨f, List.mem_cons_of_mem e hf, hsuccess⟩
  · intro htrue hvisible
    change ∀ f ∈ (AcrnGuest.vmxEnterGuest s failure outcome).2.2.entries, f.Visible at hvisible
    rw [hentries] at hvisible
    have hb := hstep hvisible
    have hsuccess : e.outcome.isSuccess = true := hb.2.1.mp (hreturned.trans htrue)
    change Backed true (AcrnGuest.vmxEnterGuest s failure outcome).2.2.vmcsLaunched
      (AcrnGuest.vmxEnterGuest s failure outcome).2.2.entries
    rw [hentries, hvmcs', ← houtcome, hsuccess, Bool.or_true]
    exact ⟨hright hb, fun _ => rfl, fun _ => ⟨e, List.mem_cons_self, hsuccess⟩⟩

theorem Vmx.Sound.handleHypercall {s : Vmx} (h : s.Sound) : (handleHypercall s).2.Sound := by
  unfold AcrnGuest.handleHypercall
  dsimp only
  split_ifs <;> exact h

theorem Vmx.Sound.enterGuest {s : Vmx} (h : s.Sound) (attempt : Attempt) :
    (enterGuest s attempt).2.Sound := by
  obtain ⟨hfailed, hentered⟩ := h.vmxEnterGuest attempt.stack attempt.outcome
  unfold AcrnGuest.enterGuest
  by_cases hmain : s.v2GuestMain = false
  · rw [if_pos hmain]
    exact h
  by_cases hfinished : s.guestFinished = true
  · rw [if_neg hmain, if_pos hfinished]
    exact h
  rw [if_neg hmain, if_neg hfinished]
  extract_lets entered returned launched handled final
  by_cases hfalse : entered.1 = false
  · rw [if_pos hfalse]
    exact hfailed
  rw [if_neg hfalse]
  have hlaunched : launched.Sound := hentered (Bool.eq_true_of_not_eq_false hfalse)
  have hfinal : final.Sound := hlaunched.handleHypercall
  split_ifs
  · exact hfinal
  · exact hfinal
  · exact hfinal
  · exact hfinal
  · exact hlaunched

theorem Vmx.Sound.handlerRun {s : Vmx} (h : s.Sound) (handler : HandlerRun) :
    (handler.run s).2.Sound := by
  suffices hgo : ∀ (attempts : List Attempt) (s : Vmx), s.Sound →
      (HandlerRun.run.go handler s attempts).2.Sound from hgo _ s h
  intro attempts
  induction attempts with
  | nil => exact fun s h => h
  | cons a attempts ih =>
      intro s h
      have hsound := h.enterGuest a
      rw [HandlerRun.run.go]
      split <;> rename_i heq <;> rw [heq] at hsound
      · exact ih _ hsound
      · exact hsound

theorem Vmx.Sound.exitHandler {s : Vmx} (h : s.Sound) (current : HandlerRun) :
    (exitHandler s current).2.Sound := by
  have hs : { s with exits := s.exits + 1, regsRflags := s.guestRflags }.Sound := h
  have hhandled : ∀ r : Except Ended (BitVec 32) × Vmx, r.2.Sound →
      (match r with
        | (.error e, s) => (.error e, s)
        | (.ok ret, s) => (.ok ret, { s with guestRflags := s.regsRflags }) :
          Except Ended (BitVec 32) × Vmx).2.Sound := by
    rintro ⟨_ | ret, s⟩ hs <;> exact hs
  apply hhandled
  split_ifs
  · exact hs.handleHypercall
  · exact hs.handlerRun current

theorem Vmx.Sound.entryFailureHandler {s : Vmx} (h : s.Sound) (handler : Option HandlerRun) :
    (entryFailureHandler s handler).2.Sound := by
  cases handler with
  | none => exact h
  | some handler => exact h.handlerRun handler

/-- **One iteration of `vmx_run`** keeps the state sound. -/
theorem Vmx.Sound.vmxRunStep {s : Vmx} (h : s.Sound) (i : Iteration) :
    (vmxRunStep s i).2.Sound := by
  obtain ⟨hfailed, hentered⟩ := h.vmxEnterGuest i.attempt.stack i.attempt.outcome
  have hhandled : ∀ r : Except Ended (BitVec 32) × Vmx, r.2.Sound →
      (match r with
        | (.error e, s) => (some (.error e), s)
        | (.ok ret, s) =>
            if ret = VMX_TEST_RESUME then (none, s)
            else if ret = VMX_TEST_VMEXIT then (some (.ok ()), { s with guestFinished := true })
            else (some (.error .aborted), s) : Option (Except Ended Unit) × Vmx).2.Sound := by
    rintro ⟨_ | ret, s⟩ hs
    · exact hs
    · dsimp only
      split_ifs <;> exact hs
  apply hhandled
  split_ifs with htrue
  · exact (hentered htrue).exitHandler i.exitHandler
  · exact hfailed.entryFailureHandler i.entryFailureHandler

theorem Vmx.Sound.vmxRun {s : Vmx} (h : s.Sound) (is : List Iteration) : (vmxRun s is).2.Sound := by
  induction is generalizing s with
  | nil => exact h
  | cons i is ih =>
      have hstep := h.vmxRunStep i
      rw [AcrnGuest.vmxRun]
      split <;> rename_i heq <;> rw [heq] at hstep
      · exact ih hstep
      · exact hstep

theorem Vmx.Sound.exec {s : Vmx} (h : s.Sound) (c : HostCall) : (c.exec s).2.Sound := by
  cases c with
  | testSetGuest =>
      unfold HostCall.exec
      split_ifs <;> exact h
  | vmxRun is => exact h.vmxRun is
  | enterGuest attempt => exact h.enterGuest attempt

theorem Vmx.Sound.hostRun {s : Vmx} (h : s.Sound) (calls : List HostCall) :
    (hostRun s calls).Sound := by
  induction calls generalizing s with
  | nil => exact h
  | cons c calls ih =>
      have hstep := h.exec c
      rw [AcrnGuest.hostRun]
      split <;> rename_i heq <;> rw [heq] at hstep
      · exact ih hstep
      · exact hstep

theorem testStart_sound (s : Vmx) (exiReason : BitVec 32) (rflags : Word) :
    (testStart s exiReason rflags).Sound := fun _ =>
  ⟨fun _ he => absurd he List.not_mem_nil, nofun, nofun⟩

/-- **Runs of a test.** As long as every early failure is visible, `vmx_enter_guest`
    answers `true` exactly after the entries that succeeded, `vmresume` is executed on a
    launched VMCS only, and `launched` is set only after an entry that succeeded. -/
theorem hostRun_right_of_visible (s : Vmx) (exiReason : BitVec 32) (rflags : Word)
    (calls : List HostCall)
    (hvisible : ∀ e ∈ (hostRun (testStart s exiReason rflags) calls).entries, e.Visible) :
    (∀ e ∈ (hostRun (testStart s exiReason rflags) calls).entries,
      (e.returned = true ↔ e.outcome.isSuccess = true) ∧
        (e.instr = .vmresume → e.vmcsLaunched = true)) ∧
      ((hostRun (testStart s exiReason rflags) calls).launched = true →
        ∃ e ∈ (hostRun (testStart s exiReason rflags) calls).entries,
          e.outcome.isSuccess = true) := by
  have hbacked := (testStart_sound s exiReason rflags).hostRun calls hvisible
  exact ⟨hbacked.right, hbacked.entered⟩

def initialVmx : Vmx where
  launched := false
  inGuest := false
  guestFinished := false
  v2GuestMain := false
  hypercallField := 0#64
  exits := 0#32
  regsRflags := 0#64
  exiReason := 0#32
  guestRflags := 0#64
  vmcsLaunched := false
  entries := []

/-- An iteration whose handlers return `ret`. -/
def plainIteration (outcome : EntryOutcome) (ret : BitVec 32) : Iteration where
  attempt := ⟨outcome, ⟨false, "", false, 0#64⟩⟩
  exitHandler := ⟨[], 2#64, ret⟩
  entryFailureHandler := some ⟨[], 2#64, ret⟩

/-- A reported failure, an early failure with the same exit reason, and two entries that
    succeed, the second one up to the hypercall that ends the guest. -/
def visibleFailures : List HostCall :=
  [.vmxRun
    [plainIteration (.failed ⟨0x80000021#32, by decide⟩) VMX_TEST_RESUME,
      plainIteration (.early 0x42#64) VMX_TEST_RESUME,
      plainIteration (.success ⟨10#32, by decide⟩ 0#64 2#64) VMX_TEST_RESUME,
      plainIteration (.success ⟨18#32, by decide⟩ 0x1001#64 2#64) VMX_TEST_EXIT]]

theorem hostRun_right_after_visible_failures :
    (hostRun (testStart initialVmx 0#32 0#64) visibleFailures).guestFinished = true ∧
      (∀ e ∈ (hostRun (testStart initialVmx 0#32 0#64) visibleFailures).entries,
        e.Visible ∧ (e.returned = true ↔ e.outcome.isSuccess = true) ∧
          (e.instr = .vmresume → e.vmcsLaunched = true)) ∧
      ∃ e ∈ (hostRun (testStart initialVmx 0#32 0#64) visibleFailures).entries,
        e.outcome.isSuccess = true := by
  have hvisible : ∀ e ∈ (hostRun (testStart initialVmx 0#32 0#64) visibleFailures).entries,
      e.Visible := by decide
  obtain ⟨hright, hlaunched⟩ :=
    hostRun_right_of_visible initialVmx 0#32 0#64 visibleFailures hvisible
  exact ⟨by decide, fun e he => ⟨hvisible e he, hright e he⟩, hlaunched (by decide)⟩

/-- The first `vmlaunch` fails early on a VMCS whose exit reason is still zero. The
    failure is taken for an entry, `launched` is set, and when the handler asks for more
    the next instruction is a `vmresume` on a VMCS that was never launched. -/
theorem early_failure_taken_for_entry :
    ∃ s, s = hostRun (testStart initialVmx 0#32 0#64)
        [.vmxRun [plainIteration (.early 0x42#64) VMX_TEST_RESUME,
          plainIteration (.early 0x42#64) VMX_TEST_EXIT]] ∧
      (∀ e ∈ s.entries, e.returned = true ∧ e.outcome.isSuccess = false) ∧ s.launched = true ∧
      ∃ e ∈ s.entries, e.instr = .vmresume ∧ e.vmcsLaunched = false :=
  ⟨_, rfl, by decide, by decide, by decide⟩

end AcrnGuest
