import Mathlib.Data.Fintype.Card
import Mathlib.Data.Nat.Bitwise
import Mathlib.Logic.Function.Basic

/-!
# Calls on other processors (`lib/x86/smp.c`)

One mailbox, guarded by `ipi_lock`, carries the function and the argument of a
request to its target, which is interrupted by an IPI. A caller that waits is
released after the function has run, the others as soon as the target has read the
mailbox; `on_cpus` then waits for the counter `active_cpus`.

Every processor has a main context, which makes the calls, and an interrupt handler.
While the handler is active the main context is suspended, and a further IPI stays
pending. A run is any sequence of actions: a new call of a main context that is not
in a call, one access to the shared memory by a main context or a handler, and the
delivery of a pending IPI.
-/

namespace AcrnGuest

/-! ### The source -/

/-- One execution of `__on_cpu`. The fields `caller` and `serial` tell requests with
    equal arguments apart; no step of the source reads them. -/
structure IpiRequest (n : Nat) (F D : Type) where
  caller : Fin n
  serial : Nat
  cpu : Fin n
  function : F
  data : D
  wait : Bool

/-- The steps of `__on_cpu`; `run` is inside the function on the caller's own processor. -/
inductive OnCpuPc
  | lock
  | test
  | call
  | run
  | inc
  | clearDone
  | setFunction
  | setData
  | setWait
  | icr
  | spin
  | unlock
deriving DecidableEq

/-- Where `__on_cpu` returns to: its caller, or the loop of `on_cpus` with the requests
    of the earlier iterations. -/
inductive OnCpuCaller (n : Nat) (F D : Type)
  | once
  | cpus (earlier : List (IpiRequest n F D))

/-- A main context. After a call has returned the state still names its requests. -/
inductive MainContext (n : Nat) (F D : Type)
  | idle
  | onCpu (pc : OnCpuPc) (r : IpiRequest n F D) (k : OnCpuCaller n F D)
  | cpusActive (f : F) (d : D) (batch : List (IpiRequest n F D))
  | returned (r : IpiRequest n F D)
  | returnedAll (f : F) (d : D) (batch : List (IpiRequest n F D))

/-- The handler `ipi`, which serves the IPI of request `q`, with its local variables. -/
inductive IpiHandler (n : Nat) (F D : Type)
  | idle
  | readFunction (q : IpiRequest n F D)
  | readData (q : IpiRequest n F D) (function : F)
  | readWait (q : IpiRequest n F D) (function : F) (data : D)
  | early (q : IpiRequest n F D) (function : F) (data : D)
  | call (q : IpiRequest n F D) (function : F) (data : D) (wait : Bool)
  | run (q : IpiRequest n F D) (function : F) (data : D) (wait : Bool)
  | dec (q : IpiRequest n F D) (wait : Bool)
  | late (q : IpiRequest n F D)
  | iret

/-- A function `function(data)` called for request `q` on processor `cpu`. -/
structure FunctionRun (n : Nat) (F D : Type) where
  q : IpiRequest n F D
  cpu : Fin n
  function : F
  data : D

inductive RequestPhase
  | unissued
  | issued
  | sent
  | delivered
  | running
  | finished
deriving DecidableEq

structure IpiMemory (F D : Type) where
  ipiLock : Bool
  ipiFunction : F
  ipiData : D
  ipiDone : Bool
  ipiWait : Bool
  activeCpus : BitVec 32

structure Smp (n : Nat) (F D : Type) extends IpiMemory F D where
  -- the IPIs that are sent and not yet delivered, by target
  pending : Fin n → List (IpiRequest n F D)
  main : Fin n → MainContext n F D
  handler : Fin n → IpiHandler n F D
  -- history: the requests in the order of their serial numbers
  requests : List (IpiRequest n F D)
  phase : Nat → RequestPhase
  started : List (FunctionRun n F D)
  finished : List (FunctionRun n F D)

inductive SmpCall (n : Nat) (F D : Type)
  | onCpu (cpu : Fin n) (function : F) (data : D)
  | onCpuAsync (cpu : Fin n) (function : F) (data : D)
  | onCpus (function : F) (data : D)

inductive SmpAction (n : Nat) (F D : Type)
  | call (c : Fin n) (call : SmpCall n F D)
  | main (c : Fin n)
  | deliver (c : Fin n)
  | handler (c : Fin n)

section Source

variable {n : Nat} {F D : Type}

/-- After `smp_init` the variable that `smp_id` reads holds the number of the processor. -/
def smpId (c : Fin n) : Fin n := c

def Smp.setMain (s : Smp n F D) (c : Fin n) (m : MainContext n F D) : Smp n F D :=
  { s with main := Function.update s.main c m }

def Smp.setHandler (s : Smp n F D) (c : Fin n) (h : IpiHandler n F D) : Smp n F D :=
  { s with handler := Function.update s.handler c h }

def Smp.setPhase (s : Smp n F D) (q : IpiRequest n F D) (p : RequestPhase) : Smp n F D :=
  { s with phase := Function.update s.phase q.serial p }

def enterOnCpu (s : Smp n F D) (c cpu : Fin n) (function : F) (data : D) (wait : Bool)
    (k : OnCpuCaller n F D) : Smp n F D :=
  let r : IpiRequest n F D := ⟨c, s.requests.length, cpu, function, data, wait⟩
  ({ s with requests := s.requests ++ [r] }.setPhase r .issued).setMain c (.onCpu .lock r k)

def beginRun (s : Smp n F D) (q : IpiRequest n F D) (c : Fin n) (function : F) (data : D) :
    Smp n F D :=
  { s with started := s.started ++ [FunctionRun.mk q c function data] }.setPhase q .running

def endRun (s : Smp n F D) (q : IpiRequest n F D) (c : Fin n) (function : F) (data : D) :
    Smp n F D :=
  { s with finished := s.finished ++ [FunctionRun.mk q c function data] }.setPhase q .finished

/-- The end of `__on_cpu`, back in `on_cpu`, `on_cpu_async` or the loop of `on_cpus`. -/
def leaveOnCpu (s : Smp n F D) (c : Fin n) (r : IpiRequest n F D) : OnCpuCaller n F D → Smp n F D
  | .once => s.setMain c (.returned r)
  | .cpus earlier =>
      if r.cpu.val = 0 then s.setMain c (.cpusActive r.function r.data (earlier ++ [r]))
      else enterOnCpu s c ⟨r.cpu.val - 1, by omega⟩ r.function r.data false (.cpus (earlier ++ [r]))

def onCpuStep (s : Smp n F D) (c : Fin n) (r : IpiRequest n F D) (k : OnCpuCaller n F D) :
    OnCpuPc → Smp n F D
  | .lock => if s.ipiLock then s else { s with ipiLock := true }.setMain c (.onCpu .test r k)
  | .test => s.setMain c (.onCpu (if r.cpu = smpId c then .call else .inc) r k)
  | .call => (beginRun s r c r.function r.data).setMain c (.onCpu .run r k)
  | .run => (endRun s r c r.function r.data).setMain c (.onCpu .unlock r k)
  | .inc => { s with activeCpus := s.activeCpus + 1#32 }.setMain c (.onCpu .clearDone r k)
  | .clearDone => { s with ipiDone := false }.setMain c (.onCpu .setFunction r k)
  | .setFunction => { s with ipiFunction := r.function }.setMain c (.onCpu .setData r k)
  | .setData => { s with ipiData := r.data }.setMain c (.onCpu .setWait r k)
  | .setWait => { s with ipiWait := r.wait }.setMain c (.onCpu .icr r k)
  | .icr =>
      ({ s with pending := Function.update s.pending r.cpu (s.pending r.cpu ++ [r]) }.setPhase r
        .sent).setMain c (.onCpu .spin r k)
  | .spin => if s.ipiDone then s.setMain c (.onCpu .unlock r k) else s
  | .unlock => leaveOnCpu { s with ipiLock := false } c r k

def mainStep (s : Smp n F D) (c : Fin n) : Smp n F D :=
  match s.main c with
  | .onCpu pc r k => onCpuStep s c r k pc
  | .cpusActive f d batch =>
      if 1 < s.activeCpus.toInt then s else s.setMain c (.returnedAll f d batch)
  | _ => s

/-- A call of a main context that is not inside a call. -/
def enterCall (s : Smp n F D) (c : Fin n) : SmpCall n F D → Smp n F D
  | .onCpu cpu function data => enterOnCpu s c cpu function data true .once
  | .onCpuAsync cpu function data => enterOnCpu s c cpu function data false .once
  | .onCpus function data =>
      enterOnCpu s c ⟨n - 1, by have := c.isLt; omega⟩ function data false (.cpus [])

def MainContext.free : MainContext n F D → Bool
  | .onCpu _ _ _ => false
  | .cpusActive _ _ _ => false
  | _ => true

def IpiHandler.isIdle : IpiHandler n F D → Bool
  | .idle => true
  | _ => false

/-- The next step of the handler. The writes of the EOI register change nothing here: a
    further IPI is not delivered before the handler has returned. -/
def handlerStep (s : Smp n F D) (c : Fin n) : Smp n F D :=
  match s.handler c with
  | .idle => s
  | .readFunction q => s.setHandler c (.readData q s.ipiFunction)
  | .readData q function => s.setHandler c (.readWait q function s.ipiData)
  | .readWait q function data =>
      s.setHandler c (if s.ipiWait then .call q function data true else .early q function data)
  | .early q function data =>
      { s with ipiDone := true }.setHandler c (.call q function data false)
  | .call q function data wait =>
      (beginRun s q c function data).setHandler c (.run q function data wait)
  | .run q function data wait => (endRun s q c function data).setHandler c (.dec q wait)
  | .dec q wait =>
      { s with activeCpus := s.activeCpus - 1#32 }.setHandler c (if wait then .late q else .iret)
  | .late _ => { s with ipiDone := true }.setHandler c .iret
  | .iret => s.setHandler c .idle

/-- A pending IPI interrupts the main context. -/
def deliver (s : Smp n F D) (c : Fin n) : Smp n F D :=
  match s.pending c with
  | [] => s
  | q :: rest =>
      ({ s with pending := Function.update s.pending c rest }.setPhase q .delivered).setHandler c
        (.readFunction q)

/-- An action that is not possible changes nothing. -/
def smpStep (s : Smp n F D) : SmpAction n F D → Smp n F D
  | .call c call => if (s.handler c).isIdle && (s.main c).free then enterCall s c call else s
  | .main c => if (s.handler c).isIdle then mainStep s c else s
  | .deliver c => if (s.handler c).isIdle then deliver s c else s
  | .handler c => handlerStep s c

/-- `smp_init` has returned: its calls of `on_cpu` are over, with the handlers at most
    before their return, and `active_cpus` counts the boot processor. -/
structure AfterSmpInit (s : Smp n F D) : Prop where
  ipiLock : s.ipiLock = false
  activeCpus : s.activeCpus = 1#32
  pending : ∀ c, s.pending c = []
  main : ∀ c, s.main c = .idle
  handler : ∀ c, s.handler c = .idle ∨ s.handler c = .iret
  requests : s.requests = []
  phase : ∀ i, s.phase i = .unissued
  started : s.started = []
  finished : s.finished = []

end Source

end AcrnGuest
