import AcrnGuest.SmpCall

/-!
# The mailbox of the calls on other processors

Three invariants hold in every state. `Smp.Owned`: at most one main context is
between taking and releasing `ipi_lock`. `Smp.Placed`: the phase of a request says
where it is, in a main context, among the pending IPIs, in a handler, or done.
`Smp.Mail`: an IPI that its target has not acknowledged belongs to the main context
that holds the lock, which spins, and the mailbox still holds its request.
-/

namespace AcrnGuest

section Places

variable {n : Nat} {F D : Type}

/-- Before the function is called or the IPI is sent. -/
def OnCpuPc.fresh : OnCpuPc → Bool
  | .run | .spin | .unlock => false
  | _ => true

def OnCpuPc.holds : OnCpuPc → Bool
  | .lock => false
  | _ => true

def OnCpuPc.remote : OnCpuPc → Bool
  | .inc | .clearDone | .setFunction | .setData | .setWait | .icr | .spin => true
  | _ => false

def MainContext.holds : MainContext n F D → Bool
  | .onCpu pc _ _ => pc.holds
  | _ => false

def IpiHandler.request : IpiHandler n F D → Option (IpiRequest n F D)
  | .idle | .iret => none
  | .readFunction q | .readData q _ | .readWait q _ _ | .early q _ _ | .call q _ _ _
  | .run q _ _ _ | .dec q _ | .late q => some q

def IpiHandler.phase : IpiHandler n F D → RequestPhase
  | .run .. => .running
  | .dec .. | .late .. => .finished
  | _ => .delivered

theorem IpiHandler.phase_cases (i : IpiHandler n F D) :
    i.phase = .delivered ∨ i.phase = .running ∨ i.phase = .finished := by
  cases i <;> simp [IpiHandler.phase]

def IpiHandler.unacked : IpiHandler n F D → Bool
  | .readFunction _ | .readData .. | .readWait .. | .early .. | .late _ => true
  | .call _ _ _ wait | .run _ _ _ wait | .dec _ wait => wait
  | _ => false

/-- The local variables of the handler are those of its request. -/
def IpiHandler.Right : IpiHandler n F D → Prop
  | .readData q function => function = q.function
  | .readWait q function data => function = q.function ∧ data = q.data
  | .early q function data => function = q.function ∧ data = q.data ∧ q.wait = false
  | .call q function data wait | .run q function data wait =>
      function = q.function ∧ data = q.data ∧ q.wait = wait
  | .dec q wait => q.wait = wait
  | .late q => q.wait = true
  | _ => True

def Known (requests : List (IpiRequest n F D)) (q : IpiRequest n F D) : Prop :=
  requests[q.serial]? = some q

theorem Known.eq {requests : List (IpiRequest n F D)} {q r : IpiRequest n F D}
    (hq : Known requests q) (hr : Known requests r) (h : q.serial = r.serial) : q = r := by
  unfold Known at hq hr
  rw [h, hr] at hq
  exact (Option.some.inj hq).symm

theorem Known.lt {requests : List (IpiRequest n F D)} {q : IpiRequest n F D}
    (hq : Known requests q) : q.serial < requests.length :=
  (List.getElem?_eq_some_iff.mp hq).1

theorem Known.append {requests : List (IpiRequest n F D)} {q : IpiRequest n F D}
    (hq : Known requests q) (r : IpiRequest n F D) : Known (requests ++ [r]) q :=
  (List.getElem?_append_left hq.lt).trans hq

theorem known_append_iff {requests : List (IpiRequest n F D)} {q r : IpiRequest n F D}
    (hr : r.serial = requests.length) :
    Known (requests ++ [r]) q ↔ Known requests q ∨ q = r := by
  constructor
  · intro hq
    rcases Nat.lt_or_ge q.serial requests.length with hlt | hge
    · exact Or.inl ((List.getElem?_append_left hlt).symm.trans hq)
    · unfold Known at hq
      rw [List.getElem?_append_right hge] at hq
      have hmem := List.mem_of_getElem? hq
      exact Or.inr (List.mem_singleton.mp hmem)
  · rintro (hq | rfl)
    · exact hq.append r
    · unfold Known
      rw [hr, List.getElem?_concat_length]

structure Smp.Owned (s : Smp n F D) : Prop where
  locked : ∀ c, (s.main c).holds = true → s.ipiLock = true
  unique : ∀ c c', (s.main c).holds = true → (s.main c').holds = true → c = c'

structure Smp.Placed (s : Smp n F D) : Prop where
  known : ∀ c pc r k, s.main c = .onCpu pc r k → Known s.requests r ∧ r.caller = c
  fresh : ∀ c pc r k, s.main c = .onCpu pc r k → pc.fresh = true → s.phase r.serial = .issued
  run : ∀ c r k, s.main c = .onCpu .run r k → s.phase r.serial = .running
  self : ∀ c pc r k, s.main c = .onCpu pc r k → pc = .call ∨ pc = .run → r.cpu = c
  queued : ∀ c q, q ∈ s.pending c → Known s.requests q ∧ q.cpu = c ∧ s.phase q.serial = .sent
  nodup : ∀ c, (s.pending c).Nodup
  served : ∀ c q, (s.handler c).request = some q → Known s.requests q ∧ q.cpu = c ∧
    s.phase q.serial = (s.handler c).phase
  sent : ∀ q, Known s.requests q → s.phase q.serial = .sent → q ∈ s.pending q.cpu
  delivered : ∀ q, Known s.requests q → s.phase q.serial = .delivered →
    (s.handler q.cpu).request = some q
  running : ∀ q, Known s.requests q → s.phase q.serial = .running →
    (s.handler q.cpu).request = some q ∨ ∃ k, s.main q.caller = .onCpu .run q k
  unissued : ∀ i, s.requests.length ≤ i → s.phase i = .unissued

/-- The mailbox holds the request `q`, not yet acknowledged. -/
def Smp.Holds (s : Smp n F D) (q : IpiRequest n F D) : Prop :=
  s.ipiDone = false ∧ s.ipiFunction = q.function ∧ s.ipiData = q.data ∧ s.ipiWait = q.wait

/-- What the caller has written to the mailbox so far. -/
def Smp.Written (s : Smp n F D) (r : IpiRequest n F D) : OnCpuPc → Prop
  | .setFunction => s.ipiDone = false
  | .setData => s.ipiDone = false ∧ s.ipiFunction = r.function
  | .setWait => s.ipiDone = false ∧ s.ipiFunction = r.function ∧ s.ipiData = r.data
  | .icr => s.Holds r
  | _ => True

/-- The IPI of `q` is under way to `c`, or `c` has not acknowledged it. -/
def Smp.InFlight (s : Smp n F D) (c : Fin n) (q : IpiRequest n F D) : Prop :=
  q ∈ s.pending c ∨ (s.handler c).unacked = true ∧ (s.handler c).request = some q

structure Smp.Mail (s : Smp n F D) : Prop where
  remote : ∀ c pc r k, s.main c = .onCpu pc r k → pc.remote = true → r.cpu ≠ c
  idle : ∀ c, (s.main c).holds = true → s.handler c = .idle
  written : ∀ c pc r k, s.main c = .onCpu pc r k → s.Written r pc
  flight : ∀ c q, s.InFlight c q → (∃ o k, s.main o = .onCpu .spin q k) ∧ s.Holds q
  right : ∀ c, (s.handler c).Right
  acked : ∀ c r k, s.main c = .onCpu .spin r k → s.ipiDone = true → r.wait = true →
    s.phase r.serial = .finished
  unlock : ∀ c r k, s.main c = .onCpu .unlock r k → r.wait = true → s.phase r.serial = .finished

end Places

section Steps

variable {n : Nat} {F D : Type} {s : Smp n F D} {c : Fin n} {pc pc' : OnCpuPc}
  {q r : IpiRequest n F D} {k : OnCpuCaller n F D}

theorem Smp.setMain_self (m : MainContext n F D) :
    (s.setMain c m).main c = m := Function.update_self ..

theorem Smp.setMain_of_ne {c' : Fin n} (hne : c' ≠ c) (m : MainContext n F D) :
    (s.setMain c m).main c' = s.main c' :=
  Function.update_of_ne hne ..

/-- After a step of `c`, a main context is that of `c` or was there before. -/
theorem Smp.setMain_cases {m x : MainContext n F D} {c' : Fin n} (h : (s.setMain c m).main c' = x) :
    c' = c ∧ m = x ∨ c' ≠ c ∧ s.main c' = x := by
  by_cases hc : c' = c
  · subst hc
    rw [Smp.setMain_self] at h
    exact Or.inl ⟨rfl, h⟩
  · rw [Smp.setMain_of_ne hc] at h
    exact Or.inr ⟨hc, h⟩

theorem Smp.setHandler_self (i : IpiHandler n F D) :
    (s.setHandler c i).handler c = i := Function.update_self ..

theorem Smp.setHandler_of_ne {c' : Fin n} (hne : c' ≠ c) (i : IpiHandler n F D) :
    (s.setHandler c i).handler c' = s.handler c' :=
  Function.update_of_ne hne ..

theorem Smp.setPhase_self (p : RequestPhase) :
    (s.setPhase q p).phase q.serial = p := Function.update_self ..

theorem Smp.setPhase_of_ne {j : Nat} (hne : j ≠ q.serial) (p : RequestPhase) :
    (s.setPhase q p).phase j = s.phase j :=
  Function.update_of_ne hne ..

/-! ### The lock -/

theorem Smp.Owned.other_free (h : s.Owned) (hc : (s.main c).holds = true) {c' : Fin n}
    (hne : c' ≠ c) :
    (s.main c').holds = false :=
  Bool.eq_false_iff.mpr fun hc' => hne (h.unique c' c hc' hc)

theorem Smp.Owned.lock_of_other (h : s.Owned) (hc : (s.main c).holds = true) {c' : Fin n}
    (hne : c' ≠ c) (hm : s.main c' = .onCpu pc r k) : pc = .lock := by
  have hfree := h.other_free hc hne
  rw [hm] at hfree
  cases pc <;> first | rfl | exact absurd hfree.symm Bool.false_ne_true

/-- After a step of the holder of the lock, a main context is its own or waits for the lock. -/
theorem Smp.Owned.step_cases {S : Smp n F D} (h : s.Owned) (hc : (s.main c).holds = true)
    (hmain : S.main = s.main) {m : MainContext n F D} {c' : Fin n}
    (hm : (S.setMain c m).main c' = .onCpu pc r k) :
    c' = c ∧ m = .onCpu pc r k ∨ pc = .lock := by
  rcases Smp.setMain_cases hm with heq | ⟨hne, heq⟩
  · exact Or.inl heq
  · exact Or.inr (h.lock_of_other hc hne ((congrFun hmain c').symm.trans heq))

theorem Smp.Owned.setMain (h : s.Owned) {m : MainContext n F D}
    (hm : m.holds = true → (s.main c).holds = true) : (s.setMain c m).Owned := by
  have hbefore : ∀ c', ((s.setMain c m).main c').holds = true → (s.main c').holds = true := by
    intro c' hc'
    generalize hx : (s.setMain c m).main c' = x at hc'
    rcases Smp.setMain_cases hx with ⟨rfl, rfl⟩ | ⟨-, rfl⟩
    · exact hm hc'
    · exact hc'
  exact ⟨fun c' hc' => h.locked c' (hbefore c' hc'), fun c₁ c₂ h₁ h₂ =>
    h.unique c₁ c₂ (hbefore c₁ h₁) (hbefore c₂ h₂)⟩

/-- `c` becomes the only main context that holds the lock. -/
theorem Smp.owned_of_others_free {m : MainContext n F D} (hlock : m.holds = true → s.ipiLock = true)
    (hothers : ∀ c', c' ≠ c → (s.main c').holds = false) : (s.setMain c m).Owned := by
  have honly : ∀ c', ((s.setMain c m).main c').holds = true → c' = c ∧ m.holds = true := by
    intro c' hc'
    generalize hx : (s.setMain c m).main c' = x at hc'
    rcases Smp.setMain_cases hx with ⟨rfl, rfl⟩ | ⟨hne, rfl⟩
    · exact ⟨rfl, hc'⟩
    · exact absurd ((hothers c' hne).symm.trans hc') Bool.false_ne_true
  exact ⟨fun c' hc' => hlock (honly c' hc').2, fun c₁ c₂ h₁ h₂ =>
    (honly c₁ h₁).1.trans (honly c₂ h₂).1.symm⟩

theorem Smp.Owned.acquire (h : s.Owned) (hfree : s.ipiLock = false) (m : MainContext n F D) :
    ({ s with ipiLock := true }.setMain c m).Owned :=
  Smp.owned_of_others_free (fun _ => rfl) fun c' _ =>
    Bool.eq_false_iff.mpr fun hc' => Bool.false_ne_true (hfree.symm.trans (h.locked c' hc'))

theorem Smp.Owned.release (h : s.Owned) (hc : (s.main c).holds = true) {m : MainContext n F D}
    (hm : m.holds = false) : ({ s with ipiLock := false }.setMain c m).Owned :=
  Smp.owned_of_others_free (fun hholds =>
    absurd (hm.symm.trans hholds) Bool.false_ne_true) fun _ hne =>
    h.other_free hc hne

/-! ### Places -/

theorem Smp.Placed.setMain (h : s.Placed) (hrun : ∀ r k, s.main c ≠ .onCpu .run r k)
    {m : MainContext n F D} (hm : ∀ pc r k, m = .onCpu pc r k → Known s.requests r ∧ r.caller = c ∧
      pc ≠ .run ∧ (pc.fresh = true → s.phase r.serial = .issued) ∧ (pc = .call → r.cpu = c)) :
    (s.setMain c m).Placed :=
  { h with
    known := by
      intro c' pc r k hmain
      rcases Smp.setMain_cases hmain with ⟨rfl, heq⟩ | ⟨-, heq⟩
      · exact ⟨(hm pc r k heq).1, (hm pc r k heq).2.1⟩
      · exact h.known c' pc r k heq
    fresh := by
      intro c' pc r k hmain
      rcases Smp.setMain_cases hmain with ⟨rfl, heq⟩ | ⟨-, heq⟩
      · exact (hm pc r k heq).2.2.2.1
      · exact h.fresh c' pc r k heq
    run := by
      intro c' r k hmain
      rcases Smp.setMain_cases hmain with ⟨rfl, heq⟩ | ⟨-, heq⟩
      · exact absurd rfl (hm .run r k heq).2.2.1
      · exact h.run c' r k heq
    self := by
      intro c' pc r k hmain hpc
      rcases Smp.setMain_cases hmain with ⟨rfl, heq⟩ | ⟨-, heq⟩
      · exact (hm pc r k heq).2.2.2.2 (hpc.resolve_right (hm pc r k heq).2.2.1)
      · exact h.self c' pc r k heq hpc
    running := by
      intro q hq hphase
      rcases h.running q hq hphase with hserved | ⟨k, hmain⟩
      · exact Or.inl hserved
      · have hne : q.caller ≠ c := fun heq => hrun q k (heq ▸ hmain)
        exact Or.inr ⟨k, (Smp.setMain_of_ne hne m).trans hmain⟩ }

theorem Smp.Placed.stepMain (h : s.Placed) (hm : s.main c = .onCpu pc r k) (hpc : pc ≠ .run)
    (hpc' : pc' ≠ .run) (hfresh : pc'.fresh = true → pc.fresh = true)
    (hself : pc' = .call → r.cpu = c) :
    (s.setMain c (.onCpu pc' r k)).Placed := by
  obtain ⟨hknown, hcaller⟩ := h.known c pc r k hm
  refine h.setMain (fun r' k' hrun => hpc ?_) ?_
  · rw [hm] at hrun
    exact (MainContext.onCpu.inj hrun).1
  · rintro _ _ _ ⟨rfl, rfl, rfl⟩
    exact ⟨hknown, hcaller, hpc', fun hf => h.fresh c pc r k hm (hfresh hf), hself⟩

theorem Smp.Placed.leaveMain (h : s.Placed) (hm : ∀ r k, s.main c ≠ .onCpu .run r k)
    {m : MainContext n F D} (hm' : ∀ pc r k, m ≠ .onCpu pc r k) : (s.setMain c m).Placed :=
  h.setMain hm fun pc r k heq => absurd heq (hm' pc r k)

theorem Smp.Placed.stepHandler (h : s.Placed) {i : IpiHandler n F D}
    (hrequest : i.request = (s.handler c).request) (hphase : i.phase = (s.handler c).phase) :
    (s.setHandler c i).Placed := by
  have hsame : ∀ c', ((s.setHandler c i).handler c').request = (s.handler c').request ∧
      ((s.setHandler c i).handler c').phase = (s.handler c').phase := by
    intro c'
    by_cases hc : c' = c
    · subst hc
      rw [Smp.setHandler_self]
      exact ⟨hrequest, hphase⟩
    · rw [Smp.setHandler_of_ne hc]
      exact ⟨rfl, rfl⟩
  exact
  { h with
    served := by
      intro c' q hq
      obtain ⟨hknown, hcpu, hserved⟩ := h.served c' q ((hsame c').1.symm.trans hq)
      exact ⟨hknown, hcpu, hserved.trans (hsame c').2.symm⟩
    delivered := fun q hq hp => (hsame q.cpu).1.trans (h.delivered q hq hp)
    running := fun q hq hp => (h.running q hq hp).imp_left (hsame q.cpu).1.trans }

theorem Smp.Placed.leaveHandler (h : s.Placed) {i : IpiHandler n F D} (hrequest : i.request = none)
    (hphase : (s.handler c).request = none ∨ (s.handler c).phase = .finished) :
    (s.setHandler c i).Placed := by
  -- a request that is not finished is in another handler
  have hkeep : ∀ q, (s.handler q.cpu).request = some q → s.phase q.serial ≠ .finished →
      ((s.setHandler c i).handler q.cpu).request = some q := by
    intro q hq hne
    by_cases hc : q.cpu = c
    · obtain ⟨-, -, hserved⟩ := h.served q.cpu q hq
      rw [hc] at hq hserved
      rcases hphase with hnone | hfinished
      · exact absurd (hnone.symm.trans hq) (Option.some_ne_none q).symm
      · exact absurd (hserved.trans hfinished) hne
    · rw [Smp.setHandler_of_ne hc]
      exact hq
  exact
  { h with
    served := by
      intro c' q hq
      by_cases hc : c' = c
      · subst hc
        rw [Smp.setHandler_self, hrequest] at hq
        cases hq
      · rw [Smp.setHandler_of_ne hc] at hq ⊢
        exact h.served c' q hq
    delivered := fun q hq hp => hkeep q (h.delivered q hq hp) fun hf =>
      absurd (hp.symm.trans hf) (by decide)
    running := fun q hq hp =>
      (h.running q hq hp).imp_left fun hq' => hkeep q hq' fun hf =>
        absurd (hp.symm.trans hf) (by decide) }

theorem Smp.Placed.not_served_of_issued (h : s.Placed) (hphase : s.phase r.serial = .issued)
    (c' : Fin n) :
    (s.handler c').request ≠ some r := by
  intro hq
  have hserved := hphase.symm.trans (h.served c' r hq).2.2
  rcases (s.handler c').phase_cases with hp | hp | hp
    <;> exact absurd (hserved.trans hp) (by decide)

theorem Smp.Placed.not_queued (h : s.Placed) (hphase : s.phase r.serial ≠ .sent) (c' : Fin n) :
    r ∉ s.pending c' :=
  fun hmem => hphase (h.queued c' r hmem).2.2

/-- A step of the main context `c` that moves its request `r` to the phase `p` and nothing else. The
state `S` has the new lists. -/
theorem Smp.Placed.moveMain {S : Smp n F D} {p : RequestPhase} (h : s.Placed)
    (hmain : S.main = s.main) (hhandler : S.handler = s.handler) (hphase : S.phase = s.phase)
    (hknown : ∀ q, Known S.requests q ↔ Known s.requests q ∨ q = r) (hcaller : r.caller = c)
    (hpending : ∀ c' q, q ≠ r → (q ∈ S.pending c' ↔ q ∈ s.pending c'))
    (hnodup : ∀ c', (S.pending c').Nodup)
    (hqueued : ∀ c', r ∈ S.pending c' ↔ p = .sent ∧ c' = r.cpu)
    (hserved : ∀ c', (s.handler c').request ≠ some r)
    (hbefore : ∀ q k, s.main c = .onCpu .run q k → q = r) (hfresh : pc'.fresh = true → p = .issued)
    (hrun : pc' = .run ↔ p = .running) (hself : pc' = .call ∨ pc' = .run → r.cpu = c)
    (hdelivered : p ≠ .delivered) (hunissued : ∀ j, S.requests.length ≤ j → s.phase j = .unissued) :
    ((S.setPhase r p).setMain c (.onCpu pc' r k)).Placed := by
  have hr : Known S.requests r := (hknown r).mpr (Or.inr rfl)
  have hkept : ∀ q, Known S.requests q → q ≠ r → Known s.requests q := fun q hq hne =>
    ((hknown q).mp hq).resolve_right hne
  have hother : ∀ q, Known s.requests q → q ≠ r →
      (S.setPhase r p).phase q.serial = s.phase q.serial := by
    intro q hq hne
    rw [Smp.setPhase_of_ne fun heq => hne (Known.eq ((hknown q).mpr (Or.inl hq)) hr heq), hphase]
  -- a main context is that of `c`, or it was there before with another request
  have hcases : ∀ c' pc q k', ((S.setPhase r p).setMain c (.onCpu pc' r k)).main c' =
      .onCpu pc q k' →
      c' = c ∧ pc = pc' ∧ q = r ∨ s.main c' = .onCpu pc q k' ∧ q ≠ r := by
    intro c' pc q k' hm
    rcases Smp.setMain_cases hm with ⟨rfl, heq⟩ | ⟨hne, heq⟩
    · cases heq
      exact Or.inl ⟨rfl, rfl, rfl⟩
    · have hm' : s.main c' = .onCpu pc q k' := (congrFun hmain c').symm.trans heq
      refine Or.inr ⟨hm', ?_⟩
      rintro rfl
      exact hne ((h.known c' pc q k' hm').2.symm.trans hcaller)
  exact
  { known := by
      intro c' pc q k' hm
      rcases hcases c' pc q k' hm with ⟨rfl, -, rfl⟩ | ⟨hm', -⟩
      · exact ⟨hr, hcaller⟩
      · obtain ⟨hq, hc⟩ := h.known c' pc q k' hm'
        exact ⟨(hknown q).mpr (Or.inl hq), hc⟩
    fresh := by
      intro c' pc q k' hm hpc
      rcases hcases c' pc q k' hm with ⟨-, rfl, rfl⟩ | ⟨hm', hne⟩
      · exact Smp.setPhase_self p |>.trans (hfresh hpc)
      · exact (hother q (h.known c' pc q k' hm').1 hne).trans (h.fresh c' pc q k' hm' hpc)
    run := by
      intro c' q k' hm
      rcases hcases c' .run q k' hm with ⟨-, hpc, rfl⟩ | ⟨hm', hne⟩
      · exact Smp.setPhase_self p |>.trans (hrun.mp hpc.symm)
      · exact (hother q (h.known c' .run q k' hm').1 hne).trans (h.run c' q k' hm')
    self := by
      intro c' pc q k' hm hpc
      rcases hcases c' pc q k' hm with ⟨rfl, rfl, rfl⟩ | ⟨hm', -⟩
      · exact hself hpc
      · exact h.self c' pc q k' hm' hpc
    queued := by
      intro c' q hq
      by_cases hqr : q = r
      · subst hqr
        obtain ⟨hsent, rfl⟩ := (hqueued c').mp hq
        exact ⟨hr, rfl, Smp.setPhase_self p |>.trans hsent⟩
      · obtain ⟨hk, hc, hsent⟩ := h.queued c' q ((hpending c' q hqr).mp hq)
        exact ⟨(hknown q).mpr (Or.inl hk), hc, (hother q hk hqr).trans hsent⟩
    nodup := hnodup
    served := by
      intro c' q hq
      change (S.handler c').request = some q at hq
      rw [hhandler] at hq
      have hqr : q ≠ r := by
        rintro rfl
        exact hserved c' hq
      obtain ⟨hk, hc, hp⟩ := h.served c' q hq
      exact ⟨(hknown q).mpr (Or.inl hk), hc,
        (hother q hk hqr).trans (hp.trans (by rw [← hhandler]; rfl))⟩
    sent := by
      intro q hq hp
      by_cases hqr : q = r
      · subst hqr
        exact (hqueued q.cpu).mpr ⟨(Smp.setPhase_self p).symm.trans hp, rfl⟩
      · have hk := hkept q hq hqr
        exact (hpending q.cpu q hqr).mpr (h.sent q hk ((hother q hk hqr).symm.trans hp))
    delivered := by
      intro q hq hp
      by_cases hqr : q = r
      · subst hqr
        exact absurd ((Smp.setPhase_self p).symm.trans hp) hdelivered
      · have hk := hkept q hq hqr
        change (S.handler q.cpu).request = some q
        rw [hhandler]
        exact h.delivered q hk ((hother q hk hqr).symm.trans hp)
    running := by
      intro q hq hp
      by_cases hqr : q = r
      · subst hqr
        have hpc : pc' = .run := hrun.mpr ((Smp.setPhase_self p).symm.trans hp)
        exact Or.inr ⟨k, by rw [hcaller, Smp.setMain_self, hpc]⟩
      · have hk := hkept q hq hqr
        rcases h.running q hk ((hother q hk hqr).symm.trans hp) with hhandled | ⟨k', hm⟩
        · left
          change (S.handler q.cpu).request = some q
          rw [hhandler]
          exact hhandled
        · have hne : q.caller ≠ c := fun heq => hqr (hbefore q k' (heq ▸ hm))
          exact Or.inr ⟨k', (Smp.setMain_of_ne hne _).trans ((congrFun hmain _).trans hm)⟩
    unissued := by
      intro j hj
      have hne : j ≠ r.serial := fun heq => absurd hr.lt (Nat.not_lt_of_le (heq ▸ hj))
      exact (Smp.setPhase_of_ne hne p).trans ((congrFun hphase j).trans (hunissued j hj)) }

theorem Smp.Placed.enterOnCpu (h : s.Placed) (hm : ∀ r k, s.main c ≠ .onCpu .run r k) (cpu : Fin n)
    (function : F) (data : D) (wait : Bool) (k : OnCpuCaller n F D) :
    (enterOnCpu s c cpu function data wait k).Placed := by
  -- no request has the next serial number yet
  have hnew : ∀ q, Known s.requests q → q ≠ ⟨c, s.requests.length, cpu, function, data, wait⟩ := by
    rintro q hq rfl
    exact Nat.lt_irrefl _ hq.lt
  refine h.moveMain rfl rfl rfl (fun q => known_append_iff rfl) rfl (fun _ _ _ => Iff.rfl) h.nodup
    (fun c' => ?_) (fun c' hq => hnew _ (h.served c' _ hq).1 rfl)
    (fun q k hrun => absurd hrun (hm q k)) (fun _ => rfl) (by simp) (by simp)
    (by decide) fun j hj => h.unissued j ?_
  · exact iff_of_false (fun hq => hnew _ (h.queued c' _ hq).1 rfl) (by simp)
  · rw [List.length_append] at hj
    exact Nat.le_of_add_right_le hj

/-- The requests are the same when one of them moves. -/
theorem known_iff_or_eq {requests : List (IpiRequest n F D)} (hr : Known requests r)
    (q : IpiRequest n F D) :
    Known requests q ↔ Known requests q ∨ q = r := by
  constructor
  · exact Or.inl
  · rintro (hq | rfl)
    · exact hq
    · exact hr

theorem Smp.Placed.send (h : s.Placed) (hm : s.main c = .onCpu .icr r k) :
    (({ s with pending := Function.update s.pending r.cpu (s.pending r.cpu ++ [r]) }.setPhase r
        .sent).setMain c (.onCpu .spin r k)).Placed := by
  obtain ⟨hr, hcaller⟩ := h.known c _ r k hm
  have hphase := h.fresh c _ r k hm rfl
  have hnot := h.not_queued (by rw [hphase]; decide : s.phase r.serial ≠ .sent)
  refine h.moveMain rfl rfl rfl (known_iff_or_eq hr) hcaller (fun c' q hne => ?_) (fun c' => ?_)
    (fun c' => ?_) (h.not_served_of_issued hphase) (fun q k' hrun => ?_) (by simp [OnCpuPc.fresh])
    (by simp) (by simp) (by decide)
    h.unissued
  · by_cases hc : c' = r.cpu <;> simp [hc, hne]
  · by_cases hc : c' = r.cpu
    · have hlast : ∀ q ∈ s.pending r.cpu, q ≠ r := fun q hq => ne_of_mem_of_not_mem hq (hnot r.cpu)
      simpa [hc, List.nodup_append, h.nodup] using hlast
    · simp [hc, h.nodup]
  · by_cases hc : c' = r.cpu <;> simp [hc, hnot]
  · rw [hm] at hrun
    cases hrun

theorem Smp.Placed.beginMain (h : s.Placed) (hm : s.main c = .onCpu .call r k) :
    ((beginRun s r c r.function r.data).setMain c (.onCpu .run r k)).Placed := by
  obtain ⟨hr, hcaller⟩ := h.known c _ r k hm
  have hphase := h.fresh c _ r k hm rfl
  have hnot := h.not_queued (by rw [hphase]; decide : s.phase r.serial ≠ .sent)
  refine h.moveMain rfl rfl rfl (known_iff_or_eq hr) hcaller (fun _ _ _ => Iff.rfl) h.nodup
    (fun c' => iff_of_false (hnot c') (by simp)) (h.not_served_of_issued hphase)
    (fun q k' hrun => ?_) (by simp [OnCpuPc.fresh]) (by simp)
    (fun _ => h.self c _ r k hm (Or.inl rfl)) (by decide) h.unissued
  rw [hm] at hrun
  cases hrun

theorem Smp.Placed.endMain (h : s.Placed) (hm : s.main c = .onCpu .run r k)
    (hidle : s.handler c = .idle) :
    ((endRun s r c r.function r.data).setMain c (.onCpu .unlock r k)).Placed := by
  obtain ⟨hr, hcaller⟩ := h.known c _ r k hm
  have hphase := h.run c r k hm
  have hcpu := h.self c _ r k hm (Or.inr rfl)
  have hnot := h.not_queued (by rw [hphase]; decide : s.phase r.serial ≠ .sent)
  refine h.moveMain rfl rfl rfl (known_iff_or_eq hr) hcaller (fun _ _ _ => Iff.rfl) h.nodup
    (fun c' => iff_of_false (hnot c') (by simp)) (fun c' hq => ?_) (fun q k' hrun => ?_)
    (by simp [OnCpuPc.fresh]) (by simp) (by simp) (by decide) h.unissued
  · have hc : c = c' := hcpu.symm.trans (h.served c' r hq).2.1
    rw [← hc, hidle] at hq
    cases hq
  · rw [hm] at hrun
    cases hrun
    rfl

/-- A step of the handler of `c` that takes its request `q` over or moves it to the next phase, and
nothing else. The state `S` has the new pending IPIs. -/
theorem Smp.Placed.moveHandler {S : Smp n F D} {i : IpiHandler n F D} (h : s.Placed)
    (hmain : S.main = s.main) (hhandler : S.handler = s.handler) (hphase : S.phase = s.phase)
    (hrequests : S.requests = s.requests) (hq : Known s.requests q) (hcpu : q.cpu = c)
    (hpending : ∀ c' q', q' ≠ q → (q' ∈ S.pending c' ↔ q' ∈ s.pending c'))
    (hnodup : ∀ c', (S.pending c').Nodup) (hqueued : ∀ c', q ∉ S.pending c')
    (hi : i.request = some q) (hbefore : ∀ q', (s.handler c).request = some q' → q' = q)
    (hcaller : ∀ c' pc k, s.main c' = .onCpu pc q k → pc.fresh = false ∧ pc ≠ .run) :
    ((S.setPhase q i.phase).setHandler c i).Placed := by
  have hother : ∀ q', Known s.requests q' → q' ≠ q →
      (S.setPhase q i.phase).phase q'.serial = s.phase q'.serial := by
    intro q' hq' hne
    rw [Smp.setPhase_of_ne fun heq => hne (Known.eq hq' hq heq), hphase]
  have hmine : (((S.setPhase q i.phase).setHandler c i).handler q.cpu).request = some q := by
    rw [hcpu, Smp.setHandler_self, hi]
  -- the other requests stay in their handlers
  have hkeep : ∀ q', q' ≠ q → (s.handler q'.cpu).request = some q' →
      (((S.setPhase q i.phase).setHandler c i).handler q'.cpu).request = some q' := by
    intro q' hne hq'
    have hc : q'.cpu ≠ c := fun heq => hne (hbefore q' (heq ▸ hq'))
    rw [Smp.setHandler_of_ne hc]
    change (S.handler q'.cpu).request = some q'
    rw [hhandler]
    exact hq'
  exact
  { known := by
      intro c' pc r k hm
      obtain ⟨hr, hc⟩ := h.known c' pc r k ((congrFun hmain c').symm.trans hm)
      exact ⟨hrequests ▸ hr, hc⟩
    fresh := by
      intro c' pc r k hm hpc
      have hm' : s.main c' = .onCpu pc r k := (congrFun hmain c').symm.trans hm
      have hne : r ≠ q := by
        rintro rfl
        exact absurd ((hcaller c' pc k hm').1.symm.trans hpc) Bool.false_ne_true
      exact (hother r (h.known c' pc r k hm').1 hne).trans (h.fresh c' pc r k hm' hpc)
    run := by
      intro c' r k hm
      have hm' : s.main c' = .onCpu .run r k := (congrFun hmain c').symm.trans hm
      have hne : r ≠ q := by
        rintro rfl
        exact absurd rfl (hcaller c' .run k hm').2
      exact (hother r (h.known c' .run r k hm').1 hne).trans (h.run c' r k hm')
    self := fun c' pc r k hm => h.self c' pc r k ((congrFun hmain c').symm.trans hm)
    queued := by
      intro c' q' hq'
      have hne : q' ≠ q := by
        rintro rfl
        exact hqueued c' hq'
      obtain ⟨hk, hc, hsent⟩ := h.queued c' q' ((hpending c' q' hne).mp hq')
      exact ⟨hrequests ▸ hk, hc, (hother q' hk hne).trans hsent⟩
    nodup := hnodup
    served := by
      intro c' q' hq'
      by_cases hc : c' = c
      · subst hc
        rw [Smp.setHandler_self] at hq' ⊢
        obtain rfl : q = q' := Option.some.inj (hi.symm.trans hq')
        exact ⟨hrequests ▸ hq, hcpu, Smp.setPhase_self _⟩
      · rw [Smp.setHandler_of_ne hc] at hq' ⊢
        change (S.handler c').request = some q' at hq'
        rw [hhandler] at hq'
        obtain ⟨hk, hc', hp⟩ := h.served c' q' hq'
        have hne : q' ≠ q := by
          rintro rfl
          exact hc (hc'.symm.trans hcpu)
        exact ⟨hrequests ▸ hk, hc', (hother q' hk hne).trans (hp.trans (by rw [← hhandler]; rfl))⟩
    sent := by
      intro q' hk hp
      have hk' : Known s.requests q' := hrequests ▸ hk
      have hne : q' ≠ q := by
        rintro rfl
        have hi' : i.phase = .sent := (Smp.setPhase_self _).symm.trans hp
        rcases i.phase_cases with hp' | hp' | hp' <;> exact absurd (hi'.symm.trans hp') (by decide)
      exact (hpending q'.cpu q' hne).mpr (h.sent q' hk' ((hother q' hk' hne).symm.trans hp))
    delivered := by
      intro q' hk hp
      have hk' : Known s.requests q' := hrequests ▸ hk
      by_cases hne : q' = q
      · exact hne ▸ hmine
      · exact hkeep q' hne (h.delivered q' hk' ((hother q' hk' hne).symm.trans hp))
    running := by
      intro q' hk hp
      have hk' : Known s.requests q' := hrequests ▸ hk
      by_cases hne : q' = q
      · exact Or.inl (hne ▸ hmine)
      · rcases h.running q' hk' ((hother q' hk' hne).symm.trans hp) with hhandled | ⟨k, hm⟩
        · exact Or.inl (hkeep q' hne hhandled)
        · exact Or.inr ⟨k, (congrFun hmain _).trans hm⟩
    unissued := by
      intro j hj
      have hlength : s.requests.length ≤ j := hrequests ▸ hj
      have hne : j ≠ q.serial := fun heq => absurd hq.lt (Nat.not_lt_of_le (heq ▸ hlength))
      exact (Smp.setPhase_of_ne hne _).trans ((congrFun hphase j).trans (h.unissued j hlength)) }

/-- The caller of a request that is sent or served has neither to start it nor runs it. -/
theorem Smp.Placed.caller_of_phase (h : s.Placed) (hissued : s.phase q.serial ≠ .issued)
    (hrunning : s.phase q.serial = .running → ∀ r k, s.main q.cpu ≠ .onCpu .run r k) {c' : Fin n}
    (hm : s.main c' = .onCpu pc q k) : pc.fresh = false ∧ pc ≠ .run := by
  constructor
  · exact Bool.eq_false_iff.mpr fun hfresh => hissued (h.fresh c' pc q k hm hfresh)
  · rintro rfl
    have hcpu := h.self c' .run q k hm (Or.inr rfl)
    exact hrunning (h.run c' q k hm) q k (hcpu ▸ hm)

theorem Smp.Placed.deliver (h : s.Placed) (hidle : s.handler c = .idle)
    {rest : List (IpiRequest n F D)} (hpending : s.pending c = q :: rest) :
    (({ s with pending := Function.update s.pending c rest }.setPhase q .delivered).setHandler c
        (.readFunction q)).Placed := by
  obtain ⟨hknown, hcpu, hsent⟩ := h.queued c q (by rw [hpending]; exact List.mem_cons_self)
  have hnodup := h.nodup c
  rw [hpending, List.nodup_cons] at hnodup
  refine h.moveHandler (i := .readFunction q) rfl rfl rfl rfl hknown hcpu (fun c' q' hne => ?_)
    (fun c' => ?_) (fun c' => ?_) rfl (fun q' hq' => ?_) fun c' pc k hm => ?_
  · by_cases hc : c' = c
    · simp [hc, hpending, hne]
    · simp [hc]
  · by_cases hc : c' = c
    · simp [hc, hnodup.2]
    · simp [hc, h.nodup]
  · by_cases hc : c' = c
    · simp [hc, hnodup.1]
    · have hnot : q ∉ s.pending c' := fun hmem => hc ((h.queued c' q hmem).2.1.symm.trans hcpu)
      simp [hc, hnot]
  · rw [hidle] at hq'
    cases hq'
  · exact h.caller_of_phase (by rw [hsent]; decide)
      (fun hp => absurd (hsent.symm.trans hp) (by decide)) hm

/-- The handler calls the function, or the function returns. -/
theorem Smp.Placed.advanceHandler (h : s.Placed) {i : IpiHandler n F D}
    (hq : (s.handler c).request = some q) (hi : i.request = some q)
    (hphase : (s.handler c).phase = .delivered ∧ i.phase = .running ∨
      (s.handler c).phase = .running ∧ i.phase = .finished ∧ ∀ r k, s.main c ≠ .onCpu .run r k) :
    ((s.setPhase q i.phase).setHandler c i).Placed := by
  obtain ⟨hknown, rfl, hserved⟩ := h.served c q hq
  have hnot : ∀ p, p ≠ .delivered → p ≠ .running → s.phase q.serial ≠ p := by
    intro p hdelivered hrunning heq
    rcases hphase with ⟨hp, -⟩ | ⟨hp, -⟩
    · exact hdelivered (heq.symm.trans (hserved.trans hp))
    · exact hrunning (heq.symm.trans (hserved.trans hp))
  refine h.moveHandler rfl rfl rfl rfl hknown rfl (fun _ _ _ => Iff.rfl) h.nodup
    (h.not_queued (hnot .sent (by decide) (by decide))) hi
    (fun q' hq' => Option.some.inj (hq'.symm.trans hq))
    fun c' pc k hm => h.caller_of_phase (hnot .issued (by decide) (by decide))
      (fun hrunning => ?_) hm
  rcases hphase with ⟨hp, -⟩ | ⟨-, -, hnone⟩
  · exact absurd (hrunning.symm.trans (hserved.trans hp)) (by decide)
  · exact hnone

/-! ### The mailbox -/

/-- While the holder of the lock does not spin, or has been acknowledged, no IPI is in flight. -/
theorem Smp.Mail.no_flight (h : s.Mail) (ho : s.Owned) (hm : s.main c = .onCpu pc r k)
    (hholds : pc.holds = true) (hpc : pc ≠ .spin ∨ s.ipiDone = true) (c' : Fin n)
    (q : IpiRequest n F D) : ¬ s.InFlight c' q := by
  intro hflight
  obtain ⟨⟨o, k', ho'⟩, hdone, -⟩ := h.flight c' q hflight
  have heq : o = c := ho.unique o c (by rw [ho']; rfl) (by rw [hm]; exact hholds)
  subst heq
  rw [hm] at ho'
  injection ho' with hspin
  rcases hpc with hne | hacked
  · exact hne hspin
  · exact Bool.false_ne_true (hdone.symm.trans hacked)

/-- The IPI in flight is that of the spinning main context. -/
theorem Smp.Mail.flight_eq (h : s.Mail) (ho : s.Owned) (hm : s.main c = .onCpu .spin r k)
    {c' : Fin n} (hflight : s.InFlight c' q) : q = r := by
  obtain ⟨⟨o, k', ho'⟩, -⟩ := h.flight c' q hflight
  have heq : o = c := ho.unique o c (by rw [ho']; rfl) (by rw [hm]; rfl)
  subst heq
  rw [hm] at ho'
  injection ho' with _ hr
  exact hr.symm

theorem Smp.Mail.setMain (h : s.Mail) (hidle : s.handler c = .idle) (m : MainContext n F D)
    (hspin : ∀ r k, s.main c = .onCpu .spin r k → ∀ c' q, ¬ s.InFlight c' q)
    (hremote : ∀ pc r k, m = .onCpu pc r k → pc.remote = true → r.cpu ≠ c)
    (hwritten : ∀ pc r k, m = .onCpu pc r k → s.Written r pc ∧ pc ≠ .spin)
    (hunlock : ∀ r k, m = .onCpu .unlock r k → r.wait = true → s.phase r.serial = .finished) :
    (s.setMain c m).Mail where
  remote := by
    intro c' pc r k hmain
    rcases Smp.setMain_cases hmain with ⟨rfl, heq⟩ | ⟨-, heq⟩
    · exact hremote pc r k heq
    · exact h.remote c' pc r k heq
  idle := by
    intro c' hholds
    by_cases hc : c' = c
    · exact hc ▸ hidle
    · rw [Smp.setMain_of_ne hc] at hholds
      exact h.idle c' hholds
  written := by
    intro c' pc r k hmain
    rcases Smp.setMain_cases hmain with ⟨-, heq⟩ | ⟨-, heq⟩
    · exact (hwritten pc r k heq).1
    · exact h.written c' pc r k heq
  flight := by
    intro c' q hflight
    obtain ⟨⟨o, k, ho⟩, hholds⟩ := h.flight c' q hflight
    have hne : o ≠ c := fun heq => hspin q k (heq ▸ ho) c' q hflight
    exact ⟨⟨o, k, (Smp.setMain_of_ne hne m).trans ho⟩, hholds⟩
  right := h.right
  acked := by
    intro c' r k hmain
    rcases Smp.setMain_cases hmain with ⟨-, heq⟩ | ⟨-, heq⟩
    · exact absurd rfl (hwritten .spin r k heq).2
    · exact h.acked c' r k heq
  unlock := by
    intro c' r k hmain
    rcases Smp.setMain_cases hmain with ⟨-, heq⟩ | ⟨-, heq⟩
    · exact hunlock r k heq
    · exact h.unlock c' r k heq

theorem Smp.Mail.setPhase (h : s.Mail) {p : RequestPhase}
    (hp : s.phase q.serial ≠ .finished ∨ p = .finished) : (s.setPhase q p).Mail := by
  have hkeep : ∀ j, s.phase j = .finished → (s.setPhase q p).phase j = .finished := by
    intro j hj
    by_cases hserial : j = q.serial
    · subst hserial
      rw [Smp.setPhase_self]
      exact hp.resolve_left (not_not.mpr hj)
    · rw [Smp.setPhase_of_ne hserial]
      exact hj
  exact
  { h with
    acked := fun c r k hm hdone hwait => hkeep _ (h.acked c r k hm hdone hwait)
    unlock := fun c r k hm hwait => hkeep _ (h.unlock c r k hm hwait) }

/-- The holder of the lock writes to the mailbox before it sends the IPI. -/
theorem Smp.Mail.write {s' : Smp n F D} (h : s.Mail) (ho : s.Owned) (hm : s.main c = .onCpu pc r k)
    (hpc : pc.remote = true) (hspin : pc ≠ .spin) (hmain : s'.main = s.main)
    (hhandler : s'.handler = s.handler) (hpending : s'.pending = s.pending)
    (hpc' : pc'.remote = true) (hspin' : pc' ≠ .spin) (hwritten : s'.Written r pc') :
    (s'.setMain c (.onCpu pc' r k)).Mail := by
  have hholds : pc.holds = true := by cases pc <;> first | rfl | exact absurd hpc Bool.false_ne_true
  have hc : (s.main c).holds = true := by
    rw [hm]
    exact hholds
  have hflight := h.no_flight ho hm hholds (Or.inl hspin)
  exact
  { remote := by
      intro c' pc'' r' k' hm' hpc''
      rcases ho.step_cases hc hmain hm' with ⟨rfl, heq⟩ | rfl
      · cases heq
        exact h.remote c' pc r k hm hpc
      · exact absurd hpc'' Bool.false_ne_true
    idle := by
      intro c' hc'
      rw [show (s'.setMain c (.onCpu pc' r k)).handler = s.handler from hhandler]
      by_cases heq : c' = c
      · exact h.idle c' (heq ▸ hc)
      · rw [Smp.setMain_of_ne heq, hmain] at hc'
        exact h.idle c' hc'
    written := by
      intro c' pc'' r' k' hm'
      rcases ho.step_cases hc hmain hm' with ⟨-, heq⟩ | rfl
      · cases heq
        exact hwritten
      · trivial
    flight := by
      intro c' q hq
      unfold Smp.InFlight at hq
      rw [show (s'.setMain c (.onCpu pc' r k)).pending = s.pending from hpending,
        show (s'.setMain c (.onCpu pc' r k)).handler = s.handler from hhandler] at hq
      exact absurd hq (hflight c' q)
    right := by
      intro c'
      rw [show (s'.setMain c (.onCpu pc' r k)).handler = s.handler from hhandler]
      exact h.right c'
    acked := by
      intro c' r' k' hm'
      rcases ho.step_cases hc hmain hm' with ⟨-, heq⟩ | heq
      · cases heq
        exact absurd rfl hspin'
      · cases heq
    unlock := by
      intro c' r' k' hm'
      rcases ho.step_cases hc hmain hm' with ⟨-, heq⟩ | heq
      · cases heq
        exact absurd hpc' Bool.false_ne_true
      · cases heq }

theorem Smp.Mail.send (h : s.Mail) (ho : s.Owned) (hm : s.main c = .onCpu .icr r k) :
    (({ s with pending := Function.update s.pending r.cpu (s.pending r.cpu ++ [r]) }.setPhase r
        .sent).setMain c (.onCpu .spin r k)).Mail := by
  have hc : (s.main c).holds = true := by
    rw [hm]
    rfl
  have hflight := h.no_flight ho hm rfl (Or.inl (by decide))
  have hholds : s.Holds r := h.written c _ r k hm
  exact
  { remote := by
      intro c' pc r' k' hm' hpc
      rcases ho.step_cases hc rfl hm' with ⟨rfl, heq⟩ | rfl
      · cases heq
        exact h.remote c' _ r k hm rfl
      · exact absurd hpc Bool.false_ne_true
    idle := by
      intro c' hc'
      by_cases heq : c' = c
      · exact h.idle c' (heq ▸ hc)
      · rw [Smp.setMain_of_ne heq] at hc'
        exact h.idle c' hc'
    written := by
      intro c' pc r' k' hm'
      rcases ho.step_cases hc rfl hm' with ⟨-, heq⟩ | rfl
      · cases heq
        trivial
      · trivial
    flight := by
      intro c' q hq
      have heq : q = r := by
        by_contra hne
        apply hflight c' q
        rcases hq with hq | hq
        · left
          by_cases hc' : c' = r.cpu
          · simpa [Smp.setMain, Smp.setPhase, hc', hne] using hq
          · simpa [Smp.setMain, Smp.setPhase, hc'] using hq
        · exact Or.inr hq
      rw [heq]
      exact ⟨⟨c, k, Smp.setMain_self _⟩, hholds⟩
    right := h.right
    acked := fun _ _ _ _ hdone => absurd (hholds.1.symm.trans hdone) Bool.false_ne_true
    unlock := by
      intro c' r' k' hm'
      rcases ho.step_cases hc rfl hm' with ⟨-, heq⟩ | heq <;> cases heq }

theorem Smp.right_setHandler (h : ∀ c', (s.handler c').Right) {i : IpiHandler n F D} (hi : i.Right)
    (c' : Fin n) :
    ((s.setHandler c i).handler c').Right := by
  by_cases hc : c' = c
  · rw [hc, Smp.setHandler_self]
    exact hi
  · rw [Smp.setHandler_of_ne hc]
    exact h c'

/-- A handler of a processor whose main context does not hold the lock takes a step. -/
theorem Smp.Mail.idle_setHandler (h : s.Mail) (hc : (s.main c).holds = false)
    (i : IpiHandler n F D) {c' : Fin n} (hholds : (s.main c').holds = true) :
    (s.setHandler c i).handler c' = .idle := by
  have hne : c' ≠ c := by
    rintro rfl
    exact absurd (hc.symm.trans hholds) Bool.false_ne_true
  rw [Smp.setHandler_of_ne hne]
  exact h.idle c' hholds

/-- A busy handler interrupts a main context that does not hold the lock. -/
theorem Smp.Mail.free_of_busy (h : s.Mail) (hbusy : s.handler c ≠ .idle) :
    (s.main c).holds = false :=
  Bool.eq_false_iff.mpr fun hholds => hbusy (h.idle c hholds)

theorem Smp.Mail.deliver (h : s.Mail) (ho : s.Owned) (hp : s.Placed)
    {rest : List (IpiRequest n F D)} (hpending : s.pending c = q :: rest) :
    (({ s with pending := Function.update s.pending c rest }.setPhase q .delivered).setHandler c
        (.readFunction q)).Mail := by
  have hmem : q ∈ s.pending c := by
    rw [hpending]
    exact List.mem_cons_self
  obtain ⟨⟨o, k, hspin⟩, hholds⟩ := h.flight c q (Or.inl hmem)
  have howner : (s.main o).holds = true := by
    rw [hspin]
    rfl
  -- the target of the IPI does not hold the lock: the sender does
  have hne : c ≠ o := by
    rintro rfl
    exact h.remote c _ q k hspin rfl (hp.queued c q hmem).2.1
  have hfree : (s.main c).holds = false := ho.other_free howner hne
  exact
  { remote := h.remote
    idle := fun c' hc' => h.idle_setHandler hfree (.readFunction q) hc'
    written := h.written
    flight := by
      intro c' q' hq'
      apply h.flight c'
      by_cases hc : c' = c
      · left
        rw [hc, hpending]
        simpa [Smp.InFlight, Smp.setHandler, Smp.setPhase, hc, IpiHandler.unacked,
          IpiHandler.request, or_comm, eq_comm] using hq'
      · simpa [Smp.InFlight, Smp.setHandler, Smp.setPhase, hc] using hq'
    right := fun c' => Smp.right_setHandler h.right (i := .readFunction q) trivial c'
    acked := fun _ _ _ _ hdone => absurd (hholds.1.symm.trans hdone) Bool.false_ne_true
    unlock := by
      intro c' r' k' hm'
      by_cases hc : c' = o
      · rw [hc] at hm'
        cases hspin.symm.trans hm'
      · cases ho.lock_of_other howner hc hm' }

theorem Smp.Mail.setHandler (h : s.Mail) {i : IpiHandler n F D} (hbusy : s.handler c ≠ .idle)
    (hright : i.Right) (hflight : ∀ q, i.unacked = true → i.request = some q → s.InFlight c q) :
    (s.setHandler c i).Mail :=
  { h with
    idle := fun c' hc' => h.idle_setHandler (h.free_of_busy hbusy) i hc'
    flight := by
      intro c' q hq
      apply h.flight c'
      by_cases hc : c' = c
      · simp only [Smp.InFlight, Smp.setHandler, hc, Function.update_self] at hq
        rcases hq with hq | ⟨hunacked, hq⟩
        · exact hc ▸ Or.inl hq
        · exact hc ▸ hflight q hunacked hq
      · simpa only [Smp.InFlight, Smp.setHandler, Function.update_of_ne hc] using hq
    right := fun c' => Smp.right_setHandler h.right hright c' }

theorem Smp.Placed.cpu_of_inFlight (hp : s.Placed) {c' : Fin n} (h : s.InFlight c' q) :
    q.cpu = c' := by
  rcases h with hq | ⟨-, hq⟩
  · exact (hp.queued c' q hq).2.1
  · exact (hp.served c' q hq).2.1

/-- The handler acknowledges its request: no IPI is in flight any more. -/
theorem Smp.Mail.acknowledge (h : s.Mail) (ho : s.Owned) (hp : s.Placed) {i : IpiHandler n F D}
    (hunacked : (s.handler c).unacked = true) (hq : (s.handler c).request = some q)
    (hfinished : q.wait = true → s.phase q.serial = .finished) (hi : i.unacked = false)
    (hright : i.Right) : ({ s with ipiDone := true }.setHandler c i).Mail := by
  obtain ⟨-, hcpu, hserved⟩ := hp.served c q hq
  obtain ⟨⟨o, k, hspin⟩, -⟩ := h.flight c q (Or.inr ⟨hunacked, hq⟩)
  have howner : (s.main o).holds = true := by
    rw [hspin]
    rfl
  have hbusy : s.handler c ≠ .idle := by
    intro hidle
    rw [hidle] at hq
    cases hq
  -- a main context is that of the sender, or it waits for the lock
  have hcases : ∀ c' pc r k', s.main c' = .onCpu pc r k' → pc = .spin ∧ r = q ∨ pc = .lock := by
    intro c' pc r k' hm
    by_cases hc : c' = o
    · rw [hc] at hm
      cases hspin.symm.trans hm
      exact Or.inl ⟨rfl, rfl⟩
    · exact Or.inr (ho.lock_of_other howner hc hm)
  exact
  { remote := h.remote
    idle := fun c' hc' => h.idle_setHandler (h.free_of_busy hbusy) i hc'
    written := by
      intro c' pc r k' hm
      rcases hcases c' pc r k' hm with ⟨rfl, -⟩ | rfl <;> trivial
    flight := by
      intro c' q' hf
      exfalso
      have hold : s.InFlight c' q' ∧ (c' = c → q' ∈ s.pending c) := by
        by_cases hc : c' = c
        · have hqueued : q' ∈ s.pending c := by
            simpa [Smp.InFlight, Smp.setHandler, hc, hi] using hf
          exact ⟨hc ▸ Or.inl hqueued, fun _ => hqueued⟩
        · exact ⟨by simpa [Smp.InFlight, Smp.setHandler, hc] using hf, fun heq => absurd heq hc⟩
      obtain rfl : q' = q := h.flight_eq ho hspin hold.1
      -- the request is in the handler of `c`, and not pending
      have hqueued := hold.2 ((hp.cpu_of_inFlight hold.1).symm.trans hcpu)
      have hsent := (hp.queued c q' hqueued).2.2
      rcases (s.handler c).phase_cases with hphase | hphase | hphase <;>
        exact absurd (hsent.symm.trans (hserved.trans hphase)) (by decide)
    right := fun c' => Smp.right_setHandler h.right hright c'
    acked := by
      intro c' r k' hm _ hwait
      rcases hcases c' .spin r k' hm with ⟨-, rfl⟩ | heq
      · exact hfinished hwait
      · cases heq
    unlock := h.unlock }

end Steps

end AcrnGuest
