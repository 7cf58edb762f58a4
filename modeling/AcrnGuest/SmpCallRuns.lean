import AcrnGuest.SmpCallMail

/-!
# Every requested function runs once

The counter `active_cpus` is one more than the number of processors that a request
keeps busy (`Smp.Counted`), the logs of the function calls agree with the phases of
the requests (`Smp.Logged`), and a call that has returned has left its requests in
the phase that its caller relies on (`Smp.Answered`). Together with the invariants
of the mailbox these hold in every run.
-/

namespace AcrnGuest

section Invariants

variable {n : Nat} {F D : Type}

/-! ### The counter -/

def OnCpuPc.counted : OnCpuPc → Bool
  | .clearDone | .setFunction | .setData | .setWait | .icr => true
  | _ => false

def IpiHandler.counted : IpiHandler n F D → Bool
  | .idle | .late _ | .iret => false
  | _ => true

/-- A main context whose request is counted and not yet delivered. -/
def MainContext.counted (phase : Nat → RequestPhase) : MainContext n F D → Bool
  | .onCpu .spin r _ => decide (phase r.serial = .sent)
  | .onCpu pc _ _ => pc.counted
  | _ => false

def Smp.busy (s : Smp n F D) (c : Fin n) : Bool :=
  (s.handler c).counted || (s.main c).counted s.phase

def Smp.load (s : Smp n F D) : Nat :=
  (Finset.univ.filter fun c => s.busy c = true).card

def Smp.Counted (s : Smp n F D) : Prop :=
  s.activeCpus = BitVec.ofNat 32 (1 + s.load)

/-! ### The logs -/

def IpiRequest.run (q : IpiRequest n F D) : FunctionRun n F D :=
  ⟨q, q.cpu, q.function, q.data⟩

structure Smp.Logged (s : Smp n F D) : Prop where
  started : ∀ run ∈ s.started, run = run.q.run ∧ Known s.requests run.q ∧
    (s.phase run.q.serial = .running ∨ s.phase run.q.serial = .finished)
  started_nodup : (s.started.map fun run => run.q.serial).Nodup
  begun : ∀ q, Known s.requests q → s.phase q.serial = .running → q.run ∈ s.started
  finished : ∀ run ∈ s.finished, run ∈ s.started ∧ s.phase run.q.serial = .finished
  finished_nodup : (s.finished.map fun run => run.q.serial).Nodup
  complete : ∀ q, Known s.requests q → s.phase q.serial = .finished → q.run ∈ s.finished

/-! ### The calls -/

def Smp.Launched (s : Smp n F D) (q : IpiRequest n F D) : Prop :=
  Known s.requests q ∧ s.phase q.serial ≠ .unissued ∧ s.phase q.serial ≠ .issued

def Smp.Done (s : Smp n F D) (q : IpiRequest n F D) : Prop :=
  Known s.requests q ∧ s.phase q.serial = .finished

/-- The requests of `on_cpus` on processor `c` for the processors from `low` up. -/
structure Smp.Batch (s : Smp n F D) (c : Fin n) (f : F) (d : D) (low : Nat)
    (batch : List (IpiRequest n F D)) : Prop where
  member : ∀ q ∈ batch, q.caller = c ∧ q.function = f ∧ q.data = d ∧ low ≤ q.cpu.val
  launched : ∀ q ∈ batch, s.Launched q
  every : ∀ cpu : Fin n, low ≤ cpu.val → ∃ q ∈ batch, q.cpu = cpu
  unique : ∀ q ∈ batch, ∀ q' ∈ batch, q.cpu = q'.cpu → q = q'

/-- What a call can rely on. -/
def Smp.CallOk (s : Smp n F D) (c : Fin n) : MainContext n F D → Prop
  | .idle => True
  | .onCpu pc r k =>
      (pc = .spin ∨ pc = .unlock → s.Launched r) ∧
        ∀ earlier, k = .cpus earlier → s.Batch c r.function r.data (r.cpu.val + 1) earlier
  | .cpusActive f d batch => s.Batch c f d 0 batch
  | .returned r => r.wait = true → s.Done r
  | .returnedAll f d batch => s.Batch c f d 0 batch ∧ ∀ q ∈ batch, s.Done q

def Smp.Answered (s : Smp n F D) : Prop :=
  ∀ c, s.CallOk c (s.main c)

end Invariants

section Steps

variable {n : Nat} {F D : Type} {s s' : Smp n F D} {c : Fin n} {pc pc' : OnCpuPc}
  {q r : IpiRequest n F D} {k : OnCpuCaller n F D}

theorem Smp.load_congr (h : ∀ c, s'.busy c = s.busy c) : s'.load = s.load :=
  congrArg Finset.card (Finset.filter_congr fun c _ => by rw [h c])

theorem Smp.load_insert (hc : s.busy c = false) (hc' : s'.busy c = true)
    (h : ∀ c', c' ≠ c → s'.busy c' = s.busy c') : s'.load = s.load + 1 := by
  have hnot : c ∉ Finset.univ.filter fun c => s.busy c = true := by simp [hc]
  unfold Smp.load
  rw [← Finset.card_insert_of_notMem hnot]
  refine congrArg Finset.card (Finset.ext fun c' => ?_)
  by_cases heq : c' = c
  · simp [heq, hc']
  · simp [heq, h c' heq]

/-- Processor `o` stops being busy and `c` starts. -/
theorem Smp.load_move {o : Fin n} (hne : c ≠ o) (ho : s.busy o = true) (ho' : s'.busy o = false)
    (hc : s.busy c = false) (hc' : s'.busy c = true)
    (h : ∀ c', c' ≠ c → c' ≠ o → s'.busy c' = s.busy c') : s'.load = s.load := by
  have hmem : o ∈ Finset.univ.filter fun c => s.busy c = true := by simp [ho]
  have hset : (Finset.univ.filter fun c => s'.busy c = true) =
      insert c ((Finset.univ.filter fun c => s.busy c = true).erase o) := by
    ext c'
    by_cases heq : c' = c
    · simp [heq, hc']
    · by_cases heq' : c' = o
      · simp [heq', ho', Ne.symm hne]
      · simp [heq, heq', h c' heq heq']
  unfold Smp.load
  rw [hset, Finset.card_insert_of_notMem (by simp [hc]), Finset.card_erase_add_one hmem]

theorem Smp.Counted.of_same (h : s.Counted) (hactive : s'.activeCpus = s.activeCpus)
    (hbusy : ∀ c, s'.busy c = s.busy c) : s'.Counted := by
  unfold Smp.Counted
  rw [hactive, Smp.load_congr hbusy]
  exact h

/-! ### Time -/

/-- The requests of `s` are at least as far in `s'`. -/
structure Smp.Later (s s' : Smp n F D) : Prop where
  known : ∀ q, Known s.requests q → Known s'.requests q
  launched : ∀ q, s.Launched q → s'.Launched q
  done : ∀ q, s.Done q → s'.Done q

theorem Smp.later_of_same (hrequests : s'.requests = s.requests) (hphase : s'.phase = s.phase) :
    s.Later s' := by
  constructor <;> intro q hq <;> simpa only [Smp.Launched, Smp.Done, hrequests, hphase] using hq

theorem Smp.Batch.later (hlater : s.Later s') {f : F} {d : D} {low : Nat}
    {batch : List (IpiRequest n F D)} (h : s.Batch c f d low batch) : s'.Batch c f d low batch :=
  { h with launched := fun q hq => hlater.launched q (h.launched q hq) }

theorem Smp.CallOk.later (hlater : s.Later s') {m : MainContext n F D} (h : s.CallOk c m) :
    s'.CallOk c m := by
  cases m with
  | idle => trivial
  | onCpu pc r k =>
      exact ⟨fun hpc => hlater.launched r (h.1 hpc), fun earlier hk =>
        (h.2 earlier hk).later hlater⟩
  | cpusActive f d batch => exact Smp.Batch.later hlater h
  | returned r => exact fun hwait => hlater.done r (h hwait)
  | returnedAll f d batch => exact ⟨h.1.later hlater, fun q hq => hlater.done q (h.2 q hq)⟩

theorem Smp.Answered.later (h : s.Answered) (hlater : s.Later s') (hmain : s'.main = s.main) :
    s'.Answered := by
  intro c
  rw [hmain]
  exact (h c).later hlater

theorem Smp.Answered.setMain (h : s.Answered) (m : MainContext n F D) (hm : s.CallOk c m) :
    (s.setMain c m).Answered := by
  intro c'
  have hlater : s.Later (s.setMain c m) := Smp.later_of_same rfl rfl
  by_cases hc : c' = c
  · subst hc
    simp only [Smp.setMain, Function.update_self]
    exact hm.later hlater
  · simp only [Smp.setMain, Function.update_of_ne hc]
    exact (h c').later hlater

theorem Smp.later_setPhase {p : RequestPhase} (hp : p ≠ .unissued) (hissued : p = .issued →
    s.phase q.serial = .unissued ∨ s.phase q.serial = .issued)
    (hfinished : s.phase q.serial = .finished → p = .finished) : s.Later (s.setPhase q p) := by
  constructor
  · exact fun _ => id
  · rintro r ⟨hknown, hnot⟩
    refine ⟨hknown, ?_⟩
    by_cases hr : r.serial = q.serial
    · rw [hr] at hnot ⊢
      rw [Smp.setPhase_self]
      exact ⟨hp, fun heq => (hissued heq).elim hnot.1 hnot.2⟩
    · rw [Smp.setPhase_of_ne hr]
      exact hnot
  · rintro r ⟨hknown, hdone⟩
    refine ⟨hknown, ?_⟩
    by_cases hr : r.serial = q.serial
    · rw [hr] at hdone ⊢
      rw [Smp.setPhase_self]
      exact hfinished hdone
    · rw [Smp.setPhase_of_ne hr]
      exact hdone

theorem Smp.later_append (hr : r.serial = s.requests.length) :
    s.Later ({ s with requests := s.requests ++ [r] }.setPhase r .issued) := by
  have hold : ∀ q, Known s.requests q → q.serial ≠ r.serial := fun q hq =>
    hr ▸ Nat.ne_of_lt hq.lt
  refine ⟨fun q hq => hq.append r, ?_, ?_⟩
  · rintro q ⟨hq, hlaunched⟩
    refine ⟨hq.append r, ?_⟩
    simpa only [Smp.setPhase, Function.update_of_ne (hold q hq)] using hlaunched
  · rintro q ⟨hq, hdone⟩
    refine ⟨hq.append r, ?_⟩
    simpa only [Smp.setPhase, Function.update_of_ne (hold q hq)] using hdone

/-! ### The logs along a step -/

theorem Smp.Logged.setPhase (h : s.Logged) {p : RequestPhase} (hp : p ≠ .running ∧ p ≠ .finished)
    (hq : s.phase q.serial ≠ .running ∧ s.phase q.serial ≠ .finished) :
    (s.setPhase q p).Logged := by
  have hsame : ∀ p', p ≠ p' → s.phase q.serial ≠ p' → ∀ j, (s.setPhase q p).phase j = p' ↔
      s.phase j = p' := by
    intro p' hp' hq' j
    by_cases hj : j = q.serial
    · rw [hj, Smp.setPhase_self]
      exact iff_of_false hp' hq'
    · rw [Smp.setPhase_of_ne hj]
  have hrunning := hsame .running hp.1 hq.1
  have hfinished := hsame .finished hp.2 hq.2
  exact
  { h with
    started := by
      intro run hrun
      obtain ⟨heq, hknown, hphase⟩ := h.started run hrun
      exact ⟨heq, hknown, hphase.imp (hrunning _).mpr (hfinished _).mpr⟩
    begun := fun q' hknown hphase => h.begun q' hknown ((hrunning _).mp hphase)
    finished := fun run hrun => ⟨(h.finished run hrun).1, (hfinished _).mpr (h.finished run hrun).2⟩
    complete := fun q' hknown hphase => h.complete q' hknown ((hfinished _).mp hphase) }

theorem Smp.Logged.append (h : s.Logged) (hp : s.Placed) (hr : r.serial = s.requests.length) :
    { s with requests := s.requests ++ [r] }.Logged := by
  have hnew : s.phase r.serial = .unissued := hp.unissued _ (Nat.le_of_eq hr.symm)
  exact
  { h with
    started := by
      intro run hrun
      obtain ⟨heq, hknown, hphase⟩ := h.started run hrun
      exact ⟨heq, hknown.append r, hphase⟩
    begun := by
      intro q hq hphase
      rcases (known_append_iff hr).mp hq with hold | rfl
      · exact h.begun q hold hphase
      · exact absurd (hnew.symm.trans hphase) (by decide)
    complete := by
      intro q hq hphase
      rcases (known_append_iff hr).mp hq with hold | rfl
      · exact h.complete q hold hphase
      · exact absurd (hnew.symm.trans hphase) (by decide) }

theorem nodup_map_append_run {runs : List (FunctionRun n F D)}
    (hruns : (runs.map fun run => run.q.serial).Nodup)
    (hnot : ∀ run ∈ runs, run.q.serial ≠ q.serial) :
    ((runs ++ [q.run]).map fun run => run.q.serial).Nodup := by
  rw [List.map_append, List.map_singleton, ← List.concat_eq_append, List.nodup_concat]
  refine ⟨fun hmem => ?_, hruns⟩
  obtain ⟨run, hrun, heq⟩ := List.mem_map.mp hmem
  exact hnot run hrun heq

section Log

variable {runs : List (FunctionRun n F D)} {p p' : RequestPhase}

/-- A log of the requests in a phase is one again when `q` enters the phase and is appended to the
log. -/
theorem mem_runs_append (h : ∀ q', Known s.requests q' → s.phase q'.serial = p → q'.run ∈ runs)
    (hq : Known s.requests q) :
    ∀ q', Known s.requests q' → (s.setPhase q p).phase q'.serial = p →
      q'.run ∈ runs ++ [q.run] := by
  intro q' hq' hp
  by_cases hserial : q'.serial = q.serial
  · exact List.mem_append_right _
      (List.mem_singleton.mpr (congrArg IpiRequest.run (Known.eq hq' hq hserial)))
  · rw [Smp.setPhase_of_ne hserial] at hp
    exact List.mem_append_left _ (h q' hq' hp)

/-- So it is when `q` enters another phase. -/
theorem mem_runs_of_ne (hne : p' ≠ p)
    (h : ∀ q', Known s.requests q' → s.phase q'.serial = p → q'.run ∈ runs) :
    ∀ q', Known s.requests q' → (s.setPhase q p').phase q'.serial = p → q'.run ∈ runs := by
  intro q' hq' hp
  by_cases hserial : q'.serial = q.serial
  · rw [hserial, Smp.setPhase_self] at hp
    exact absurd hp hne
  · rw [Smp.setPhase_of_ne hserial] at hp
    exact h q' hq' hp

end Log

theorem Smp.Logged.beginRun (h : s.Logged) (hq : Known s.requests q)
    (hphase : s.phase q.serial ≠ .running ∧ s.phase q.serial ≠ .finished) {f : F} {d : D}
    (hrun : FunctionRun.mk q c f d = q.run) : (beginRun s q c f d).Logged := by
  -- the runs so far are of other requests
  have hstarted : ∀ run ∈ s.started, run.q.serial ≠ q.serial := by
    intro run hmem heq
    have hp := (h.started run hmem).2.2
    rw [heq] at hp
    exact hp.elim hphase.1 hphase.2
  have hfinished : ∀ run ∈ s.finished, run.q.serial ≠ q.serial := fun run hmem =>
    hstarted run (h.finished run hmem).1
  unfold AcrnGuest.beginRun
  rw [hrun]
  exact
  { started := by
      intro run hmem
      rcases List.mem_append.mp hmem with hold | hnew
      · obtain ⟨heq, hknown, hp⟩ := h.started run hold
        rw [Smp.setPhase_of_ne (hstarted run hold)]
        exact ⟨heq, hknown, hp⟩
      · obtain rfl := List.mem_singleton.mp hnew
        exact ⟨rfl, hq, Or.inl (Smp.setPhase_self _)⟩
    started_nodup := nodup_map_append_run h.started_nodup hstarted
    begun := mem_runs_append h.begun hq
    finished := by
      intro run hmem
      rw [Smp.setPhase_of_ne (hfinished run hmem)]
      exact ⟨List.mem_append_left _ (h.finished run hmem).1, (h.finished run hmem).2⟩
    finished_nodup := h.finished_nodup
    complete := mem_runs_of_ne (by decide) h.complete }

theorem Smp.Logged.endRun (h : s.Logged) (hq : Known s.requests q)
    (hphase : s.phase q.serial = .running) {f : F} {d : D}
    (hrun : FunctionRun.mk q c f d = q.run) : (endRun s q c f d).Logged := by
  have hfinished : ∀ run ∈ s.finished, run.q.serial ≠ q.serial := by
    intro run hmem heq
    have hp := (h.finished run hmem).2
    rw [heq, hphase] at hp
    cases hp
  unfold AcrnGuest.endRun
  rw [hrun]
  exact
  { started := by
      intro run hmem
      obtain ⟨heq, hknown, hp⟩ := h.started run hmem
      refine ⟨heq, hknown, ?_⟩
      by_cases hserial : run.q.serial = q.serial
      · rw [hserial]
        exact Or.inr (Smp.setPhase_self _)
      · rw [Smp.setPhase_of_ne hserial]
        exact hp
    started_nodup := h.started_nodup
    begun := mem_runs_of_ne (by decide) h.begun
    finished := by
      intro run hmem
      rcases List.mem_append.mp hmem with hold | hnew
      · rw [Smp.setPhase_of_ne (hfinished run hold)]
        exact h.finished run hold
      · obtain rfl := List.mem_singleton.mp hnew
        exact ⟨h.begun q hq hphase, Smp.setPhase_self _⟩
    finished_nodup := nodup_map_append_run h.finished_nodup hfinished
    complete := mem_runs_append h.complete hq }

/-! ### All invariants along a step -/

structure Smp.Sound (s : Smp n F D) : Prop where
  owned : s.Owned
  placed : s.Placed
  mail : s.Mail
  counted : s.Counted
  logged : s.Logged
  answered : s.Answered

/-- A step of a main context that changes no more than its program counter and the
    static variables. -/
theorem Smp.Sound.stepMain (h : s.Sound) (hm : s.main c = .onCpu pc r k) (mem : IpiMemory F D)
    (hpc : pc ≠ .run) (hpc' : pc' ≠ .run) (hfresh : pc'.fresh = true → pc.fresh = true)
    (hself : pc' = .call → r.cpu = c) (hlaunched : pc' = .spin ∨ pc' = .unlock → s.Launched r)
    (howned : ({ s with toIpiMemory := mem }.setMain c (.onCpu pc' r k)).Owned)
    (hmail : ({ s with toIpiMemory := mem }.setMain c (.onCpu pc' r k)).Mail)
    (hcounted : ({ s with toIpiMemory := mem }.setMain c (.onCpu pc' r k)).Counted) :
    ({ s with toIpiMemory := mem }.setMain c (.onCpu pc' r k)).Sound where
  owned := howned
  placed := { h.placed.stepMain hm hpc hpc' hfresh hself with }
  mail := hmail
  counted := hcounted
  logged := { h.logged with }
  answered := by
    have hcall := h.answered c
    rw [hm] at hcall
    have hlater : s.Later { s with toIpiMemory := mem } := Smp.later_of_same rfl rfl
    exact (h.answered.later hlater rfl).setMain _
      ⟨fun hpc => hlater.launched r (hlaunched hpc), fun earlier hk =>
        (hcall.2 earlier hk).later hlater⟩

/-- A step of a main context in front of the mailbox. -/
theorem Smp.Mail.stepMain (h : s.Mail) (hidle : s.handler c = .idle) (hm : s.main c = .onCpu pc r k)
    (pc' : OnCpuPc) (hpc : pc ≠ .spin) (hpc' : pc' ≠ .spin) (hunlock : pc' ≠ .unlock)
    (hremote : pc'.remote = true → r.cpu ≠ c) (hwritten : s.Written r pc') :
    (s.setMain c (.onCpu pc' r k)).Mail := by
  refine h.setMain hidle _ (fun r' k' heq => ?_) (fun pc'' r' k' heq => ?_)
    (fun pc'' r' k' heq => ?_) fun r' k' heq => ?_
  · exact absurd (MainContext.onCpu.inj (hm.symm.trans heq)).1 hpc
  · cases heq
    exact hremote
  · cases heq
    exact ⟨hwritten, hpc'⟩
  · cases heq
    exact absurd rfl hunlock

/-- Only a spinning main context looks at the phase of a request. -/
theorem MainContext.counted_update {phase : Nat → RequestPhase} {p : RequestPhase}
    {m : MainContext n F D} (h : phase q.serial ≠ .sent ∧ p ≠ .sent ∨ ∀ r k, m ≠ .onCpu .spin r k) :
    m.counted (Function.update phase q.serial p) = m.counted phase := by
  cases m with
  | onCpu pc r k =>
      cases pc with
      | spin =>
          have hphase := h.resolve_right fun hne => hne r k rfl
          refine decide_eq_decide.mpr ?_
          by_cases hr : r.serial = q.serial
          · rw [hr, Function.update_self]
            exact iff_of_false hphase.2 hphase.1
          · rw [Function.update_of_ne hr]
      | _ => rfl
  | _ => rfl

theorem Smp.Counted.setMain (h : s.Counted) {m : MainContext n F D}
    (hm : (s.main c).counted s.phase = m.counted s.phase) : (s.setMain c m).Counted := by
  refine h.of_same rfl fun c' => ?_
  unfold Smp.busy
  by_cases hc : c' = c
  · rw [hc, Smp.setMain_self, hm]
    rfl
  · rw [Smp.setMain_of_ne hc]
    rfl

theorem Smp.Counted.setPhase (h : s.Counted) {p : RequestPhase} (hq : s.phase q.serial ≠ .sent)
    (hp : p ≠ .sent) :
    (s.setPhase q p).Counted := by
  refine h.of_same rfl fun c' => ?_
  simp only [Smp.busy, Smp.setPhase]
  rw [MainContext.counted_update (Or.inl ⟨hq, hp⟩)]

theorem Smp.Counted.setHandler (h : s.Counted) {i : IpiHandler n F D}
    (hi : i.counted = (s.handler c).counted) : (s.setHandler c i).Counted := by
  refine h.of_same rfl fun c' => ?_
  unfold Smp.busy
  by_cases hc : c' = c
  · rw [hc, Smp.setHandler_self, hi]
    rfl
  · rw [Smp.setHandler_of_ne hc]
    rfl

theorem Smp.Sound.lock (h : s.Sound) (hm : s.main c = .onCpu .lock r k)
    (hidle : s.handler c = .idle) (hfree : s.ipiLock = false) :
    ({ s with ipiLock := true }.setMain c (.onCpu .test r k)).Sound := by
  refine h.stepMain hm _ (by decide) (by decide) (fun _ => rfl) (by simp) (by simp)
    (h.owned.acquire hfree _) ?_ ?_
  · exact { h.mail.stepMain hidle hm .test (by decide) (by decide) (by decide)
      (by simp [OnCpuPc.remote]) trivial with }
  · exact h.counted.setMain (by rw [hm]; rfl)

theorem Smp.Sound.test (h : s.Sound) (hm : s.main c = .onCpu .test r k)
    (hidle : s.handler c = .idle) :
    (s.setMain c (.onCpu (if r.cpu = smpId c then .call else .inc) r k)).Sound := by
  have howned : ∀ pc', (s.setMain c (.onCpu pc' r k)).Owned := fun pc' =>
    h.owned.setMain fun _ => by rw [hm]; rfl
  by_cases hself : r.cpu = smpId c
  · rw [if_pos hself]
    refine h.stepMain hm _ (by decide) (by decide) (fun _ => rfl) (fun _ => hself) (by simp)
      (howned _) ?_ ?_
    · exact h.mail.stepMain hidle hm .call (by decide) (by decide) (by decide)
        (by simp [OnCpuPc.remote]) trivial
    · exact h.counted.setMain (by rw [hm]; rfl)
  · rw [if_neg hself]
    refine h.stepMain hm _ (by decide) (by decide) (fun _ => rfl) (by simp) (by simp)
      (howned _) ?_ ?_
    · exact h.mail.stepMain hidle hm .inc (by decide) (by decide) (by decide)
        (fun _ => hself) trivial
    · exact h.counted.setMain (by rw [hm]; rfl)

theorem Smp.Sound.inc (h : s.Sound) (hm : s.main c = .onCpu .inc r k)
    (hidle : s.handler c = .idle) :
    ({ s with activeCpus := s.activeCpus + 1#32 }.setMain c (.onCpu .clearDone r k)).Sound := by
  have hremote := h.mail.remote c _ r k hm rfl
  refine h.stepMain hm _ (by decide) (by decide) (fun _ => rfl) (by simp) (by simp) ?_ ?_ ?_
  · exact { h.owned.setMain (m := .onCpu .clearDone r k) fun _ => by rw [hm]; rfl with }
  · exact { h.mail.stepMain hidle hm .clearDone (by decide) (by decide) (by decide)
      (fun _ => hremote) trivial with }
  · have hload : ({ s with activeCpus := s.activeCpus + 1#32 }.setMain c
        (.onCpu .clearDone r k)).load = s.load + 1 := by
      refine Smp.load_insert (c := c) ?_ ?_ fun c' hne => ?_
      · simp [Smp.busy, hm, hidle, IpiHandler.counted, MainContext.counted, OnCpuPc.counted]
      · simp [Smp.busy, Smp.setMain, MainContext.counted, OnCpuPc.counted]
      · simp [Smp.busy, Smp.setMain, hne]
    unfold Smp.Counted
    rw [hload]
    change s.activeCpus + 1#32 = _
    rw [h.counted, ← BitVec.ofNat_add]
    rfl

/-- Where a main context is counted, it holds the lock and has neither called the function nor sent
    the IPI. -/
theorem OnCpuPc.of_counted (h : pc.counted = true) :
    pc.holds = true ∧ pc.fresh = true ∧ pc ≠ .call ∧ pc ≠ .run ∧ pc ≠ .spin ∧ pc ≠ .unlock := by
  revert h
  cases pc <;> decide

theorem MainContext.counted_of_pc (h : pc.counted = true) (phase : Nat → RequestPhase)
    (r : IpiRequest n F D) (k : OnCpuCaller n F D) :
    (MainContext.onCpu pc r k).counted phase = true := by
  cases pc <;> first | rfl | exact absurd h Bool.false_ne_true

theorem Smp.Sound.write (h : s.Sound) (hm : s.main c = .onCpu pc r k) (mem : IpiMemory F D)
    (hlock : mem.ipiLock = s.ipiLock) (hactive : mem.activeCpus = s.activeCpus)
    (hpc : pc.counted = true ∧ pc.remote = true ∧ pc ≠ .spin)
    (hpc' : pc'.counted = true ∧ pc'.remote = true ∧ pc' ≠ .spin)
    (hwritten : { s with toIpiMemory := mem }.Written r pc') :
    ({ s with toIpiMemory := mem }.setMain c (.onCpu pc' r k)).Sound := by
  obtain ⟨hholds, hfresh, -, hrun, -, -⟩ := OnCpuPc.of_counted hpc.1
  obtain ⟨-, -, hcall', hrun', hspin', hunlock'⟩ := OnCpuPc.of_counted hpc'.1
  refine h.stepMain hm mem hrun hrun' (fun _ => hfresh) (fun heq => absurd heq hcall')
    (fun heq => (heq.elim hspin' hunlock').elim) ?_ ?_ ?_
  · obtain ⟨hlocked, hunique⟩ :=
      h.owned.setMain (c := c) (m := .onCpu pc' r k) fun _ => by rw [hm]; exact hholds
    exact ⟨fun c' hc' => hlock.trans (hlocked c' hc'), hunique⟩
  · exact h.mail.write h.owned hm hpc.2.1 hpc.2.2 rfl rfl rfl hpc'.2.1 hpc'.2.2 hwritten
  · have hsame : (s.main c).counted s.phase = (MainContext.onCpu pc' r k).counted s.phase := by
      rw [hm, MainContext.counted_of_pc hpc.1, MainContext.counted_of_pc hpc'.1]
    exact (h.counted.setMain hsame).of_same hactive fun _ => rfl

theorem Smp.Sound.send (h : s.Sound) (hm : s.main c = .onCpu .icr r k) :
    (({ s with pending := Function.update s.pending r.cpu (s.pending r.cpu ++ [r]) }.setPhase r
        .sent).setMain c (.onCpu .spin r k)).Sound where
  owned := { h.owned.setMain (c := c) (m := .onCpu .spin r k) (fun _ => by rw [hm]; rfl) with }
  placed := h.placed.send hm
  mail := h.mail.send h.owned hm
  counted := by
    refine h.counted.of_same rfl fun c' => ?_
    simp only [Smp.busy, Smp.setMain, Smp.setPhase]
    by_cases hc : c' = c
    · simp [hc, hm, MainContext.counted, OnCpuPc.counted]
    · -- nobody else spins while `c` holds the lock
      have hspin : ∀ r k, s.main c' ≠ .onCpu .spin r k := fun r k hspin =>
        hc (h.owned.unique c' c (by rw [hspin]; rfl) (by rw [hm]; rfl))
      rw [Function.update_of_ne hc, MainContext.counted_update (Or.inr hspin)]
  logged := by
    have hfresh := h.placed.fresh c _ r k hm rfl
    exact { h.logged.setPhase (q := r) (p := .sent) (by decide) (by rw [hfresh]; decide) with }
  answered := by
    have hfresh := h.placed.fresh c _ r k hm rfl
    have hcall := h.answered c
    rw [hm] at hcall
    have hlater :
        s.Later
          ({ s with pending := Function.update s.pending r.cpu (s.pending r.cpu ++ [r]) }.setPhase r
        .sent) := by
      have := Smp.later_setPhase (s := s) (q := r) (p := .sent) (by decide) (by simp)
        (by simp [hfresh])
      exact { this with }
    refine (h.answered.later hlater rfl).setMain _
      ⟨fun _ => ?_, fun earlier hk => (hcall.2 earlier hk).later hlater⟩
    exact ⟨(h.placed.known c _ r k hm).1, by simp [Smp.setPhase]⟩

/-- A request whose sender has been acknowledged is not under way. -/
theorem Smp.Sound.not_sent (h : s.Sound) (hm : s.main c = .onCpu .spin r k)
    (hdone : s.ipiDone = true) :
    s.phase r.serial ≠ .sent := by
  intro hsent
  have hpending := h.placed.sent r (h.placed.known c _ r k hm).1 hsent
  obtain ⟨-, hnot, -⟩ := h.mail.flight r.cpu r (Or.inl hpending)
  exact Bool.false_ne_true (hnot.symm.trans hdone)

theorem Smp.Sound.spin (h : s.Sound) (hm : s.main c = .onCpu .spin r k)
    (hidle : s.handler c = .idle) (hdone : s.ipiDone = true) :
    (s.setMain c (.onCpu .unlock r k)).Sound := by
  have hcall := h.answered c
  rw [hm] at hcall
  refine h.stepMain hm _ (by decide) (by decide) (by simp [OnCpuPc.fresh]) (by simp)
    (fun _ => hcall.1 (Or.inl rfl)) (h.owned.setMain fun _ => by rw [hm]; rfl) ?_ ?_
  · refine h.mail.setMain hidle _ ?_ ?_ ?_ ?_
    · exact fun _ _ _ => h.mail.no_flight h.owned hm rfl (Or.inr hdone)
    · intro pc' r' k' heq hremote
      injection heq with hpc
      subst hpc
      exact absurd hremote Bool.false_ne_true
    · intro pc' r' k' heq
      injection heq with hpc
      subst hpc
      exact ⟨trivial, by decide⟩
    · intro r' k' heq hwait
      injection heq with _ hr
      subst hr
      exact h.mail.acked c r k hm hdone hwait
  · refine h.counted.setMain ?_
    rw [hm]
    exact decide_eq_false (h.not_sent hm hdone)

theorem Smp.Sound.beginMain (h : s.Sound) (hm : s.main c = .onCpu .call r k)
    (hidle : s.handler c = .idle) :
    ((beginRun s r c r.function r.data).setMain c (.onCpu .run r k)).Sound := by
  have hknown := (h.placed.known c _ r k hm).1
  have hfresh := h.placed.fresh c _ r k hm rfl
  have hcpu := h.placed.self c _ r k hm (Or.inl rfl)
  have hlater : s.Later (beginRun s r c r.function r.data) :=
    { Smp.later_setPhase (s := s) (q := r) (p := .running) (by decide) (by simp)
      (by simp [hfresh]) with }
  have hmail : (beginRun s r c r.function r.data).Mail :=
    { h.mail.setPhase (q := r) (p := .running) (Or.inl (by simp [hfresh])) with }
  have hcall := h.answered c
  rw [hm] at hcall
  exact
  { owned := { h.owned.setMain (c := c) (m := .onCpu .run r k) (fun _ => by rw [hm]; rfl) with }
    placed := h.placed.beginMain hm
    mail := hmail.stepMain hidle hm .run (by decide) (by decide) (by decide)
      (by simp [OnCpuPc.remote]) trivial
    counted := by
      refine h.counted.of_same rfl fun c' => ?_
      simp only [Smp.busy, Smp.setMain, Smp.setPhase, beginRun]
      by_cases hc : c' = c
      · rw [hc, Function.update_self, hm]
        rfl
      · rw [Function.update_of_ne hc, MainContext.counted_update (Or.inl (by simp [hfresh]))]
    logged :=
      { h.logged.beginRun (c := c) (f := r.function) (d := r.data) hknown (by simp [hfresh])
          (by rw [← hcpu]; rfl) with }
    answered := (h.answered.later hlater rfl).setMain _
      ⟨by simp, fun earlier hk => (hcall.2 earlier hk).later hlater⟩ }

theorem Smp.Sound.endMain (h : s.Sound) (hm : s.main c = .onCpu .run r k)
    (hidle : s.handler c = .idle) :
    ((endRun s r c r.function r.data).setMain c (.onCpu .unlock r k)).Sound := by
  have hknown := (h.placed.known c _ r k hm).1
  have hrunning := h.placed.run c r k hm
  have hcpu := h.placed.self c _ r k hm (Or.inr rfl)
  have hlater : s.Later (endRun s r c r.function r.data) :=
    { Smp.later_setPhase (s := s) (q := r) (p := .finished) (by decide) (by simp) (by simp) with }
  have hmail : (endRun s r c r.function r.data).Mail :=
    { h.mail.setPhase (q := r) (p := .finished) (Or.inr rfl) with }
  have hphase : (endRun s r c r.function r.data).phase r.serial = .finished := by
    simp [endRun, Smp.setPhase]
  have hcall := h.answered c
  rw [hm] at hcall
  exact
  { owned := { h.owned.setMain (c := c) (m := .onCpu .unlock r k) (fun _ => by rw [hm]; rfl) with }
    placed := h.placed.endMain hm hidle
    mail := by
      refine hmail.setMain hidle _ ?_ ?_ ?_ ?_
      · intro r' k' hspin
        rw [show (endRun s r c r.function r.data).main = s.main from rfl, hm] at hspin
        injection hspin with hpc
        exact absurd hpc (by decide)
      · intro pc' r' k' heq hremote
        injection heq with hpc
        subst hpc
        exact absurd hremote Bool.false_ne_true
      · intro pc' r' k' heq
        injection heq with hpc
        subst hpc
        exact ⟨trivial, by decide⟩
      · intro r' k' heq _
        injection heq with _ hr
        exact hr ▸ hphase
    counted := by
      refine h.counted.of_same rfl fun c' => ?_
      simp only [Smp.busy, Smp.setMain, Smp.setPhase, endRun]
      by_cases hc : c' = c
      · rw [hc, Function.update_self, hm]
        rfl
      · rw [Function.update_of_ne hc, MainContext.counted_update (Or.inl (by simp [hrunning]))]
    logged :=
      { h.logged.endRun (c := c) (f := r.function) (d := r.data) hknown hrunning
          (by rw [← hcpu]; rfl) with }
    answered := (h.answered.later hlater rfl).setMain _
      ⟨fun _ => ⟨hknown, by simp [hphase]⟩, fun earlier hk => (hcall.2 earlier hk).later hlater⟩ }

/-- A main context outside of `__on_cpu`. -/
def MainContext.outside : MainContext n F D → Bool
  | .onCpu _ _ _ => false
  | _ => true

theorem MainContext.ne_onCpu_of_outside {m : MainContext n F D} (h : m.outside = true)
    (pc : OnCpuPc) (r : IpiRequest n F D) (k : OnCpuCaller n F D) : m ≠ .onCpu pc r k := by
  rintro rfl
  exact Bool.false_ne_true h

theorem MainContext.holds_of_outside {m : MainContext n F D} (h : m.outside = true) :
    m.holds = false := by
  cases m <;> first | rfl | exact absurd h Bool.false_ne_true

theorem MainContext.counted_of_outside {m : MainContext n F D} (h : m.outside = true)
    (phase : Nat → RequestPhase) : m.counted phase = false := by
  cases m <;> first | rfl | exact absurd h Bool.false_ne_true

theorem Smp.Mail.leaveMain (h : s.Mail) (hidle : s.handler c = .idle) (m : MainContext n F D)
    (hspin : ∀ r k, s.main c ≠ .onCpu .spin r k) (hm : m.outside = true) :
    (s.setMain c m).Mail := by
  have hne := MainContext.ne_onCpu_of_outside hm
  refine h.setMain hidle m ?_ ?_ ?_ ?_
  · exact fun r k heq => absurd heq (hspin r k)
  · exact fun pc r k heq => absurd heq (hne pc r k)
  · exact fun pc r k heq => absurd heq (hne pc r k)
  · exact fun r k heq => absurd heq (hne .unlock r k)

theorem Smp.Sound.unlock (h : s.Sound) (hm : s.main c = .onCpu .unlock r k)
    (hidle : s.handler c = .idle) {m : MainContext n F D} (hout : m.outside = true)
    (hcall : s.CallOk c m) : ({ s with ipiLock := false }.setMain c m).Sound where
  owned := h.owned.release (by rw [hm]; rfl) (MainContext.holds_of_outside hout)
  placed :=
    { h.placed.leaveMain (c := c) (m := m) (by rw [hm]; simp)
        (MainContext.ne_onCpu_of_outside hout) with }
  mail := { h.mail.leaveMain hidle m (by rw [hm]; simp) hout with }
  counted := h.counted.setMain (by rw [hm, MainContext.counted_of_outside hout]; rfl)
  logged := { h.logged with }
  answered := by
    have hlater : s.Later { s with ipiLock := false } := Smp.later_of_same rfl rfl
    exact (h.answered.later hlater rfl).setMain m (hcall.later hlater)

theorem Smp.Sound.enterOnCpu (h : s.Sound) (hout : (s.main c).outside = true)
    (hidle : s.handler c = .idle) (cpu : Fin n) (function : F) (data : D) (wait : Bool)
    (k : OnCpuCaller n F D)
    (hbatch : ∀ earlier, k = .cpus earlier → s.Batch c function data (cpu.val + 1) earlier) :
    (enterOnCpu s c cpu function data wait k).Sound := by
  have hne := MainContext.ne_onCpu_of_outside hout
  have hnew := h.placed.unissued s.requests.length le_rfl
  have hplaced := h.placed.enterOnCpu (fun r k => hne .run r k) cpu function data wait k
  unfold AcrnGuest.enterOnCpu at hplaced ⊢
  dsimp only at hplaced ⊢
  set r : IpiRequest n F D := ⟨c, s.requests.length, cpu, function, data, wait⟩ with hr
  have happend : { s with requests := s.requests ++ [r] }.Logged := h.logged.append h.placed rfl
  have hlater : s.Later ({ s with requests := s.requests ++ [r] }.setPhase r .issued) :=
    Smp.later_append rfl
  exact
  { owned := { h.owned.setMain (c := c) (m := .onCpu .lock r k)
    (by simp [MainContext.holds, OnCpuPc.holds]) with }
    placed := hplaced
    mail := by
      have hmail := h.mail.setPhase (q := r) (p := .issued) (Or.inl (by simp [hr, hnew]))
      have hlocking := hmail.setMain hidle (.onCpu .lock r k)
        (fun r k heq => absurd heq (hne _ r k))
        (fun pc r' k' heq hpc => by cases heq; exact absurd hpc Bool.false_ne_true)
        (fun pc r' k' heq => by cases heq; exact ⟨trivial, by decide⟩)
        (fun r' k' heq => by cases heq)
      exact { hlocking with }
    counted := by
      refine h.counted.of_same rfl fun c' => ?_
      simp only [Smp.busy, Smp.setMain, Smp.setPhase]
      by_cases hc : c' = c
      · rw [hc, Function.update_self, MainContext.counted_of_outside hout]
        rfl
      · rw [Function.update_of_ne hc, MainContext.counted_update (Or.inl (by simp [hr, hnew]))]
    logged := { happend.setPhase (q := r) (p := .issued) (by decide) (by simp [hr, hnew]) with }
    answered := (h.answered.later hlater rfl).setMain _
      ⟨by simp, fun earlier hk => (hbatch earlier hk).later hlater⟩ }

/-! ### The end of `on_cpus` -/

theorem IpiHandler.counted_of_request {i : IpiHandler n F D} (hq : i.request = some q)
    (hphase : i.phase ≠ .finished) : i.counted = true := by
  cases i <;> first | rfl | exact absurd rfl hphase | exact absurd hq (by simp [IpiHandler.request])

theorem MainContext.holds_of_counted {m : MainContext n F D} {phase : Nat → RequestPhase}
    (h : m.counted phase = true) : m.holds = true := by
  cases m with
  | onCpu pc r k => cases pc <;> first | rfl | exact absurd h Bool.false_ne_true
  | _ => exact absurd h Bool.false_ne_true

/-- A main context in the waiting loop of `on_cpus` reads the exact number of busy
    processors: it is not one of them, so that the counter does not overflow. -/
theorem Smp.Sound.load_eq_zero (h : s.Sound) (hn : n < 2 ^ 31) (hbusy : s.busy c = false)
    (hactive : ¬ 1 < s.activeCpus.toInt) : s.load = 0 := by
  have hnot : c ∉ Finset.univ.filter fun c => s.busy c = true := by simp [hbusy]
  have hlt : s.load < n := by
    have hcard := Finset.card_lt_univ_of_notMem hnot
    rwa [Fintype.card_fin] at hcard
  have htoNat : s.activeCpus.toNat = 1 + s.load := by
    rw [h.counted, BitVec.toNat_ofNat]
    exact Nat.mod_eq_of_lt (by omega)
  rw [BitVec.toInt_eq_toNat_of_lt (by omega), htoNat] at hactive
  omega

/-- When no processor is busy, every request that has been launched is done. -/
theorem Smp.Sound.done_of_load (h : s.Sound) (hload : s.load = 0) (hq : s.Launched q)
    (hmain : ∀ k, s.main q.caller ≠ .onCpu .run q k) : s.Done q := by
  obtain ⟨hknown, hunissued, hissued⟩ := hq
  have hidle : ∀ c, s.busy c = false := by
    intro c
    have hempty := Finset.filter_eq_empty_iff.mp (Finset.card_eq_zero.mp hload)
    exact Bool.eq_false_iff.mpr (hempty (Finset.mem_univ c))
  have hhandler : (s.handler q.cpu).request = some q → s.phase q.serial = .finished := by
    intro hrequest
    by_contra hphase
    rw [(h.placed.served _ q hrequest).2.2] at hphase
    have hcounted := IpiHandler.counted_of_request hrequest hphase
    have := hidle q.cpu
    rw [Smp.busy, hcounted] at this
    exact Bool.false_ne_true this.symm
  refine ⟨hknown, ?_⟩
  cases hphase : s.phase q.serial with
  | unissued => exact absurd hphase hunissued
  | issued => exact absurd hphase hissued
  | sent =>
      obtain ⟨⟨o, k, hspin⟩, -⟩ := h.mail.flight q.cpu q (Or.inl (h.placed.sent q hknown hphase))
      have := hidle o
      rw [Smp.busy, hspin, MainContext.counted, hphase] at this
      simp at this
  | delivered => rw [← hphase, hhandler (h.placed.delivered q hknown hphase)]
  | running =>
      rcases h.placed.running q hknown hphase with hrequest | ⟨k, hrun⟩
      · rw [← hphase, hhandler hrequest]
      · exact absurd hrun (hmain k)
  | finished => rfl

theorem Smp.Sound.cpusActive (h : s.Sound) (hn : n < 2 ^ 31) {f : F} {d : D}
    {batch : List (IpiRequest n F D)} (hm : s.main c = .cpusActive f d batch)
    (hidle : s.handler c = .idle) (hactive : ¬ 1 < s.activeCpus.toInt) :
    (s.setMain c (.returnedAll f d batch)).Sound := by
  have hbusy : s.busy c = false := by rw [Smp.busy, hm, hidle]; rfl
  have hload := h.load_eq_zero hn hbusy hactive
  have hbatch : s.Batch c f d 0 batch := by
    have hcall := h.answered c
    rwa [hm] at hcall
  have hdone : ∀ q ∈ batch, s.Done q := by
    intro q hq
    refine h.done_of_load hload (hbatch.launched q hq) fun k hrun => ?_
    rw [(hbatch.member q hq).1, hm] at hrun
    exact absurd hrun (by simp)
  exact
  { owned := h.owned.setMain (by simp [MainContext.holds])
    placed := h.placed.leaveMain (by rw [hm]; simp) (by simp)
    mail := h.mail.leaveMain hidle _ (by rw [hm]; simp) rfl
    counted := h.counted.setMain (by rw [hm]; rfl)
    logged := { h.logged with }
    answered := h.answered.setMain _ ⟨hbatch, hdone⟩ }

/-! ### The handler -/

theorem Smp.Sound.deliver (h : s.Sound) (hidle : s.handler c = .idle)
    {rest : List (IpiRequest n F D)} (hpending : s.pending c = q :: rest) :
    (({ s with pending := Function.update s.pending c rest }.setPhase q .delivered).setHandler c
        (.readFunction q)).Sound := by
  have hmem : q ∈ s.pending c := by rw [hpending]; exact List.mem_cons_self
  obtain ⟨hknown, hcpu, hsent⟩ := h.placed.queued c q hmem
  obtain ⟨⟨o, k, hspin⟩, -⟩ := h.mail.flight c q (Or.inl hmem)
  have hne : c ≠ o := fun heq => h.mail.remote o _ q k hspin rfl (hcpu.trans heq)
  have hother : ∀ c', c' ≠ o → (s.main c').counted s.phase = false := fun c' hc' =>
    Bool.eq_false_iff.mpr fun hcounted =>
      hc' (h.owned.unique c' o (MainContext.holds_of_counted hcounted) (by rw [hspin]; rfl))
  have hother' : ∀ c', c' ≠ o →
      (s.main c').counted (Function.update s.phase q.serial .delivered) = false := fun c' hc' =>
    Bool.eq_false_iff.mpr fun hcounted =>
      hc' (h.owned.unique c' o (MainContext.holds_of_counted hcounted) (by rw [hspin]; rfl))
  exact
  { owned := { h.owned with }
    placed := h.placed.deliver hidle hpending
    mail := h.mail.deliver h.owned h.placed hpending
    counted := by
      have hload : (({ s with pending := Function.update s.pending c rest }.setPhase q
          .delivered).setHandler c (.readFunction q)).load = s.load := by
        refine Smp.load_move hne ?_ ?_ ?_ ?_ ?_
        · simp [Smp.busy, hspin, MainContext.counted, hsent]
        · have hidle' := h.mail.idle o (by rw [hspin]; rfl)
          simp [Smp.busy, Smp.setHandler, Smp.setPhase, Function.update_of_ne hne.symm,
            hidle', hspin, MainContext.counted, IpiHandler.counted]
        · rw [Smp.busy, hidle, hother c hne]
          rfl
        · simp [Smp.busy, Smp.setHandler, IpiHandler.counted]
        · intro c' hc ho
          simp only [Smp.busy, Smp.setHandler, Smp.setPhase, Function.update_of_ne hc]
          rw [hother c' ho, hother' c' ho]
      unfold Smp.Counted
      rw [hload]
      exact h.counted
    logged :=
      { h.logged.setPhase (q := q) (p := .delivered) (by decide) (by rw [hsent]; decide) with }
    answered := h.answered.later
      { Smp.later_setPhase (s := s) (q := q) (p := .delivered) (by decide) (by simp)
          (by simp [hsent]) with } rfl }

theorem Smp.Sound.stepHandler (h : s.Sound) {i : IpiHandler n F D}
    (hrequest : i.request = (s.handler c).request) (hphase : i.phase = (s.handler c).phase)
    (hbusy : s.handler c ≠ .idle) (hunacked : i.unacked = (s.handler c).unacked)
    (hcounted : i.counted = (s.handler c).counted) (hright : i.Right) :
    (s.setHandler c i).Sound where
  owned := { h.owned with }
  placed := h.placed.stepHandler hrequest hphase
  mail := h.mail.setHandler hbusy hright fun _ hu hq => Or.inr ⟨hunacked ▸ hu, hrequest ▸ hq⟩
  counted := h.counted.setHandler hcounted
  logged := { h.logged with }
  answered := h.answered.later (Smp.later_of_same rfl rfl) rfl

theorem Smp.Sound.readFunction (h : s.Sound) (hi : s.handler c = .readFunction q) :
    (s.setHandler c (.readData q s.ipiFunction)).Sound := by
  obtain ⟨-, -, hfunction, -, -⟩ := h.mail.flight c q (Or.inr (by rw [hi]; exact ⟨rfl, rfl⟩))
  refine h.stepHandler ?_ ?_ ?_ ?_ ?_ hfunction <;> rw [hi] <;> first | rfl | simp

theorem Smp.Sound.readData (h : s.Sound) {f : F} (hi : s.handler c = .readData q f) :
    (s.setHandler c (.readWait q f s.ipiData)).Sound := by
  obtain ⟨-, -, -, hdata, -⟩ := h.mail.flight c q (Or.inr (by rw [hi]; exact ⟨rfl, rfl⟩))
  have hright := h.mail.right c
  rw [hi] at hright
  refine h.stepHandler ?_ ?_ ?_ ?_ ?_ ⟨hright, hdata⟩ <;> rw [hi] <;> first | rfl | simp

theorem Smp.Sound.readWait (h : s.Sound) {f : F} {d : D} (hi : s.handler c = .readWait q f d) :
    (s.setHandler c (if s.ipiWait then .call q f d true else .early q f d)).Sound := by
  obtain ⟨-, -, -, -, hwait⟩ := h.mail.flight c q (Or.inr (by rw [hi]; exact ⟨rfl, rfl⟩))
  have hright := h.mail.right c
  rw [hi] at hright
  by_cases hset : s.ipiWait = true
  · rw [if_pos hset]
    refine h.stepHandler ?_ ?_ ?_ ?_ ?_ ⟨hright.1, hright.2, hwait ▸ hset⟩ <;> rw [hi] <;>
      first | rfl | simp
  · rw [if_neg hset]
    refine h.stepHandler ?_ ?_ ?_ ?_ ?_ ⟨hright.1, hright.2, ?_⟩
    · rw [hi]; rfl
    · rw [hi]; rfl
    · rw [hi]; simp
    · rw [hi]; rfl
    · rw [hi]; rfl
    · rw [← hwait]; exact Bool.eq_false_iff.mpr hset

theorem Smp.Sound.acknowledge (h : s.Sound) {i : IpiHandler n F D}
    (hunacked : (s.handler c).unacked = true) (hq : (s.handler c).request = some q)
    (hfinished : q.wait = true → s.phase q.serial = .finished) (hi : i.unacked = false)
    (hright : i.Right) (hcounted : i.counted = (s.handler c).counted)
    (hplaced : (s.setHandler c i).Placed) : ({ s with ipiDone := true }.setHandler c i).Sound where
  owned := { h.owned with }
  placed := { hplaced with }
  mail := h.mail.acknowledge h.owned h.placed hunacked hq hfinished hi hright
  counted := h.counted.setHandler hcounted
  logged := { h.logged with }
  answered := h.answered.later (Smp.later_of_same rfl rfl) rfl

theorem Smp.Sound.early (h : s.Sound) {f : F} {d : D} (hi : s.handler c = .early q f d) :
    ({ s with ipiDone := true }.setHandler c (.call q f d false)).Sound := by
  have hright := h.mail.right c
  rw [hi] at hright
  refine h.acknowledge (q := q) ?_ ?_ ?_ rfl hright ?_ (h.placed.stepHandler ?_ ?_)
  · rw [hi]; rfl
  · rw [hi]; rfl
  · intro hwait
    exact absurd (hright.2.2.symm.trans hwait) Bool.false_ne_true
  · rw [hi]; rfl
  · rw [hi]; rfl
  · rw [hi]; rfl

theorem Smp.Sound.late (h : s.Sound) (hi : s.handler c = .late q) :
    ({ s with ipiDone := true }.setHandler c .iret).Sound := by
  have hserved := h.placed.served c q (by rw [hi]; rfl)
  rw [hi] at hserved
  refine h.acknowledge (q := q) ?_ ?_ (fun _ => hserved.2.2) rfl trivial ?_
    (h.placed.leaveHandler rfl ?_)
  · rw [hi]; rfl
  · rw [hi]; rfl
  · rw [hi]; rfl
  · rw [hi]; exact Or.inr rfl

theorem Smp.Sound.iret (h : s.Sound) (hi : s.handler c = .iret) : (s.setHandler c .idle).Sound := by
  have hbusy : s.handler c ≠ .idle := by rw [hi]; simp
  exact
  { owned := { h.owned with }
    placed := h.placed.leaveHandler rfl (by rw [hi]; exact Or.inl rfl)
    mail := h.mail.setHandler hbusy trivial fun q hunacked => absurd hunacked Bool.false_ne_true
    counted := h.counted.setHandler (by rw [hi]; rfl)
    logged := { h.logged with }
    answered := h.answered.later (Smp.later_of_same rfl rfl) rfl }

theorem Smp.Sound.beginHandler (h : s.Sound) {f : F} {d : D} {wait : Bool}
    (hi : s.handler c = .call q f d wait) :
    ((beginRun s q c f d).setHandler c (.run q f d wait)).Sound := by
  have hbusy : s.handler c ≠ .idle := by rw [hi]; simp
  obtain ⟨hknown, hcpu, hphase⟩ := h.placed.served c q (by rw [hi]; rfl)
  have hright := h.mail.right c
  rw [hi] at hright hphase
  change s.phase q.serial = .delivered at hphase
  have hrun : FunctionRun.mk q c f d = q.run := by
    rw [IpiRequest.run, hcpu, hright.1, hright.2.1]
  have hmail : (beginRun s q c f d).Mail :=
    { h.mail.setPhase (q := q) (p := .running) (Or.inl (by rw [hphase]; decide)) with }
  exact
  { owned := { h.owned with }
    placed :=
      { h.placed.advanceHandler (c := c) (q := q) (i := .run q f d wait) (by rw [hi]; rfl) rfl
      (Or.inl (by rw [hi]; exact ⟨rfl, rfl⟩)) with }
    mail := hmail.setHandler hbusy hright fun q' hu hq => Or.inr (by
      rw [show (beginRun s q c f d).handler = s.handler from rfl, hi]; exact ⟨hu, hq⟩)
    counted := by
      have hbegun : (beginRun s q c f d).Counted :=
        (h.counted.setPhase (by rw [hphase]; decide) (by decide)).of_same rfl fun _ => rfl
      exact hbegun.setHandler
        (by rw [show (beginRun s q c f d).handler = s.handler from rfl, hi]; rfl)
    logged := { h.logged.beginRun (c := c) hknown (by rw [hphase]; decide) hrun with }
    answered := h.answered.later
      { Smp.later_setPhase (s := s) (q := q) (p := .running) (by decide) (by simp)
          (by rw [hphase]; decide) with } rfl }

theorem Smp.Sound.endHandler (h : s.Sound) {f : F} {d : D} {wait : Bool}
    (hi : s.handler c = .run q f d wait) :
    ((endRun s q c f d).setHandler c (.dec q wait)).Sound := by
  have hbusy : s.handler c ≠ .idle := by rw [hi]; simp
  obtain ⟨hknown, hcpu, hphase⟩ := h.placed.served c q (by rw [hi]; rfl)
  have hright := h.mail.right c
  rw [hi] at hright hphase
  change s.phase q.serial = .running at hphase
  have hrun : FunctionRun.mk q c f d = q.run := by
    rw [IpiRequest.run, hcpu, hright.1, hright.2.1]
  have hmail : (endRun s q c f d).Mail :=
    { h.mail.setPhase (q := q) (p := .finished) (Or.inr rfl) with }
  -- the main context of `c` is interrupted, so it does not run a function itself
  have hmain : ∀ r k, s.main c ≠ .onCpu .run r k := fun r k hm =>
    hbusy (h.mail.idle c (by rw [hm]; rfl))
  exact
  { owned := { h.owned with }
    placed := { h.placed.advanceHandler (c := c) (q := q) (i := .dec q wait) (by rw [hi]; rfl) rfl
      (Or.inr (by rw [hi]; exact ⟨rfl, rfl, hmain⟩)) with }
    mail := hmail.setHandler hbusy hright.2.2 fun q' hu hq => Or.inr (by
      rw [show (endRun s q c f d).handler = s.handler from rfl, hi]; exact ⟨hu, hq⟩)
    counted := by
      have hended : (endRun s q c f d).Counted :=
        (h.counted.setPhase (by rw [hphase]; decide) (by decide)).of_same rfl fun _ => rfl
      exact hended.setHandler
        (by rw [show (endRun s q c f d).handler = s.handler from rfl, hi]; rfl)
    logged := { h.logged.endRun (c := c) hknown hphase hrun with }
    answered := h.answered.later
      { Smp.later_setPhase (s := s) (q := q) (p := .finished) (by decide) (by simp)
        (by simp) with } rfl }

theorem Smp.Sound.dec (h : s.Sound) {wait : Bool} (hi : s.handler c = .dec q wait) :
    ({ s with activeCpus := s.activeCpus - 1#32 }.setHandler c
      (if wait then .late q else .iret)).Sound := by
  have hbusy : s.handler c ≠ .idle := by rw [hi]; simp
  have hright := h.mail.right c
  rw [hi] at hright
  have hmain : (s.main c).counted s.phase = false := Bool.eq_false_iff.mpr fun hcounted =>
    hbusy (h.mail.idle c (MainContext.holds_of_counted hcounted))
  exact
  { owned := { h.owned with }
    placed := by
      cases wait with
      | true =>
        exact { h.placed.stepHandler (c := c) (i := .late q) (by rw [hi]; rfl)
          (by rw [hi]; rfl) with }
      | false =>
        exact { h.placed.leaveHandler (c := c) (i := .iret) rfl
          (by rw [hi]; exact Or.inr rfl) with }
    mail := by
      cases wait with
      | true =>
          exact { h.mail.setHandler (c := c) (i := .late q) hbusy hright fun q' hu hq => Or.inr (by
            rw [hi]; exact ⟨hu, hq⟩) with }
      | false =>
          exact { h.mail.setHandler (c := c) (i := .iret) hbusy trivial
            fun q' hu => absurd hu Bool.false_ne_true with }
    counted := by
      have hload : s.load = ({ s with activeCpus := s.activeCpus - 1#32 }.setHandler c
          (if wait then .late q else .iret)).load + 1 := by
        refine Smp.load_insert (c := c) ?_ ?_ fun c' hne => ?_
        · simp only [Smp.busy, Smp.setHandler, Function.update_self, hmain]
          cases wait <;> rfl
        · rw [Smp.busy, hi]
          rfl
        · simp [Smp.busy, Smp.setHandler, hne]
      refine (congrArg (· - 1#32) h.counted).trans ?_
      rw [hload, ← Nat.add_assoc, BitVec.ofNat_add, BitVec.add_sub_cancel]
    logged := { h.logged with }
    answered := h.answered.later (Smp.later_of_same rfl rfl) rfl }

/-! ### Whole runs -/

theorem Smp.Sound.handlerStep (h : s.Sound) (c : Fin n) : (handlerStep s c).Sound := by
  unfold AcrnGuest.handlerStep
  cases hi : s.handler c with
  | idle => exact h
  | readFunction q => exact h.readFunction hi
  | readData q f => exact h.readData hi
  | readWait q f d => exact h.readWait hi
  | early q f d => exact h.early hi
  | call q f d wait => exact h.beginHandler hi
  | run q f d wait => exact h.endHandler hi
  | dec q wait => exact h.dec hi
  | late q => exact h.late hi
  | iret => exact h.iret hi

theorem enterOnCpu_setMain (s : Smp n F D) (c cpu : Fin n) (m : MainContext n F D) (f : F) (d : D)
    (wait : Bool) (k : OnCpuCaller n F D) :
    enterOnCpu (s.setMain c m) c cpu f d wait k = enterOnCpu s c cpu f d wait k := by
  simp only [enterOnCpu, Smp.setMain, Smp.setPhase, Function.update_idem]

theorem Smp.Sound.leaveOnCpu (h : s.Sound) (hm : s.main c = .onCpu .unlock r k)
    (hidle : s.handler c = .idle) : (leaveOnCpu { s with ipiLock := false } c r k).Sound := by
  have hcall := h.answered c
  rw [hm] at hcall
  have hlaunched := hcall.1 (Or.inr rfl)
  cases k with
  | once =>
      refine h.unlock hm hidle rfl fun hwait => ?_
      exact ⟨(h.placed.known c _ r _ hm).1, h.mail.unlock c r _ hm hwait⟩
  | cpus earlier =>
      have hcaller := (h.placed.known c _ r _ hm).2
      -- the requests so far, with the one of this iteration
      have hbatch : s.Batch c r.function r.data r.cpu.val (earlier ++ [r]) := by
        have hearlier := hcall.2 earlier rfl
        have hcases : ∀ q ∈ earlier ++ [r], q ∈ earlier ∧ r.cpu.val < q.cpu.val ∨ q = r := by
          intro q hq
          rcases List.mem_append.mp hq with hold | hnew
          · exact Or.inl ⟨hold, (hearlier.member q hold).2.2.2⟩
          · exact Or.inr (List.mem_singleton.mp hnew)
        constructor
        · intro q hq
          rcases hcases q hq with ⟨hold, hlt⟩ | rfl
          · obtain ⟨hqcaller, hfunction, hdata, -⟩ := hearlier.member q hold
            exact ⟨hqcaller, hfunction, hdata, Nat.le_of_lt hlt⟩
          · exact ⟨hcaller, rfl, rfl, Nat.le_refl _⟩
        · intro q hq
          rcases hcases q hq with ⟨hold, -⟩ | rfl
          · exact hearlier.launched q hold
          · exact hlaunched
        · intro cpu hcpu
          rcases Nat.eq_or_lt_of_le hcpu with heq | hlt
          · exact ⟨r, by simp, Fin.ext heq⟩
          · obtain ⟨q, hq, hqcpu⟩ := hearlier.every cpu hlt
            exact ⟨q, by simp [hq], hqcpu⟩
        · intro q hq q' hq' hsame
          rcases hcases q hq with ⟨hold, hlt⟩ | rfl <;> rcases hcases q' hq' with
            ⟨hold', hlt'⟩ | rfl
          · exact hearlier.unique q hold q' hold' hsame
          · exact absurd (hsame ▸ hlt) (Nat.lt_irrefl _)
          · exact absurd (hsame ▸ hlt') (Nat.lt_irrefl _)
          · rfl
      unfold AcrnGuest.leaveOnCpu
      dsimp only
      by_cases hzero : r.cpu.val = 0
      · rw [if_pos hzero]
        rw [hzero] at hbatch
        exact h.unlock hm hidle rfl hbatch
      · rw [if_neg hzero]
        have hfree := h.unlock (m := .idle) hm hidle rfl trivial
        have hlater : s.Later ({ s with ipiLock := false }.setMain c .idle) :=
          Smp.later_of_same rfl rfl
        have hnext := hfree.enterOnCpu (c := c) (by simp [Smp.setMain, MainContext.outside]) hidle
          ⟨r.cpu.val - 1, by omega⟩ r.function r.data false (.cpus (earlier ++ [r])) (by
            intro earlier' heq
            injection heq with heq
            subst heq
            have hsucc : r.cpu.val - 1 + 1 = r.cpu.val := by omega
            dsimp only
            rw [hsucc]
            exact hbatch.later hlater)
        rwa [enterOnCpu_setMain] at hnext

theorem Smp.Sound.onCpuStep (h : s.Sound) (hm : s.main c = .onCpu pc r k)
    (hidle : s.handler c = .idle) : (onCpuStep s c r k pc).Sound := by
  have hwritten := h.mail.written c pc r k hm
  cases pc with
  | lock =>
      unfold AcrnGuest.onCpuStep
      dsimp only
      split_ifs with hlock
      · exact h
      · exact h.lock hm hidle (Bool.eq_false_iff.mpr hlock)
  | test => exact h.test hm hidle
  | call => exact h.beginMain hm hidle
  | run => exact h.endMain hm hidle
  | inc => exact h.inc hm hidle
  | clearDone => exact h.write hm _ rfl rfl (by decide) (by decide) rfl
  | setFunction => exact h.write hm _ rfl rfl (by decide) (by decide) ⟨hwritten, rfl⟩
  | setData => exact h.write hm _ rfl rfl (by decide) (by decide) ⟨hwritten.1, hwritten.2, rfl⟩
  | setWait =>
      exact h.write hm _ rfl rfl (by decide) (by decide)
        ⟨hwritten.1, hwritten.2.1, hwritten.2.2, rfl⟩
  | icr => exact h.send hm
  | spin =>
      unfold AcrnGuest.onCpuStep
      dsimp only
      split_ifs with hdone
      · exact h.spin hm hidle hdone
      · exact h
  | unlock => exact h.leaveOnCpu hm hidle

theorem Smp.Sound.mainStep (h : s.Sound) (hn : n < 2 ^ 31) (hidle : s.handler c = .idle) :
    (mainStep s c).Sound := by
  unfold AcrnGuest.mainStep
  cases hm : s.main c with
  | onCpu pc r k => exact h.onCpuStep hm hidle
  | cpusActive f d batch =>
      dsimp only
      split_ifs with hactive
      · exact h
      · exact h.cpusActive hn hm hidle hactive
  | _ => exact h

theorem Smp.Sound.enterCall (h : s.Sound) (hfree : (s.main c).free = true)
    (hidle : s.handler c = .idle) (call : SmpCall n F D) : (enterCall s c call).Sound := by
  have hout : (s.main c).outside = true := by
    cases hm : s.main c <;> rw [hm] at hfree <;> first | rfl | exact absurd hfree Bool.false_ne_true
  cases call with
  | onCpu cpu f d => exact h.enterOnCpu hout hidle cpu f d true .once (by simp)
  | onCpuAsync cpu f d => exact h.enterOnCpu hout hidle cpu f d false .once (by simp)
  | onCpus f d =>
      refine h.enterOnCpu hout hidle _ f d false (.cpus []) ?_
      intro earlier heq
      injection heq with heq
      subst heq
      refine ⟨by simp, by simp, ?_, by simp⟩
      intro cpu hcpu
      have := cpu.isLt
      dsimp only at hcpu
      omega

theorem IpiHandler.eq_idle {i : IpiHandler n F D} (h : i.isIdle = true) : i = .idle := by
  cases i <;> first | rfl | exact absurd h Bool.false_ne_true

theorem Smp.Sound.smpStep (h : s.Sound) (hn : n < 2 ^ 31) (a : SmpAction n F D) :
    (smpStep s a).Sound := by
  unfold AcrnGuest.smpStep
  cases a with
  | call c call =>
      dsimp only
      split_ifs with hc
      · rw [Bool.and_eq_true] at hc
        exact h.enterCall hc.2 (IpiHandler.eq_idle hc.1) call
      · exact h
  | main c =>
      dsimp only
      split_ifs with hc
      · exact h.mainStep hn (IpiHandler.eq_idle hc)
      · exact h
  | deliver c =>
      dsimp only
      split_ifs with hc
      · unfold AcrnGuest.deliver
        cases hpending : s.pending c with
        | nil => exact h
        | cons q rest => exact h.deliver (IpiHandler.eq_idle hc) hpending
      · exact h
  | handler c => exact h.handlerStep c

theorem AfterSmpInit.sound (h : AfterSmpInit s) : s.Sound where
  owned := by constructor <;> simp [h.main, MainContext.holds]
  placed := by
    have hhandler : ∀ c, (s.handler c).request = none := fun c => by
      rcases h.handler c with hc | hc <;> rw [hc] <;> rfl
    constructor <;> simp [h.main, h.pending, h.phase, hhandler]
  mail := by
    have hhandler : ∀ c, (s.handler c).request = none ∧ (s.handler c).Right := fun c => by
      rcases h.handler c with hc | hc <;> rw [hc] <;> exact ⟨rfl, trivial⟩
    constructor <;> simp [h.main, h.pending, hhandler, Smp.InFlight, MainContext.holds]
  counted := by
    have hbusy : ∀ c, s.busy c = false := fun c => by
      rw [Smp.busy, h.main c]
      rcases h.handler c with hc | hc <;> rw [hc] <;> rfl
    have hload : s.load = 0 := by
      rw [Smp.load, Finset.card_eq_zero, Finset.filter_eq_empty_iff]
      intro c _
      rw [hbusy c]
      exact Bool.false_ne_true
    rw [Smp.Counted, hload, h.activeCpus]
  logged := by constructor <;> simp [h.started, h.finished, h.phase]
  answered := by
    intro c
    rw [h.main c]
    trivial

theorem AfterSmpInit.sound_run (h : AfterSmpInit s) (hn : n < 2 ^ 31)
    (actions : List (SmpAction n F D)) :
    (actions.foldl smpStep s).Sound :=
  List.foldlRecOn actions smpStep h.sound fun _ hs a _ => hs.smpStep hn a

end Steps

/-! ### Results -/

section Results

variable {n : Nat} {F D : Type}

/-- In every run of any number of processors each request is run at most once, on its
    target and with its own function and data; `on_cpu` has returned only after its
    function has, and `on_cpus` after its function has run once on every processor. -/
theorem smp_calls_run_once (s : Smp n F D) (hinit : AfterSmpInit s) (hn : n < 2 ^ 31)
    (actions : List (SmpAction n F D)) :
    let s' := actions.foldl smpStep s
    (s'.started.map fun run => run.q.serial).Nodup ∧
      (s'.finished.map fun run => run.q.serial).Nodup ∧
      (∀ run ∈ s'.started, s'.requests[run.q.serial]? = some run.q ∧ run.cpu = run.q.cpu ∧
        run.function = run.q.function ∧ run.data = run.q.data) ∧
      (∀ c r, s'.main c = .returned r → r.wait = true →
        ∃! run, run ∈ s'.finished ∧ run.q = r ∧ run.cpu = r.cpu) ∧
      (∀ c f d batch, s'.main c = .returnedAll f d batch →
        ∀ cpu, ∃! run, run ∈ s'.finished ∧ run.q ∈ batch ∧ run.cpu = cpu ∧ run.function = f ∧
          run.data = d) := by
  intro s'
  have h : s'.Sound := hinit.sound_run hn actions
  -- a run is determined by its request
  have hrun : ∀ run ∈ s'.finished, run = run.q.run := fun run hmem =>
    (h.logged.started run (h.logged.finished run hmem).1).1
  refine ⟨h.logged.started_nodup, h.logged.finished_nodup, ?_, ?_, ?_⟩
  · intro run hmem
    obtain ⟨heq, hknown, -⟩ := h.logged.started run hmem
    exact ⟨hknown, congrArg FunctionRun.cpu heq, congrArg FunctionRun.function heq,
      congrArg FunctionRun.data heq⟩
  · intro c r hm hwait
    have hcall := h.answered c
    rw [hm] at hcall
    obtain ⟨hknown, hdone⟩ := hcall hwait
    refine ⟨r.run, ⟨h.logged.complete r hknown hdone, rfl, rfl⟩, ?_⟩
    rintro run ⟨hmem, rfl, -⟩
    exact hrun run hmem
  · intro c f d batch hm cpu
    have hcall := h.answered c
    rw [hm] at hcall
    obtain ⟨hbatch, hdone⟩ := hcall
    obtain ⟨q, hq, hcpu⟩ := hbatch.every cpu (Nat.zero_le _)
    obtain ⟨-, hf, hd, -⟩ := hbatch.member q hq
    refine ⟨q.run, ⟨h.logged.complete q (hdone q hq).1 (hdone q hq).2, hq, hcpu, hf, hd⟩, ?_⟩
    rintro run ⟨hmem, hq', hcpu', -, -⟩
    have heq := hrun run hmem
    have hsame : run.q.cpu = q.cpu := by
      rw [heq] at hcpu'
      exact hcpu'.trans hcpu.symm
    rw [heq, hbatch.unique run.q hq' q hq hsame]

/-- Two processors after `smp_init`, with numbers for functions and data. -/
def smpOfTwo : Smp 2 Nat Nat where
  ipiLock := false
  ipiFunction := 0
  ipiData := 0
  ipiDone := true
  ipiWait := true
  activeCpus := 1#32
  pending _ := []
  main _ := .idle
  handler _ := .idle
  requests := []
  phase _ := .unissued
  started := []
  finished := []

/-- A call of `on_cpus` on processor 0, whose second iteration overtakes the function
    on processor 1. -/
def onCpusOfTwo : List (SmpAction 2 Nat Nat) :=
  .call 0 (.onCpus 7 9) :: List.replicate 8 (.main 0) ++ [.deliver 1] ++
    List.replicate 4 (.handler 1)
    ++ List.replicate 7 (.main 0) ++ List.replicate 4 (.handler 1) ++ [.main 0]

theorem smp_calls_run_once_of_two :
    AfterSmpInit smpOfTwo ∧
      ∃ batch, (onCpusOfTwo.foldl smpStep smpOfTwo).main 0 = .returnedAll 7 9 batch ∧
        ∀ cpu, ∃! run, run ∈ (onCpusOfTwo.foldl smpStep smpOfTwo).finished ∧ run.q ∈ batch ∧
          run.cpu = cpu ∧ run.function = 7 ∧ run.data = 9 := by
  have hinit : AfterSmpInit smpOfTwo :=
    ⟨rfl, rfl, fun _ => rfl, fun _ => rfl, fun _ => Or.inl rfl, rfl, fun _ => rfl, rfl, rfl⟩
  have hmain : (onCpusOfTwo.foldl smpStep smpOfTwo).main 0 =
      .returnedAll 7 9 [⟨0, 0, 1, 7, 9, false⟩, ⟨0, 1, 0, 7, 9, false⟩] := rfl
  exact ⟨hinit, _, hmain,
    (smp_calls_run_once smpOfTwo hinit (by decide) onCpusOfTwo).2.2.2.2 0 7 9 _ hmain⟩

end Results

end AcrnGuest
