import AcrnGuest.PciMsi

/-!
# Runs of the MSI driver with several devices

Every order of the operations of `lib/pci_msi.c` on any devices. Since the driver has one
`msi_io_start`, a probe forgets where the capability of another device lies: the devices
keep apart only if nobody else's offset is still in use when a device is probed, and if a
device is destroyed while its own offset is stored.
-/

namespace AcrnGuest

/-! ### Operations -/

inductive MsiOp (ι : Type) where
  | init (d : ι)
  | probe (d : ι)
  | config (d : ι) (addr : BitVec 64) (data : BitVec 16)
  | enable (d : ι) (flag : Bool)
  | destroy (d : ι)

def MsiOp.dev {ι : Type} : MsiOp ι → ι
  | .init d => d
  | .probe d => d
  | .config d _ _ => d
  | .enable d _ => d
  | .destroy d => d

section Ops

variable {ι : Type}

/-- The operation, with a record of the devices that were successfully probed and not
    destroyed since. It is `none` when the driver follows a `NULL` pointer. -/
def MsiOp.exec [DecidableEq ι] (P : MsiBoard ι) (s : MsiState ι) : MsiOp ι → Option (MsiState ι)
  | .init d => some (MsiBoard.pciMsiInit s d)
  | .probe d =>
      (P.pciMsiProbe s d).map fun r =>
        { r.2 with probed := Function.update r.2.probed d (decide (r.1 = OK)) }
  | .config d addr data => P.pciMsiConfig s d addr data
  | .enable d flag => P.pciMsiEnable s d flag
  | .destroy d =>
      (P.pciMsiDestroy s d).map fun s => { s with probed := Function.update s.probed d false }

/-- A device is configured and enabled after a successful probe. -/
def MsiOp.InOrder (s : MsiState ι) : MsiOp ι → Prop
  | .config d _ _ => s.probed d = true
  | .enable d _ => s.probed d = true
  | _ => True

/-- A device is probed while no other one is, unless their capabilities lie at the same
    offset, and it is destroyed while it is probed. -/
def MsiOp.Alone (cap : ι → Option Nat) (s : MsiState ι) : MsiOp ι → Prop
  | .probe d => ∀ o, o ≠ d → s.probed o = true → cap o = cap d
  | .destroy d => s.probed d = true
  | _ => True

/-- The offset of the MSI capability that the driver has recorded for a device. -/
def MsiState.recorded (s : MsiState ι) (d : ι) : Option (BitVec 8) :=
  if s.probed d then some s.msiIoStart else none

def msiBoot (ι : Type) (b : HostBridge) : MsiState ι where
  bridge := b
  msiIoStart := 0#8
  msi _ := false
  probed _ := false
  writes := []

/-- The states that operations with a given property reach. -/
inductive MsiRun [DecidableEq ι] (P : MsiBoard ι) (Allowed : MsiState ι → MsiOp ι → Prop)
    (start : MsiState ι) :
    MsiState ι → Prop where
  | start : MsiRun P Allowed start start
  | step {s s' : MsiState ι} {op : MsiOp ι} (previous : MsiRun P Allowed start s)
    (hallowed : Allowed s op)
      (hexec : op.exec P s = some s') : MsiRun P Allowed start s'

/-- The write lies in the MSI capability of the device for which it was made. -/
def MsiWrite.Inside (P : MsiBoard ι) (regs : CfgRegs) (cap : ι → Option Nat)
    (w : MsiWrite ι) : Prop :=
  ∃ c, cap w.dev = some c ∧ w.bdf = P.bdf w.dev ∧ c ≤ w.offset.toNat ∧
    w.offset.toNat + w.bytes.toNat ≤ c + msiLength regs (P.bdf w.dev) c

/-! ### Invariant -/

variable {P : MsiBoard ι} {regs₀ : CfgRegs} {cap : ι → Option Nat} {s s' : MsiState ι} {d : ι}
  {lo hi c : Nat} {b : HostBridge}

/-- The capabilities of all devices are where they were, and as wide as they were. -/
structure MsiWorld (P : MsiBoard ι) (regs₀ : CfgRegs) (cap : ι → Option Nat) (b : HostBridge) :
    Prop where
  window : WindowKnown P.mmcfgAddr b
  function : ∀ d, MsiFunction b.regs (P.bdf d) (cap d)
  length : ∀ d c, cap d = some c → msiLength b.regs (P.bdf d) c = msiLength regs₀ (P.bdf d) c

/-- A probed device has a `struct msi`, and the offset stored there is its own. -/
structure MsiInv (P : MsiBoard ι) (regs₀ : CfgRegs) (cap : ι → Option Nat) (s : MsiState ι) :
    Prop where
  world : MsiWorld P regs₀ cap s.bridge
  created : ∀ d, s.probed d = true → s.msi d = true
  located : ∀ d, s.probed d = true → cap d = some s.msiIoStart.toNat
  inside : ∀ w ∈ s.writes, w.Inside P regs₀ cap

theorem MsiWorld.reads (h : MsiWorld P regs₀ cap s.bridge) (ht : Touches P d lo lo s s') :
    MsiWorld P regs₀ cap s'.bridge := by
  refine ⟨ht.window h.window, ?_, ?_⟩ <;> rw [ht.regs_eq]
  · exact h.function
  · exact h.length

/-- Writes to the registers of one capability keep all of them. -/
theorem MsiWorld.writes (hbdf : Function.Injective P.bdf) (h : MsiWorld P regs₀ cap s.bridge)
    (ht : Touches P d lo hi s s') (hcap : cap d = some c) (hlo : c + 2 ≤ lo)
    (hhi : hi ≤ c + msiLength s.bridge.regs (P.bdf d) c)
    (hlength : msiLength s'.bridge.regs (P.bdf d) c = msiLength s.bridge.regs (P.bdf d) c) :
    MsiWorld P regs₀ cap s'.bridge := by
  have hother : ∀ o, o ≠ d → ∀ k, s'.bridge.regs ((P.bdf o).toNat, k) =
      s.bridge.regs ((P.bdf o).toNat, k) :=
    fun o hne k => ht.regs _ fun heq => absurd (hbdf (BitVec.eq_of_toNat_eq heq)) hne
  have hwidth : ∀ o c', cap o = some c' →
      msiLength s'.bridge.regs (P.bdf o) c' = msiLength s.bridge.regs (P.bdf o) c' := by
    intro o c' hc'
    by_cases hne : o = d
    · subst hne
      obtain rfl : c = c' := Option.some.inj (hcap.symm.trans hc')
      exact hlength
    · simp only [msiLength, hother o hne]
  refine ⟨ht.window h.window, fun o => (h.function o).congr (fun k hk => ?_) (hwidth o),
    fun o c' hc' =>
    (hwidth o c' hc').trans (h.length o c' hc')⟩
  by_cases hne : o = d
  · subst hne
    exact ht.regs _ fun _ => (hk c hcap).imp (by omega) (by omega)
  · exact hother o hne k

theorem MsiInv.reads (h : MsiInv P regs₀ cap s) (ht : Touches P d lo lo s s') :
    MsiInv P regs₀ cap s' where
  world := h.world.reads ht
  created := by
    rw [ht.probed, ht.msi]
    exact h.created
  located := by
    rw [ht.probed, ht.start]
    exact h.located
  inside w hw := h.inside w (ht.writes_old w hw)

theorem MsiInv.writes (hbdf : Function.Injective P.bdf) (h : MsiInv P regs₀ cap s)
    (ht : Touches P d lo hi s s') (hcap : cap d = some c) (hlo : c + 2 ≤ lo)
    (hhi : hi ≤ c + msiLength s.bridge.regs (P.bdf d) c)
    (hlength : msiLength s'.bridge.regs (P.bdf d) c = msiLength s.bridge.regs (P.bdf d) c) :
    MsiInv P regs₀ cap s' where
  world := h.world.writes hbdf ht hcap hlo hhi hlength
  created := by
    rw [ht.probed, ht.msi]
    exact h.created
  located := by
    rw [ht.probed, ht.start]
    exact h.located
  inside w hw := by
    rcases ht.writes w hw with hold | ⟨rfl, hown, hlow, -, hhigh⟩
    · exact h.inside w hold
    · rw [h.world.length w.dev c hcap] at hhi
      exact ⟨c, hcap, hown, by omega, by omega⟩

/-- The recorded offsets depend on what was probed and on the one stored offset. -/
theorem recorded_congr {o : ι} (hprobed : s'.probed o = s.probed o)
    (hstart : s.probed o = true → s'.msiIoStart = s.msiIoStart) : s'.recorded o = s.recorded o := by
  unfold MsiState.recorded
  rw [hprobed]
  split_ifs with h
  · rw [hstart h]
  · rfl

theorem msiInv_boot (hwindow : WindowKnown P.mmcfgAddr b)
    (hcap : ∀ d, MsiFunction b.regs (P.bdf d) (cap d)) : MsiInv P b.regs cap (msiBoot ι b) where
  world := ⟨hwindow, hcap, fun _ _ _ => rfl⟩
  created _ h := by cases h
  located _ h := by cases h
  inside _ h := by cases h

/-! ### One operation -/

variable [DecidableEq ι]

/-- What an allowed operation keeps. -/
def Keeps (P : MsiBoard ι) (regs₀ : CfgRegs) (cap : ι → Option Nat) (d : ι)
    (s s' : MsiState ι) : Prop :=
  MsiInv P regs₀ cap s' ∧ ∀ o, o ≠ d → s'.recorded o = s.recorded o

theorem keeps_init (h : MsiInv P regs₀ cap s) :
    Keeps P regs₀ cap d s (MsiBoard.pciMsiInit s d) := by
  refine ⟨⟨h.world, fun o ho => ?_, h.located, h.inside⟩, fun o _ => rfl⟩
  by_cases heq : o = d
  · subst heq
    exact Function.update_self ..
  · exact (Function.update_of_ne heq ..).trans (h.created o ho)

/-- A probe only reads, and stores the offset of the device. -/
theorem exec_probe_eq (h : MsiWorld P regs₀ cap s.bridge) (hmsi : s.msi d = true) :
    ∃ s₁, Touches P d 0 0 s s₁ ∧ (MsiOp.probe d).exec P s = some
      { s₁ with
        msiIoStart := probeStart (cap d)
        probed := Function.update s₁.probed d (decide (probeResult (cap d) = OK)) } := by
  obtain ⟨s₁, hprobe, htouches⟩ := pciMsiProbe_eq h.window (h.function d) hmsi
  refine ⟨s₁, htouches, ?_⟩
  rw [MsiOp.exec, hprobe, Option.map_some]

theorem keeps_probe (h : MsiInv P regs₀ cap s) (halone : (MsiOp.probe d).Alone cap s)
    (hexec : (MsiOp.probe d).exec P s = some s') : Keeps P regs₀ cap d s s' := by
  obtain ⟨r, hprobe, -⟩ := Option.map_eq_some_iff.mp hexec
  have hmsi := msi_of_pciMsiProbe hprobe
  have hfunction := h.world.function d
  obtain ⟨s₁, htouches, hresult⟩ := exec_probe_eq h.world hmsi
  obtain rfl := Option.some.inj (hexec.symm.trans hresult)
  have hinv := h.reads htouches
  -- Every device that counts as probed now has its capability where the probed one has it.
  have hshared : ∀ o, Function.update s₁.probed d (decide (probeResult (cap d) = OK)) o = true →
      ∃ c, cap d = some c ∧ cap o = some c ∧ s₁.msi o = true := by
    intro o ho
    by_cases heq : o = d
    · subst heq
      rw [Function.update_self] at ho
      obtain ⟨c, hc⟩ := exists_of_probeResult (of_decide_eq_true ho)
      exact ⟨c, hc, hc, htouches.msi ▸ hmsi⟩
    · rw [Function.update_of_ne heq] at ho
      have hold : s.probed o = true := htouches.probed ▸ ho
      exact ⟨_, (halone o heq hold).symm.trans (h.located o hold), h.located o hold,
        hinv.created o ho⟩
  refine ⟨⟨hinv.world, fun o ho => ?_, fun o ho => ?_, hinv.inside⟩, fun o hne => ?_⟩
  · obtain ⟨_, _, _, hcreated⟩ := hshared o ho
    exact hcreated
  · obtain ⟨c, hc, hoc, _⟩ := hshared o ho
    rw [hoc, hfunction.toNat_probeStart hc]
  · have hprobed : Function.update s₁.probed d (decide (probeResult (cap d) = OK)) o =
        s.probed o := by
      rw [Function.update_of_ne hne, htouches.probed]
    refine recorded_congr hprobed fun hold => BitVec.eq_of_toNat_eq ?_
    exact hfunction.toNat_probeStart ((halone o hne hold).symm.trans (h.located o hold))

section Writes

variable (hbdf : Function.Injective P.bdf) (h : MsiInv P regs₀ cap s) (hprobed : s.probed d = true)

include hbdf h hprobed

theorem keeps_config {addr : BitVec 64} {data : BitVec 16}
    (hexec : (MsiOp.config d addr data).exec P s = some s') : Keeps P regs₀ cap d s s' := by
  have hcap := h.located d hprobed
  have hplace := (h.world.function d).place _ hcap
  obtain ⟨s₁, hconfig, htouches⟩ := pciMsiConfig_spec h.world.window hplace.aligned
    (h.created d hprobed) rfl hplace.fits addr data
  obtain rfl := Option.some.inj (hexec.symm.trans hconfig)
  have hctrl := htouches.regs ((P.bdf d).toNat, s.msiIoStart.toNat + 2) fun _ =>
    Or.inl (Nat.add_lt_add_left (by decide) _)
  have hwidth : msiLength s'.bridge.regs (P.bdf d) s.msiIoStart.toNat =
      msiLength s.bridge.regs (P.bdf d) s.msiIoStart.toNat := by
    simp only [msiLength, hctrl]
  refine ⟨h.writes hbdf htouches hcap (by omega) (Nat.le_refl _) hwidth, fun o _ => ?_⟩
  exact recorded_congr (congrFun htouches.probed o) fun _ => htouches.start

theorem keeps_enable {flag : Bool} (hexec : (MsiOp.enable d flag).exec P s = some s') :
    Keeps P regs₀ cap d s s' := by
  have hcap := h.located d hprobed
  have hplace := (h.world.function d).place _ hcap
  obtain ⟨s₁, henable, htouches, hwidth⟩ := pciMsiEnable_spec h.world.window hplace.aligned
    (h.created d hprobed) rfl flag
  obtain rfl := Option.some.inj (hexec.symm.trans henable)
  have hlength := msiLength_cases s.bridge.regs (P.bdf d) s.msiIoStart.toNat
  refine ⟨h.writes hbdf htouches hcap (Nat.le_refl _) (by omega) hwidth, fun o _ => ?_⟩
  exact recorded_congr (congrFun htouches.probed o) fun _ => htouches.start

theorem keeps_destroy (hexec : (MsiOp.destroy d).exec P s = some s') :
    Keeps P regs₀ cap d s s' := by
  have hcap := h.located d hprobed
  have hplace := (h.world.function d).place _ hcap
  obtain ⟨s₁, hdestroy, htouches, hwidth⟩ := pciMsiDestroy_spec h.world.window hplace.aligned
    (h.created d hprobed) rfl
  obtain ⟨r, hr, hs'⟩ := Option.map_eq_some_iff.mp hexec
  obtain rfl := Option.some.inj (hr.symm.trans hdestroy)
  subst hs'
  have hlength := msiLength_cases s.bridge.regs (P.bdf d) s.msiIoStart.toNat
  have hinv := h.writes hbdf htouches hcap (Nat.le_refl _) (by omega) hwidth
  -- The other devices keep both their pointer and their mark.
  have hothers : ∀ o, Function.update s₁.probed d false o = true → o ≠ d ∧ s₁.probed o = true := by
    intro o ho
    by_cases heq : o = d
    · rw [heq, Function.update_self] at ho
      cases ho
    · exact ⟨heq, (Function.update_of_ne heq ..).symm.trans ho⟩
  refine ⟨⟨hinv.world, fun o ho => ?_, fun o ho => hinv.located o (hothers o ho).2, hinv.inside⟩,
    fun o hne => ?_⟩
  · exact (Function.update_of_ne (hothers o ho).1 ..).trans (hinv.created o (hothers o ho).2)
  · refine recorded_congr ?_ fun _ => htouches.start
    exact (Function.update_of_ne hne ..).trans (congrFun htouches.probed o)

end Writes

/-- One operation. -/
theorem MsiInv.step {op : MsiOp ι} (hbdf : Function.Injective P.bdf) (h : MsiInv P regs₀ cap s)
    (horder : op.InOrder s) (halone : op.Alone cap s) (hexec : op.exec P s = some s') :
    Keeps P regs₀ cap op.dev s s' := by
  cases op with
  | init d =>
      obtain rfl := Option.some.inj hexec
      exact keeps_init h
  | probe d => exact keeps_probe h halone hexec
  | config d addr data => exact keeps_config hbdf h horder hexec
  | enable d flag => exact keeps_enable hbdf h horder hexec
  | destroy d => exact keeps_destroy hbdf h halone hexec

/-! ### Runs -/

/-- The operations of a run: in the order that the driver asks for, and one device at a time. -/
def MsiOp.Apart (cap : ι → Option Nat) (s : MsiState ι) (op : MsiOp ι) : Prop :=
  op.InOrder s ∧ op.Alone cap s

theorem MsiRun.mono {A B : MsiState ι → MsiOp ι → Prop} {start : MsiState ι}
    (hrun : MsiRun P A start s) (h : ∀ s op, A s op → B s op) : MsiRun P B start s := by
  induction hrun with
  | start => exact .start
  | step _ hallowed hexec ih => exact ih.step (h _ _ hallowed) hexec

theorem MsiRun.inv (hbdf : Function.Injective P.bdf) (hwindow : WindowKnown P.mmcfgAddr b)
    (hcap : ∀ d, MsiFunction b.regs (P.bdf d) (cap d))
    (hrun : MsiRun P (fun s op => op.Apart cap s) (msiBoot ι b) s) : MsiInv P b.regs cap s := by
  induction hrun with
  | start => exact msiInv_boot hwindow hcap
  | step _ hapart hexec ih => exact (ih.step hbdf hapart.1 hapart.2 hexec).1

/-- **In every run of operations that keep apart**, all writes lie in the MSI capability of
    the device for which they are made, and no operation changes the offset recorded for
    another device. -/
theorem msi_devices_kept_apart (hbdf : Function.Injective P.bdf)
    (hwindow : WindowKnown P.mmcfgAddr b) (hcap : ∀ d, MsiFunction b.regs (P.bdf d) (cap d))
    (hrun : MsiRun P (fun s op => op.Apart cap s) (msiBoot ι b) s) :
    (∀ w ∈ s.writes, w.Inside P b.regs cap) ∧
      ∀ (op : MsiOp ι) (s' : MsiState ι), op.Apart cap s → op.exec P s = some s' →
        ∀ o, o ≠ op.dev → s'.recorded o = s.recorded o := by
  have hinv := hrun.inv hbdf hwindow hcap
  refine ⟨hinv.inside, ?_⟩
  intro op s' hapart hexec
  exact (hinv.step hbdf hapart.1 hapart.2 hexec).2

end Ops

/-! ### Two devices -/

/-- Two functions whose MSI capabilities are first in the list, at `0x50` and `0x60`. -/
def twoFunctions : HostBridge where
  configAddress := 0#32
  ecamBase := 0xE0000000#32
  regs c :=
    if c = (0x08, 0x34) then 0x50#8
    else if c = (0x10, 0x34) then 0x60#8
    else if c = (0x08, 0x50) ∨ c = (0x10, 0x60) then 5#8
    else 0#8

def twoBoard : MsiBoard Bool where
  mmcfgAddr := 0#32
  bdf d := if d then 0x10#16 else 0x08#16

def twoCaps (d : Bool) : Option Nat := if d then some 0x60 else some 0x50

theorem twoBoard_bdf_injective : Function.Injective twoBoard.bdf := by
  intro d d' h
  revert d d'
  decide

theorem twoBoard_window : WindowKnown twoBoard.mmcfgAddr twoFunctions := ⟨by decide, Or.inl rfl⟩

theorem twoBoard_functions (d : Bool) :
    MsiFunction twoFunctions.regs (twoBoard.bdf d) (twoCaps d) := by
  cases d with
  | false =>
      refine ⟨fun c hc => ?_, .here rfl (by decide) (by decide)⟩
      obtain rfl := Option.some.inj hc
      exact ⟨by decide, by decide, by decide⟩
  | true =>
      refine ⟨fun c hc => ?_, .here rfl (by decide) (by decide)⟩
      obtain rfl := Option.some.inj hc
      exact ⟨by decide, by decide, by decide⟩

/-- Both devices are initialised, and the first one is probed. -/
theorem twoBoard_first_probed :
    ∃ s, MsiRun twoBoard (fun s op => op.Apart twoCaps s) (msiBoot Bool twoFunctions) s ∧
      MsiWorld twoBoard twoFunctions.regs twoCaps s.bridge ∧ (∀ d, s.msi d = true) ∧
      s.probed false = true ∧ s.msiIoStart = 0x50#8 := by
  let s₁ := MsiBoard.pciMsiInit (msiBoot Bool twoFunctions) false
  let s₂ := MsiBoard.pciMsiInit s₁ true
  have hworld : MsiWorld twoBoard twoFunctions.regs twoCaps s₂.bridge :=
    (msiInv_boot twoBoard_window twoBoard_functions).world
  have hfirst : MsiRun twoBoard (fun s op => op.Apart twoCaps s) (msiBoot Bool twoFunctions) s₁ :=
    .step .start (show (MsiOp.init false).Apart _ _ from ⟨trivial, trivial⟩) rfl
  have hboth : MsiRun twoBoard (fun s op => op.Apart twoCaps s) (msiBoot Bool twoFunctions) s₂ :=
    hfirst.step (show (MsiOp.init true).Apart _ _ from ⟨trivial, trivial⟩) rfl
  obtain ⟨t, ht, hprobe⟩ := exec_probe_eq hworld (rfl : s₂.msi false = true)
  have halone : (MsiOp.probe false).Apart twoCaps s₂ := by
    refine ⟨trivial, fun o _ ho => ?_⟩
    cases ho
  have hafter := hworld.reads ht
  refine ⟨_, hboth.step halone hprobe, hafter, fun d => ?_, rfl, rfl⟩
  change t.msi d = true
  rw [ht.msi]
  cases d <;> rfl

/-- The first device can then be enabled. -/
theorem msi_devices_kept_apart_after_enable :
    ∃ s, MsiRun twoBoard (fun s op => op.Apart twoCaps s) (msiBoot Bool twoFunctions) s ∧
      s.writes ≠ [] ∧ (∀ w ∈ s.writes, w.Inside twoBoard twoFunctions.regs twoCaps) ∧
      ∀ (op : MsiOp Bool) (s' : MsiState Bool), op.Apart twoCaps s → op.exec twoBoard s = some s' →
        ∀ o, o ≠ op.dev → s'.recorded o = s.recorded o := by
  obtain ⟨s, hrun, -, hmsi, hprobed, -⟩ := twoBoard_first_probed
  have hexec : (MsiOp.enable false true).exec twoBoard s = some _ :=
    if_neg (not_not.mpr (hmsi false))
  have hrun' := hrun.step (show (MsiOp.enable false true).Apart twoCaps s from
    ⟨hprobed, trivial⟩) hexec
  exact ⟨_, hrun', List.append_ne_nil_of_right_ne_nil _ (List.cons_ne_nil _ _),
    msi_devices_kept_apart twoBoard_bdf_injective twoBoard_window twoBoard_functions hrun'⟩

/-- **The slip**: with both devices initialised and probed, the probe of the second one moves
    the offset that is recorded for the first, and enabling the first then writes outside its
    capability. -/
theorem probe_moves_other_record :
    Function.Injective twoBoard.bdf ∧ WindowKnown twoBoard.mmcfgAddr twoFunctions ∧
    (∀ d, MsiFunction twoFunctions.regs (twoBoard.bdf d) (twoCaps d)) ∧
    ∃ s s' s'' : MsiState Bool,
      MsiRun twoBoard (fun s op => op.InOrder s) (msiBoot Bool twoFunctions) s ∧
      (MsiOp.probe true).exec twoBoard s = some s' ∧
      s.recorded false = some 0x50#8 ∧ s'.recorded false = some 0x60#8 ∧
      (MsiOp.enable false true).InOrder s' ∧ (MsiOp.enable false true).exec twoBoard s' = some s'' ∧
      ∃ w ∈ s''.writes, w.dev = false ∧ ¬ w.Inside twoBoard twoFunctions.regs twoCaps := by
  obtain ⟨s, hrun, hworld, hmsi, hprobed, hstart⟩ := twoBoard_first_probed
  obtain ⟨t, ht, hprobe⟩ := exec_probe_eq hworld (hmsi true)
  have hmark : t.probed false = true := ht.probed ▸ hprobed
  have hlive : t.msi false = true := ht.msi ▸ hmsi false
  let s' : MsiState Bool :=
    { t with
      msiIoStart := probeStart (twoCaps true)
      probed := Function.update t.probed true (decide (probeResult (twoCaps true) = OK)) }
  have henable : (MsiOp.enable false true).exec twoBoard s' = some _ := if_neg (not_not.mpr hlive)
  have hrecorded : s.recorded false = some 0x50#8 := (if_pos hprobed).trans (congrArg some hstart)
  refine ⟨twoBoard_bdf_injective, twoBoard_window, twoBoard_functions, s, s', _,
    hrun.mono fun _ _ h => h.1, hprobe, hrecorded, if_pos hmark, hmark, henable,
    ⟨false, 0x08#16, 0x62#32, 2#32⟩, ?_, rfl, ?_⟩
  · exact List.mem_append_right _ (List.mem_singleton_self _)
  · rintro ⟨c, hc, -, -, hbound⟩
    obtain rfl := Option.some.inj hc
    revert hbound
    decide

end AcrnGuest
