import AcrnGuest.PciMsi

/-!
# Finding, programming and reading the MSI capability

`pci_msi_probe` answers what the capability list says unless the search leaves the list.
It may do so in three ways: past the zero pointer, where it takes the vendor id of the
function for a header; after 64 headers, which is enough for headers at dwords; and at a
pointer that is not aligned, for which the ports read the dword around it.

`pci_msi_config` and `pci_msi_parse_capability` choose the layout by the same bit of the
control word, so that what one writes is what the other reads.
-/

namespace AcrnGuest

variable {ι : Type} {P : MsiBoard ι} {s s' : MsiState ι} {d : ι} {c : Nat}

/-! ### The list -/

section List

variable (regs : CfgRegs) (bdf : BitVec 16)

/-- The two bytes of the header at a pointer. -/
def capId (p : BitVec 8) : BitVec 8 := regs (bdf.toNat, p.toNat)

def capNext (p : BitVec 8) : BitVec 8 := regs (bdf.toNat, p.toNat + 1)

/-- The pointer that is met after `i` headers. -/
def capPointer (i : Nat) : BitVec 8 := (capNext regs bdf)^[i] (capFirst regs bdf)

/-- The header behind `k` others is the first one with the id of MSI. Zero pointers are followed
    like any other. -/
def MeetsMsi (k : Nat) : Prop :=
  PointerChase.MeetsFirst (fun p => capId regs bdf p = 5#8) (capNext regs bdf)
    (capFirst regs bdf) k

/-- The first MSI capability of the list, which a zero pointer ends, is at `a`. -/
def FirstMsi (a : BitVec 8) : Prop :=
  ∃ k, MeetsMsi regs bdf k ∧ capPointer regs bdf k = a ∧
    ∀ i, i ≤ k → capPointer regs bdf i ≠ 0#8

/-- The dwords that are read at the first 64 pointers have the headers in them: the memory window
    takes any pointer, the ports only an aligned one. -/
def ReadAsListed (mmcfgAddr : BitVec 32) : Prop :=
  mmcfgAddr ≠ 0#32 ∨ ∀ i, i < 64 → (capPointer regs bdf i).toNat % 4 = 0

/-- Of the 64 headers that are met if each pointer stands for the dword around it, the first one
    with the id of MSI is found by the pointer `a`. -/
def DwordsMeetMsi (a : BitVec 8) : Prop :=
  ∃ k, k < 64 ∧
    PointerChase.MeetsFirst (fun p : BitVec 8 => regs (bdf.toNat, p.toNat / 4 * 4) = 5#8)
      (fun p => regs (bdf.toNat, p.toNat / 4 * 4 + 1)) (capFirst regs bdf) k ∧
    (fun p : BitVec 8 => regs (bdf.toNat, p.toNat / 4 * 4 + 1))^[k] (capFirst regs bdf) = a

end List

theorem ReadAsListed.msiSearch_eq {mmcfgAddr : BitVec 32} {regs : CfgRegs} {bdf : BitVec 16}
    (h : ReadAsListed regs bdf mmcfgAddr) :
    msiSearch mmcfgAddr regs bdf 64 (capFirst regs bdf) =
      PointerChase.search (fun p => capId regs bdf p = 5#8) (capNext regs bdf) 64
        (capFirst regs bdf) := by
  have hdword : ∀ i, i < 64 → dwordReg mmcfgAddr
      ((capNext regs bdf)^[i] (capFirst regs bdf)).toNat =
      ((capNext regs bdf)^[i] (capFirst regs bdf)).toNat := by
    intro i hi
    rcases h with hwindow | haligned
    · exact if_neg hwindow
    · exact dwordReg_of_aligned mmcfgAddr (haligned i hi)
  refine PointerChase.search_congr (fun i hi => ?_) fun i hi => ?_
  · rw [readId, hdword i hi]
    rfl
  · rw [readNext, hdword i hi]
    rfl

theorem msiSearch_ports_iff {regs : CfgRegs} {bdf : BitVec 16} {a : BitVec 8} :
    msiSearch 0#32 regs bdf 64 (capFirst regs bdf) = some a ↔ DwordsMeetMsi regs bdf a :=
  PointerChase.search_eq_some_iff

theorem pciMsiProbe_ok_iff (hwindow : WindowKnown P.mmcfgAddr s.bridge) (hmsi : s.msi d = true)
    (a : BitVec 8) :
    (∃ s', P.pciMsiProbe s d = some (OK, s') ∧ s'.msiIoStart = a) ↔
      msiSearch P.mmcfgAddr s.bridge.regs (P.bdf d) 64
        (capFirst s.bridge.regs (P.bdf d)) = some a := by
  obtain ⟨s₁, hprobe, -⟩ := pciMsiProbe_eq_search hwindow hmsi
  rw [hprobe]
  generalize msiSearch P.mmcfgAddr s.bridge.regs (P.bdf d) 64
    (capFirst s.bridge.regs (P.bdf d)) = found
  cases found with
  | none =>
      constructor
      · rintro ⟨s', heq, -⟩
        have herror : ERROR = OK := congrArg Prod.fst (Option.some.inj heq)
        exact absurd herror (by decide)
      · intro heq
        cases heq
  | some b =>
      have hstart : probeStart (some b.toNat) = b := by
        rw [probeStart, Option.getD_some, BitVec.ofNat_toNat, BitVec.setWidth_eq]
      constructor
      · rintro ⟨s', heq, rfl⟩
        obtain rfl := congrArg Prod.snd (Option.some.inj heq)
        exact congrArg some hstart.symm
      · intro heq
        obtain rfl := Option.some.inj heq
        exact ⟨_, rfl, hstart⟩

theorem pciMsiProbe_error (hwindow : WindowKnown P.mmcfgAddr s.bridge) (hmsi : s.msi d = true)
    (hnone : msiSearch P.mmcfgAddr s.bridge.regs (P.bdf d) 64
      (capFirst s.bridge.regs (P.bdf d)) = none) :
    ∃ s', P.pciMsiProbe s d = some (ERROR, s') := by
  obtain ⟨s₁, hprobe, -⟩ := pciMsiProbe_eq_search hwindow hmsi
  rw [hnone] at hprobe
  exact ⟨_, hprobe⟩

/-- A function without capabilities, whose vendor id ends in 5. -/
def bareFunction : HostBridge where
  configAddress := 0#32
  ecamBase := 0xE0000000#32
  regs r := if r = (0x08, 0) then 5#8 else 0#8

def oneBoard : MsiBoard Unit where
  mmcfgAddr := 0#32
  bdf _ := 0x08#16

def initialised (b : HostBridge) : MsiState Unit where
  bridge := b
  msiIoStart := 0#8
  msi _ := true
  probed _ := false
  writes := []

theorem bareFunction_first : capFirst bareFunction.regs 0x08#16 = 0#8 := by decide

theorem not_firstMsi_of_capFirst {regs : CfgRegs} {bdf : BitVec 16}
    (h : capFirst regs bdf = 0#8) (a : BitVec 8) : ¬ FirstMsi regs bdf a := by
  rintro ⟨k, -, -, hlive⟩
  exact hlive 0 (Nat.zero_le k) h

/-- A function whose only capability is MSI, at `0x50`. -/
def msiOnlyFunction : HostBridge where
  configAddress := 0#32
  ecamBase := 0xE0000000#32
  regs r := if r = (0x08, 0x34) then 0x50#8 else if r = (0x08, 0x50) then 5#8 else 0#8

theorem meetsMsi_msiOnlyFunction : MeetsMsi msiOnlyFunction.regs (oneBoard.bdf ()) 0 :=
  PointerChase.meetsFirst_zero_iff.mpr (by decide)

theorem readAsListed_msiOnlyFunction :
    ReadAsListed msiOnlyFunction.regs (oneBoard.bdf ()) oneBoard.mmcfgAddr := by
  -- behind the one capability there are only zero pointers
  have hzero : ∀ i, capPointer msiOnlyFunction.regs (oneBoard.bdf ()) (i + 1) = 0#8 := by
    intro i
    induction i with
    | zero => decide
    | succ i ih =>
        rw [capPointer, Function.iterate_succ_apply'] at ih ⊢
        rw [Function.iterate_succ_apply', ih]
        decide
  refine Or.inr fun i _ => ?_
  cases i with
  | zero => decide
  | succ i => rw [hzero i]; rfl

theorem Stored.frame {off n lo hi : Nat} {val : BitVec 32} (h : Stored P s d off n val)
    (ht : Touches P d lo hi s s') (hapart : off + n ≤ lo ∨ hi ≤ off) : Stored P s' d off n val := by
  intro k hk
  refine (ht.regs _ fun _ => ?_).trans (h k hk)
  rcases hapart with hlow | hhigh
  · exact Or.inl (by dsimp only; omega)
  · exact Or.inr (by dsimp only; omega)

theorem Stored.read {off n : Nat} {val : BitVec 32} (h : Stored P s d off n val)
    (hwindow : WindowKnown P.mmcfgAddr s.bridge) (hoff : off < 256) (hn : n = 1 ∨ n = 2 ∨ n = 4)
    (haligned : off % n = 0) :
    (P.readCfg s d (BitVec.ofNat 32 off) (BitVec.ofNat 32 n)).1 =
      (val.setWidth (8 * n)).setWidth 32 := by
  let a := accessAt (P.bdf d) off n hoff hn haligned
  have hlanes : lanesOf a.bytes = n := by rcases hn with rfl | rfl | rfl <;> rfl
  have hvalue : (P.readCfg s d (BitVec.ofNat 32 off) (BitVec.ofNat 32 n)).1 = _ :=
    readCfg_value hwindow a rfl
  have hlane : ∀ k, k < n → (a.lane k).elim 0xFF#8 s.bridge.regs =
      (val >>> (8 * k)).setWidth 8 := by
    intro k hk
    rw [← h k hk]
    exact congrArg (fun o => s.bridge.regs ((P.bdf d).toNat, o + k)) (toNat_offset hoff)
  apply BitVec.eq_of_getLsbD_eq
  intro i hi
  rw [hvalue, readWidth, hlanes, BitVec.getLsbD_setWidth, BitVec.getLsbD_setWidth,
    getLsbD_readLanes (Nat.le_refl _), BitVec.getLsbD_setWidth]
  by_cases hin : i < 8 * n
  · have hmod : i % 8 < 8 := Nat.mod_lt i (by decide)
    have hbit : 8 * (i / 8) + i % 8 = i := by omega
    rw [if_pos hin, hlane (i / 8) (by omega), BitVec.getLsbD_setWidth,
      BitVec.getLsbD_ushiftRight, hbit, decide_eq_true hmod, decide_eq_true hin]
  · rw [if_neg hin, decide_eq_false hin, Bool.false_and]

section Located

variable (hwindow : WindowKnown P.mmcfgAddr s.bridge) (haligned : c % 4 = 0)
  (hfits : c + msiLength s.bridge.regs (P.bdf d) c ≤ 256) (hmsi : s.msi d = true)
  (hstart : s.msiIoStart.toNat = c)

/-- The fields of the capability hold an address and data, in the layout that its control word
    selects. -/
structure Programmed (P : MsiBoard ι) (s : MsiState ι) (d : ι) (c : Nat) (addr : BitVec 64)
    (data : BitVec 16) : Prop where
  low : Stored P s d (c + 4) 4 (addr.setWidth 32)
  wide : (s.bridge.regs ((P.bdf d).toNat, c + 2)).getLsbD 7 = true →
    Stored P s d (c + 8) 4 ((addr >>> 32).setWidth 32) ∧ Stored P s d (c + 12) 2 (data.setWidth 32)
  narrow : (s.bridge.regs ((P.bdf d).toNat, c + 2)).getLsbD 7 = false →
    Stored P s d (c + 8) 2 (data.setWidth 32)

include hwindow haligned hfits hmsi hstart

theorem pciMsiConfig_programs (addr : BitVec 64) (data : BitVec 16) :
    ∃ s', P.pciMsiConfig s d addr data = some s' ∧
      Touches P d (c + 4) (c + msiLength s.bridge.regs (P.bdf d) c) s s' ∧
      Programmed P s' d c addr data := by
  obtain ⟨s', hconfig, htouches⟩ := pciMsiConfig_spec hwindow haligned hmsi hstart hfits addr data
  have hlength := msiLength_cases s.bridge.regs (P.bdf d) c
  have hctrl := htouches.regs ((P.bdf d).toNat, c + 2) fun _ => Or.inl (by dsimp only; omega)
  refine ⟨s', hconfig, htouches, ?_⟩
  -- the states of the function, in the order of its writes
  have hresult := Option.some.inj
    (hconfig.symm.trans (pciMsiConfig_eq hwindow haligned hmsi hstart addr data))
  have hread := touches_readCfg P s d (BitVec.ofNat 32 (c + 2)) 2#32 (c + 4)
  generalize (P.readCfg s d (BitVec.ofNat 32 (c + 2)) 2#32).2 = s₁ at hresult hread
  have hwindow₁ := hread.window hwindow
  obtain ⟨htouch₂, hlow⟩ := writeBack_spec hwindow₁ (by omega : c + 4 < 256) (Or.inr (Or.inr rfl))
    (by omega) (addr.setWidth 32) (d := d)
  generalize P.writeBack s₁ d (c + 4) 4 (addr.setWidth 32) = s₂ at hresult hlow htouch₂
  have hwindow₂ := htouch₂.window hwindow₁
  unfold msiLength at hfits
  cases hwide : (s.bridge.regs ((P.bdf d).toNat, c + 2)).getLsbD 7 with
  | true =>
      rw [if_pos hwide] at hresult hfits
      obtain ⟨htouch₃, hhigh⟩ :=
        writeBack_spec hwindow₂ (by omega : c + 8 < 256) (Or.inr (Or.inr rfl))
        (by omega) ((addr >>> 32).setWidth 32) (d := d)
      generalize P.writeBack s₂ d (c + 8) 4 ((addr >>> 32).setWidth 32) =
        s₃ at hresult hhigh htouch₃
      obtain ⟨htouch₄, hdata⟩ := writeBack_spec (htouch₃.window hwindow₂) (by omega : c + 12 < 256)
        (Or.inr (Or.inl rfl)) (by omega) (data.setWidth 32) (d := d)
      rw [← hresult] at hdata htouch₄
      refine ⟨(hlow.frame htouch₃ (by omega)).frame htouch₄ (by omega),
        fun _ => ⟨hhigh.frame htouch₄ (by omega), hdata⟩, fun hnarrow => ?_⟩
      rw [hctrl, hwide] at hnarrow
      cases hnarrow
  | false =>
      rw [if_neg (by rw [hwide]; decide)] at hresult hfits
      obtain ⟨htouch₃, hdata⟩ :=
        writeBack_spec hwindow₂ (by omega : c + 8 < 256) (Or.inr (Or.inl rfl))
        (by omega) (data.setWidth 32) (d := d)
      rw [← hresult] at hdata htouch₃
      refine ⟨hlow.frame htouch₃ (by omega), fun hnot => ?_, fun _ => hdata⟩
      rw [hctrl, hwide] at hnot
      cases hnot

theorem pciMsiParseCapability_spec {addr : BitVec 64} {data : BitVec 16}
    (hprogrammed : Programmed P s d c addr data) (cap : MsiCapability) :
    ∃ cap' s', P.pciMsiParseCapability s d cap = some (cap', s') ∧ cap'.messageData = data ∧
      cap'.messageAddrL = addr.setWidth 32 ∧
      ((s.bridge.regs ((P.bdf d).toNat, c + 2)).getLsbD 7 = true →
        cap'.messageAddrH = (addr >>> 32).setWidth 32) ∧
      s'.bridge.regs = s.bridge.regs := by
  have hlength := msiLength_cases s.bridge.regs (P.bdf d) c
  obtain ⟨hflags, hlow, hhigh, hdata, hdata64⟩ := msi_registers hstart
  have hctrl := readCfg_byte hwindow (by omega : c + 2 < 256) (Or.inr (Or.inl rfl))
    (by omega) (d := d)
  have hread₁ := touches_readCfg P s d (BitVec.ofNat 32 (c + 2)) 2#32 0
  have hcapable : ∀ v : BitVec 32,
      MSI_MESSAGE_CTRL_64_BIT_ADDR_CAPABLE &&& (v.setWidth 16).setWidth 32 ≠ 0#32
      ↔ (v.setWidth 8).getLsbD 7 = true := by
    intro v
    rw [addr_capable_iff]
    simp
  rw [MsiBoard.pciMsiParseCapability, if_neg (not_not.mpr hmsi)]
  dsimp only
  simp only [hcapable, hflags, hlow, hhigh, hdata, hdata64, hctrl]
  generalize P.readCfg s d (BitVec.ofNat 32 (c + 2)) 2#32 = r₁ at hread₁ ⊢
  have hwindow₁ := hread₁.window hwindow
  have hread₂ := touches_readCfg P r₁.2 d (BitVec.ofNat 32 (c + 4)) 4#32 0
  have hvalue₂ := (hprogrammed.low.frame hread₁ (by omega)).read hwindow₁ (by omega)
    (Or.inr (Or.inr rfl)) (by omega)
  generalize P.readCfg r₁.2 d (BitVec.ofNat 32 (c + 4)) 4#32 = r₂ at hread₂ hvalue₂ ⊢
  have hread := hread₁.trans hread₂
  have hwindow₂ := hread.window hwindow
  unfold msiLength at hfits
  cases hwide : (s.bridge.regs ((P.bdf d).toNat, c + 2)).getLsbD 7 with
  | true =>
      rw [if_pos hwide] at hfits
      obtain ⟨hstored, hstored'⟩ := hprogrammed.wide hwide
      have hread₃ := touches_readCfg P r₂.2 d (BitVec.ofNat 32 (c + 8)) 4#32 0
      have hvalue₃ := (hstored.frame hread (by omega)).read hwindow₂ (by omega)
        (Or.inr (Or.inr rfl)) (by omega)
      generalize P.readCfg r₂.2 d (BitVec.ofNat 32 (c + 8)) 4#32 = r₃ at hread₃ hvalue₃ ⊢
      have hread₄ := touches_readCfg P r₃.2 d (BitVec.ofNat 32 (c + 12)) 2#32 0
      have hvalue₄ := (hstored'.frame (hread.trans hread₃) (by omega)).read (hread₃.window hwindow₂)
        (by omega) (Or.inr (Or.inl rfl)) (by omega)
      refine ⟨_, _, rfl, (congrArg (BitVec.setWidth 16) hvalue₄).trans (by simp),
        hvalue₂.trans (by simp), fun _ => hvalue₃.trans (by simp), ?_⟩
      exact ((hread.trans hread₃).trans hread₄).regs_eq
  | false =>
      rw [if_neg (by rw [hwide]; decide)] at hfits
      have hread₃ := touches_readCfg P r₂.2 d (BitVec.ofNat 32 (c + 8)) 2#32 0
      have hvalue₃ := ((hprogrammed.narrow hwide).frame hread (by omega)).read hwindow₂ (by omega)
        (Or.inr (Or.inl rfl)) (by omega)
      refine ⟨_, _, rfl, (congrArg (BitVec.setWidth 16) hvalue₃).trans (by simp),
        hvalue₂.trans (by simp), fun hnot => absurd hnot (by decide), ?_⟩
      exact (hread.trans hread₃).regs_eq

end Located

/-- **What `pci_msi_config` writes is what `pci_msi_parse_capability` reads**, in both layouts. No
register but those of the address and the data changes, so the control word before them stays. -/
theorem msi_config_reads_back (hwindow : WindowKnown P.mmcfgAddr s.bridge) (haligned : c % 4 = 0)
    (hfits : c + msiLength s.bridge.regs (P.bdf d) c ≤ 256) (hmsi : s.msi d = true)
    (hstart : s.msiIoStart.toNat = c) (addr : BitVec 64) (data : BitVec 16) (cap : MsiCapability) :
    ∃ s₁ cap' s₂, P.pciMsiConfig s d addr data = some s₁ ∧
      P.pciMsiParseCapability s₁ d cap = some (cap', s₂) ∧
      cap'.messageData = data ∧ cap'.messageAddrL = addr.setWidth 32 ∧
      ((s.bridge.regs ((P.bdf d).toNat, c + 2)).getLsbD 7 = true →
        cap'.messageAddrH = (addr >>> 32).setWidth 32) ∧
      ∀ r : CfgByte,
        (r.1 = (P.bdf d).toNat → r.2 < c + 4 ∨ c + msiLength s.bridge.regs (P.bdf d) c ≤ r.2) →
        s₂.bridge.regs r = s.bridge.regs r := by
  obtain ⟨s₁, hconfig, htouches, hprogrammed⟩ :=
    pciMsiConfig_programs hwindow haligned hfits hmsi hstart addr data
  have hctrl := htouches.regs ((P.bdf d).toNat, c + 2) fun _ => Or.inl (by dsimp only; omega)
  have hlength : msiLength s₁.bridge.regs (P.bdf d) c = msiLength s.bridge.regs (P.bdf d) c := by
    rw [msiLength, msiLength, hctrl]
  have hmsi₁ : s₁.msi d = true := htouches.msi ▸ hmsi
  have hstart₁ : s₁.msiIoStart.toNat = c := htouches.start ▸ hstart
  obtain ⟨cap', s₂, hparse, hdata, hlow, hhigh, hregs⟩ := pciMsiParseCapability_spec
    (htouches.window hwindow) haligned (hlength ▸ hfits) hmsi₁ hstart₁ hprogrammed cap
  refine ⟨s₁, cap', s₂, hconfig, hparse, hdata, hlow, fun hwide => hhigh (hctrl ▸ hwide),
    fun r hr => ?_⟩
  rw [hregs]
  exact htouches.regs r hr

/-- The capability at `0x50`, with a message to the local APIC. -/
theorem msi_config_reads_back_at_0x50 :
    ∃ s₁ cap' s₂,
      oneBoard.pciMsiConfig { initialised msiOnlyFunction with msiIoStart := 0x50#8 }
        () 0xFEE00000#64 0x40#16
          = some s₁ ∧
        oneBoard.pciMsiParseCapability s₁ () ⟨0#16, 0#16, 0#32, 0#32⟩ = some (cap', s₂) ∧
        cap'.messageData = 0x40#16 ∧ cap'.messageAddrL = 0xFEE00000#32 := by
  have hwindow : WindowKnown oneBoard.mmcfgAddr msiOnlyFunction := ⟨by decide, Or.inl rfl⟩
  obtain ⟨s₁, cap', s₂, hconfig, hparse, hdata, hlow, -⟩ :=
    msi_config_reads_back (P := oneBoard) (d := ()) (c := 0x50)
      (s := { initialised msiOnlyFunction with msiIoStart := 0x50#8 }) hwindow (by decide)
      (by decide) rfl rfl
      0xFEE00000#64 0x40#16 ⟨0#16, 0#16, 0#32, 0#32⟩
  exact ⟨s₁, cap', s₂, hconfig, hparse, hdata, hlow⟩

end AcrnGuest
