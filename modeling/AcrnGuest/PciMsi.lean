import AcrnGuest.PciConfig
import AcrnGuest.PointerChase

/-!
# The MSI driver (`lib/pci_msi.c`)

`pci_msi_create` gives every device the same static `struct msi`, so there is one
`msi_io_start` for all of them. `pci_msi_probe` follows the capability list of a device
from register `0x34` and stores where the MSI capability lies; the other operations
read and write relative to the stored offset. The search is that of `PointerChase`: it
takes no notice of the zero pointer at the end of the list, and goes on at register 0.

Each operation is described by the registers it may change (`Touches`) and by what it
stores.
-/

namespace AcrnGuest

/-! ### State -/

/-- The devices: their addresses, and the memory window that the library knows. -/
structure MsiBoard (ι : Type) where
  mmcfgAddr : BitVec 32
  bdf : ι → BitVec 16

/-- A write to the registers of `bdf`, made on behalf of the device `dev`. -/
structure MsiWrite (ι : Type) where
  dev : ι
  bdf : BitVec 16
  offset : BitVec 32
  bytes : BitVec 32

/-- The bridge, the static `cur_msi.msi_io_start` and, for every device, whether
    `pdev->msi` points to `cur_msi` or is `NULL`. What was probed and what was written
    is recorded for the statements. -/
structure MsiState (ι : Type) where
  bridge : HostBridge
  msiIoStart : BitVec 8
  msi : ι → Bool
  probed : ι → Bool
  writes : List (MsiWrite ι)

/-- `struct msi_capability`. -/
structure MsiCapability where
  ctrl : BitVec 16
  messageData : BitVec 16
  messageAddrL : BitVec 32
  messageAddrH : BitVec 32

/-! ### The source -/

def PCI_CAPABILITY_LIST : BitVec 32 := 0x34#32
def PCI_CAP_ID_MSI : BitVec 64 := 0x05#64
def PCI_MSI_FLAGS : BitVec 32 := 2#32
def PCI_MSI_ADDRESS_LO : BitVec 32 := 4#32
def PCI_MSI_ADDRESS_HI : BitVec 32 := 8#32
def PCI_MSI_DATA_32 : BitVec 32 := 8#32
def PCI_MSI_DATA_64 : BitVec 32 := 12#32

def MSI_MESSAGE_CTRL_ENABLE : BitVec 32 := 1#32 <<< 0
def MSI_MESSAGE_CTRL_64_BIT_ADDR_CAPABLE : BitVec 32 := 1#32 <<< 7

def ERROR : BitVec 32 := -1#32

/-- `shift_mask`, for bits below 31. -/
def shiftMask (msb lsb : Nat) : BitVec 64 :=
  Loop.up (fun i mask => mask ||| (1#64 <<< (lsb + i))) (msb + 1 - lsb) 0#64

namespace MsiBoard

variable {ι : Type} (P : MsiBoard ι)

def readCfg (s : MsiState ι) (d : ι) (offset bytes : BitVec 32) : BitVec 32 × MsiState ι :=
  let r := pciPdevReadCfg P.mmcfgAddr s.bridge (P.bdf d) offset bytes
  (r.2, { s with bridge := r.1 })

def writeCfg (s : MsiState ι) (d : ι) (offset bytes val : BitVec 32) : MsiState ι :=
  { s with
    bridge := (pciPdevWriteCfg P.mmcfgAddr s.bridge (P.bdf d) offset bytes val).1
    writes := s.writes ++ [⟨d, P.bdf d, offset, bytes⟩] }

/-- The loop of `pci_msi_probe` with `n` iterations left. The result is the offset of
    the MSI capability, or `none` if the loop did not break. -/
def probeLoop (d : ι) : Nat → BitVec 32 → BitVec 32 → MsiState ι → Option (BitVec 32) × MsiState ι
  | 0, _, _, s => (none, s)
  | n + 1, regAddr, regVal, s =>
      if PCI_CAP_ID_MSI = regVal.setWidth 64 &&& shiftMask 7 0 then (some regAddr, s)
      else
        let regAddr := ((regVal.setWidth 64 &&& shiftMask 15 8) >>> 8).setWidth 32
        let r := P.readCfg s d regAddr 4#32
        probeLoop d n regAddr r.1 r.2

/-- `pci_msi_probe`. Like the operations below it is `none` when it follows the pointer
    `pdev->msi` and that is `NULL`. -/
def pciMsiProbe (s : MsiState ι) (d : ι) : Option (BitVec 32 × MsiState ι) :=
  let first := P.readCfg s d PCI_CAPABILITY_LIST 1#32
  let head := P.readCfg first.2 d first.1 4#32
  let found := P.probeLoop d (0x100 / 4) first.1 head.1 head.2
  if ¬ found.2.msi d then none
  else
    let s := { found.2 with msiIoStart := 0#8 }
    match found.1 with
    | none => some (ERROR, s)
    | some regAddr => some (OK, { s with msiIoStart := regAddr.setWidth 8 })

def pciMsiEnable (s : MsiState ι) (d : ι) (flag : Bool) : Option (MsiState ι) :=
  if ¬ s.msi d then none
  else
    let regAddr := s.msiIoStart.setWidth 32 + PCI_MSI_FLAGS
    let r := P.readCfg s d regAddr 2#32
    let regVal :=
      if flag then r.1 ||| MSI_MESSAGE_CTRL_ENABLE else r.1 &&& ~~~ MSI_MESSAGE_CTRL_ENABLE
    let s := P.writeCfg r.2 d regAddr 2#32 regVal
    some (P.readCfg s d regAddr 2#32).2

def pciMsiConfig (s : MsiState ι) (d : ι) (addr : BitVec 64) (data : BitVec 16) :
    Option (MsiState ι) :=
  if ¬ s.msi d then none
  else
    let msiIoStart := s.msiIoStart.setWidth 32
    let ctrl := P.readCfg s d (msiIoStart + PCI_MSI_FLAGS) 2#32
    let s := P.writeCfg ctrl.2 d (msiIoStart + PCI_MSI_ADDRESS_LO) 4#32 (addr.setWidth 32)
    let s := (P.readCfg s d (msiIoStart + PCI_MSI_ADDRESS_LO) 4#32).2
    if MSI_MESSAGE_CTRL_64_BIT_ADDR_CAPABLE &&& ctrl.1 ≠ 0#32 then
      let s := P.writeCfg s d (msiIoStart + PCI_MSI_ADDRESS_HI) 4#32 ((addr >>> 32).setWidth 32)
      let s := (P.readCfg s d (msiIoStart + PCI_MSI_ADDRESS_HI) 4#32).2
      let s := P.writeCfg s d (msiIoStart + PCI_MSI_DATA_64) 2#32 (data.setWidth 32)
      some (P.readCfg s d (msiIoStart + PCI_MSI_DATA_64) 2#32).2
    else
      let s := P.writeCfg s d (msiIoStart + PCI_MSI_DATA_32) 2#32 (data.setWidth 32)
      some (P.readCfg s d (msiIoStart + PCI_MSI_DATA_32) 2#32).2

/-- `pci_msi_parse_capability`, which overwrites fields of `cap`. -/
def pciMsiParseCapability (s : MsiState ι) (d : ι) (cap : MsiCapability) :
    Option (MsiCapability × MsiState ι) :=
  if ¬ s.msi d then none
  else
    let msiIoStart := s.msiIoStart.setWidth 32
    let ctrl := P.readCfg s d (msiIoStart + PCI_MSI_FLAGS) 2#32
    let cap := { cap with ctrl := ctrl.1.setWidth 16 }
    let low := P.readCfg ctrl.2 d (msiIoStart + PCI_MSI_ADDRESS_LO) 4#32
    let cap := { cap with messageAddrL := low.1 }
    if MSI_MESSAGE_CTRL_64_BIT_ADDR_CAPABLE &&& cap.ctrl.setWidth 32 ≠ 0#32 then
      let high := P.readCfg low.2 d (msiIoStart + PCI_MSI_ADDRESS_HI) 4#32
      let data := P.readCfg high.2 d (msiIoStart + PCI_MSI_DATA_64) 2#32
      some ({ cap with messageAddrH := high.1, messageData := data.1.setWidth 16 }, data.2)
    else
      let data := P.readCfg low.2 d (msiIoStart + PCI_MSI_DATA_32) 2#32
      some ({ cap with messageData := data.1.setWidth 16 }, data.2)

variable [DecidableEq ι]

/-- `pci_msi_create`: all devices get the address of the one static object. -/
def pciMsiCreate (s : MsiState ι) (d : ι) : MsiState ι :=
  { s with msi := Function.update s.msi d true }

def pciMsiInit (s : MsiState ι) (d : ι) : MsiState ι := pciMsiCreate s d

def pciMsiDestroy (s : MsiState ι) (d : ι) : Option (MsiState ι) :=
  if ¬ s.msi d then none
  else
    let regAddr := s.msiIoStart.setWidth 32 + PCI_MSI_FLAGS
    let r := P.readCfg s d regAddr 2#32
    let s := P.writeCfg r.2 d regAddr 2#32 (r.1 &&& ~~~ MSI_MESSAGE_CTRL_ENABLE)
    let s := (P.readCfg s d regAddr 2#32).2
    some { s with msi := Function.update s.msi d false }

end MsiBoard

/-! ### Bytes of a value read -/

theorem byte_readWidth_four (regs : CfgRegs) (lane : Nat → Option CfgByte) {k : Nat} (hk : k < 4) :
    (readWidth regs lane 4#32).extractLsb' (8 * k) 8 = (lane k).elim 0xFF#8 regs := by
  have hlanes : lanesOf 4#32 = 4 := rfl
  rw [← byte_readWidth regs lane (hlanes ▸ hk)]
  apply BitVec.eq_of_getLsbD_eq
  intro i hi
  simp [hi]

/-- `shift_mask` for the two bytes of a header. -/
theorem toNat_and_shiftMask_low (x : BitVec 64) : (x &&& shiftMask 7 0).toNat = x.toNat % 256 := by
  have hmask : shiftMask 7 0 = 0xff#64 := by decide
  have hpow : (0xff#64).toNat = 2 ^ 8 - 1 := by decide
  rw [hmask, BitVec.toNat_and, hpow, Nat.and_two_pow_sub_one_eq_mod]

theorem and_shiftMask_high (x : BitVec 64) :
    (x &&& shiftMask 15 8) >>> 8 = (x >>> 8) &&& shiftMask 7 0 := by
  have hmask : shiftMask 15 8 >>> 8 = shiftMask 7 0 := by decide
  rw [BitVec.ushiftRight_and_distrib, hmask]

theorem capId_iff (regVal : BitVec 32) :
    PCI_CAP_ID_MSI = regVal.setWidth 64 &&& shiftMask 7 0 ↔ regVal.extractLsb' 0 8 = 5#8 := by
  have := regVal.isLt
  rw [← BitVec.toNat_inj, ← BitVec.toNat_inj, toNat_and_shiftMask_low, BitVec.toNat_setWidth,
    BitVec.extractLsb'_toNat, Nat.shiftRight_zero,
    Nat.mod_eq_of_lt (by omega : regVal.toNat < 2 ^ 64)]
  exact eq_comm

theorem capNext_eq (regVal : BitVec 32) :
    ((regVal.setWidth 64 &&& shiftMask 15 8) >>> 8).setWidth 32 =
      (regVal.extractLsb' 8 8).setWidth 32 := by
  have := regVal.isLt
  apply BitVec.eq_of_toNat_eq
  rw [and_shiftMask_high, BitVec.toNat_setWidth, toNat_and_shiftMask_low, BitVec.toNat_ushiftRight,
    BitVec.toNat_setWidth, BitVec.toNat_setWidth, BitVec.extractLsb'_toNat,
    Nat.shiftRight_eq_div_pow, Nat.shiftRight_eq_div_pow]
  omega

/-! ### What an operation touches -/

section Touches

variable {ι : Type} {P : MsiBoard ι} {s s' s'' : MsiState ι} {d : ι} {lo hi lo' hi' : Nat}

/-- Between the two states only registers of the device from `lo` to `hi` were written,
    and nothing was stored in the driver. -/
structure Touches (P : MsiBoard ι) (d : ι) (lo hi : Nat) (s s' : MsiState ι) : Prop where
  regs : ∀ c : CfgByte, (c.1 = (P.bdf d).toNat → c.2 < lo ∨ hi ≤ c.2) →
    s'.bridge.regs c = s.bridge.regs c
  window : WindowKnown P.mmcfgAddr s.bridge → WindowKnown P.mmcfgAddr s'.bridge
  start : s'.msiIoStart = s.msiIoStart
  msi : s'.msi = s.msi
  probed : s'.probed = s.probed
  writes : ∀ w ∈ s'.writes, w ∈ s.writes ∨
    w.dev = d ∧ w.bdf = P.bdf d ∧ lo ≤ w.offset.toNat ∧ w.offset.toNat < hi ∧
      w.offset.toNat + w.bytes.toNat ≤ hi

theorem Touches.trans (h : Touches P d lo hi s s') (h' : Touches P d lo hi s' s'') :
    Touches P d lo hi s s'' where
  regs c hc := (h'.regs c hc).trans (h.regs c hc)
  window hw := h'.window (h.window hw)
  start := h'.start.trans h.start
  msi := h'.msi.trans h.msi
  probed := h'.probed.trans h.probed
  writes w hw := (h'.writes w hw).elim (h.writes w) Or.inr

theorem Touches.mono (h : Touches P d lo hi s s') (hlo : lo' ≤ lo) (hhi : hi ≤ hi') :
    Touches P d lo' hi' s s' where
  regs c hc := h.regs c fun heq => (hc heq).imp (by omega) (by omega)
  window := h.window
  start := h.start
  msi := h.msi
  probed := h.probed
  writes w hw := (h.writes w hw).imp_right fun ⟨hdev, hbdf, hlow, hhigh⟩ =>
    ⟨hdev, hbdf, by omega, by omega, by omega⟩

theorem Touches.regs_eq (h : Touches P d lo lo s s') : s'.bridge.regs = s.bridge.regs :=
  funext fun c => h.regs c fun _ => Nat.lt_or_ge c.2 lo

theorem Touches.writes_old (h : Touches P d lo lo s s') : ∀ w ∈ s'.writes, w ∈ s.writes := by
  intro w hw
  rcases h.writes w hw with hold | ⟨-, -, hlow, hhigh, -⟩
  · exact hold
  · omega

theorem touches_refl (P : MsiBoard ι) (d : ι) (lo hi : Nat) (s : MsiState ι) :
    Touches P d lo hi s s :=
  ⟨fun _ _ => rfl, fun h => h, rfl, rfl, rfl, fun _ hw => Or.inl hw⟩

theorem touches_readCfg (P : MsiBoard ι) (s : MsiState ι) (d : ι)
    (offset bytes : BitVec 32) (lo : Nat) :
    Touches P d lo lo s (P.readCfg s d offset bytes).2 :=
  ⟨fun c _ => congrFun (pciPdevReadCfg_regs ..) c, fun h =>
    h.congr (pciPdevReadCfg_ecamBase ..), rfl, rfl, rfl, fun _ hw => Or.inl hw⟩

theorem readCfg_value (hwindow : WindowKnown P.mmcfgAddr s.bridge) (a : CfgAccess)
    (hbdf : a.bdf = P.bdf d) :
    (P.readCfg s d a.offset a.bytes).1 = readWidth s.bridge.regs a.lane a.bytes := by
  have hvalue := (a.readCfg_eq hwindow).1
  rw [hbdf] at hvalue
  exact hvalue

theorem touches_writeCfg (hwindow : WindowKnown P.mmcfgAddr s.bridge) (a : CfgAccess)
    (hbdf : a.bdf = P.bdf d) (val : BitVec 32) :
    Touches P d a.offset.toNat (a.offset.toNat + a.bytes.toNat) s
        (P.writeCfg s d a.offset a.bytes val) ∧
      (P.writeCfg s d a.offset a.bytes val).bridge.regs =
        writeWidth s.bridge.regs a.lane a.bytes val := by
  obtain ⟨hregs, -⟩ := a.writeCfg_eq hwindow val
  rw [hbdf] at hregs
  refine ⟨⟨fun c hc => ?_, fun h => h.congr (pciPdevWriteCfg_ecamBase ..), rfl, rfl, rfl,
    fun w hw => ?_⟩,
    hregs⟩
  · change (pciPdevWriteCfg P.mmcfgAddr s.bridge (P.bdf d) a.offset a.bytes val).1.regs c = _
    rw [hregs]
    refine writeLanes_of_not_reached (fun k hk heq => ?_) _
    obtain rfl : (a.bdf.toNat, a.offset.toNat + k) = c := Option.some.inj heq
    have hout := hc (congrArg BitVec.toNat hbdf)
    have hlanes : lanesOf a.bytes = a.bytes.toNat := by
      rcases a.bytes_cases with h | h | h <;> rw [h] <;> rfl
    dsimp only at hout
    omega
  · rcases List.mem_append.mp hw with hold | hnew
    · exact Or.inl hold
    · obtain rfl := List.mem_singleton.mp hnew
      have hpos : 0 < a.bytes.toNat := by rcases a.bytes_cases with h | h | h <;> rw [h] <;> decide
      exact Or.inr ⟨rfl, rfl, Nat.le_refl _, Nat.lt_add_of_pos_right hpos, Nat.le_refl _⟩

section Access

variable {off n : Nat} (hwindow : WindowKnown P.mmcfgAddr s.bridge) (hoff : off < 256)
  (hn : n = 1 ∨ n = 2 ∨ n = 4) (haligned : off % n = 0)

include hwindow hoff hn haligned

theorem readCfg_byte :
    (P.readCfg s d (BitVec.ofNat 32 off) (BitVec.ofNat 32 n)).1.setWidth 8 =
      s.bridge.regs ((P.bdf d).toNat, off) := by
  have hvalue : (P.readCfg s d (BitVec.ofNat 32 off) (BitVec.ofNat 32 n)).1 = _ :=
    readCfg_value hwindow (accessAt (P.bdf d) off n hoff hn haligned) rfl
  rw [hvalue, setWidth_readWidth]
  change s.bridge.regs (_, (BitVec.ofNat 32 off).toNat + 0) = _
  rw [toNat_offset hoff, Nat.add_zero]
  rfl

theorem touches_write (val : BitVec 32) :
    Touches P d off (off + n) s (P.writeCfg s d (BitVec.ofNat 32 off) (BitVec.ofNat 32 n) val) := by
  have h : Touches P d (BitVec.ofNat 32 off).toNat
      ((BitVec.ofNat 32 off).toNat + (BitVec.ofNat 32 n).toNat) s
      (P.writeCfg s d (BitVec.ofNat 32 off) (BitVec.ofNat 32 n) val) :=
    (touches_writeCfg hwindow (accessAt (P.bdf d) off n hoff hn haligned) rfl val).1
  have hn' : (BitVec.ofNat 32 n).toNat = n := by
    rw [BitVec.toNat_ofNat]
    omega
  rwa [toNat_offset hoff, hn'] at h

theorem writeCfg_register (val : BitVec 32) {k : Nat} (hk : k < n) :
    (P.writeCfg s d (BitVec.ofNat 32 off) (BitVec.ofNat 32 n) val).bridge.regs
    ((P.bdf d).toNat, off + k) =
      (val >>> (8 * k)).setWidth 8 := by
  let a := accessAt (P.bdf d) off n hoff hn haligned
  have hlanes : lanesOf a.bytes = n := by rcases hn with rfl | rfl | rfl <;> rfl
  have hreg : ((P.bdf d).toNat, off + k) = (a.bdf.toNat, a.offset.toNat + k) :=
    Prod.ext rfl (congrArg (· + k) (toNat_offset hoff).symm)
  refine (congrFun (touches_writeCfg hwindow a rfl val).2 _).trans ?_
  rw [hreg]
  exact a.writeWidth_lane _ val (hlanes ▸ hk)

end Access

end Touches

/-! ### MSI capabilities -/

/-- The registers of an MSI capability: with 64-bit addresses there are four bytes more. -/
def msiLength (regs : CfgRegs) (bdf : BitVec 16) (cap : Nat) : Nat :=
  if (regs (bdf.toNat, cap + 2)).getLsbD 7 then 14 else 10

/-- What a search of at most `n` headers from `off` on meets. With `cap = some c` it ends at
    the MSI capability at `c`, over headers that are not among the MSI registers; with
    `cap = none` no header has the id of MSI. The headers lie at dwords. -/
inductive CapList (regs : CfgRegs) (bdf : BitVec 16) (cap : Option Nat) : Nat → Nat → Prop where
  | here {n c : Nat} (hcap : cap = some c) (hid : regs (bdf.toNat, c) = 5#8)
    (haligned : c % 4 = 0) :
      CapList regs bdf cap (n + 1) c
  | stop {off : Nat} (hcap : cap = none) (haligned : off % 4 = 0) : CapList regs bdf cap 0 off
  | next {n off : Nat} (hid : regs (bdf.toNat, off) ≠ 5#8) (haligned : off % 4 = 0)
      (hout : ∀ c, cap = some c → off + 2 ≤ c ∨ c + msiLength regs bdf c ≤ off)
      (hnext : CapList regs bdf cap n (regs (bdf.toNat, off + 1)).toNat) :
        CapList regs bdf cap (n + 1) off

/-- The registers at `c` are a well-placed MSI capability. -/
structure MsiPlace (regs : CfgRegs) (bdf : BitVec 16) (c : Nat) : Prop where
  area : 0x40 ≤ c
  aligned : c % 4 = 0
  fits : c + msiLength regs bdf c ≤ 256

/-- The function has its MSI capability at `cap`, or none. -/
structure MsiFunction (regs : CfgRegs) (bdf : BitVec 16) (cap : Option Nat) : Prop where
  place : ∀ c, cap = some c → MsiPlace regs bdf c
  list : CapList regs bdf cap 64 (regs (bdf.toNat, 0x34)).toNat

section Caps

variable {regs regs' : CfgRegs} {bdf : BitVec 16} {cap : Option Nat}

theorem CapList.aligned {n off : Nat} (h : CapList regs bdf cap n off) : off % 4 = 0 := by
  cases h with
  | here _ _ haligned => exact haligned
  | stop _ haligned => exact haligned
  | next _ haligned => exact haligned

theorem msiLength_cases (regs : CfgRegs) (bdf : BitVec 16) (c : Nat) :
    msiLength regs bdf c = 10 ∨ msiLength regs bdf c = 14 := by
  unfold msiLength
  split_ifs
  · exact Or.inr rfl
  · exact Or.inl rfl

theorem MsiPlace.lt {c : Nat} (h : MsiPlace regs bdf c) : c + 10 ≤ 256 := by
  have := h.fits
  rcases msiLength_cases regs bdf c with heq | heq <;> omega

/-- Writes to the MSI registers that keep the width of the address keep the capability. -/
theorem MsiFunction.congr (h : MsiFunction regs bdf cap)
    (hregs : ∀ o, (∀ c, cap = some c → o < c + 2 ∨ c + msiLength regs bdf c ≤ o) →
      regs' (bdf.toNat, o) = regs (bdf.toNat, o))
    (hlength : ∀ c, cap = some c → msiLength regs' bdf c = msiLength regs bdf c) :
    MsiFunction regs' bdf cap := by
  have hlist : ∀ n off, CapList regs bdf cap n off → CapList regs' bdf cap n off := by
    intro n off hcaps
    induction hcaps with
    | here hcap hid haligned =>
        refine .here hcap ((hregs _ fun c' hc' => Or.inl ?_).trans hid) haligned
        have := Option.some.inj (hcap.symm.trans hc')
        omega
    | stop hcap haligned => exact .stop hcap haligned
    | @next n off hid haligned hout _ ih =>
        have hheader : ∀ k < 2, regs' (bdf.toNat, off + k) = regs (bdf.toNat, off + k) :=
          fun k hk =>
          hregs _ fun c hc => (hout c hc).imp (by omega) (by omega)
        refine .next ?_ haligned (fun c hc => hlength c hc ▸ hout c hc) ?_
        · rw [← Nat.add_zero off, hheader 0 (by omega)]
          exact hid
        · rw [hheader 1 (by omega)]
          exact ih
  refine ⟨fun c hc => ⟨(h.place c hc).area, (h.place c hc).aligned, ?_⟩, ?_⟩
  · rw [hlength c hc]
    exact (h.place c hc).fits
  · have hpointer : regs' (bdf.toNat, 0x34) = regs (bdf.toNat, 0x34) := hregs _ fun c hc => by
      have := (h.place c hc).area
      omega
    rw [hpointer]
    exact hlist _ _ h.list

end Caps

/-! ### The search for the capability -/

section Ops

variable {ι : Type} {P : MsiBoard ι} {s s' : MsiState ι} {d : ι} {cap : Option Nat} {c : Nat}

def readId (mmcfgAddr : BitVec 32) (regs : CfgRegs) (bdf : BitVec 16) (p : BitVec 8) : BitVec 8 :=
  regs (bdf.toNat, dwordReg mmcfgAddr p.toNat)

def readNext (mmcfgAddr : BitVec 32) (regs : CfgRegs) (bdf : BitVec 16) (p : BitVec 8) : BitVec 8 :=
  regs (bdf.toNat, dwordReg mmcfgAddr p.toNat + 1)

def capFirst (regs : CfgRegs) (bdf : BitVec 16) : BitVec 8 := regs (bdf.toNat, 0x34)

/-- The first of `n` headers that has the id of MSI. -/
def msiSearch (mmcfgAddr : BitVec 32) (regs : CfgRegs) (bdf : BitVec 16) (n : Nat) (p : BitVec 8) :
    Option (BitVec 8) :=
  PointerChase.search (fun p => readId mmcfgAddr regs bdf p = 5#8) (readNext mmcfgAddr regs bdf) n p

theorem readCfg_header (hwindow : WindowKnown P.mmcfgAddr s.bridge) (p : BitVec 8) :
    (P.readCfg s d (p.setWidth 32) 4#32).1.extractLsb' 0 8 =
        readId P.mmcfgAddr s.bridge.regs (P.bdf d) p ∧
      (P.readCfg s d (p.setWidth 32) 4#32).1.extractLsb' 8 8 =
        readNext P.mmcfgAddr s.bridge.regs (P.bdf d) p := by
  have hlt := p.isLt
  have hp : (p.setWidth 32).toNat = p.toNat := by
    rw [BitVec.toNat_setWidth]
    omega
  have hvalue : (P.readCfg s d (p.setWidth 32) 4#32).1 = _ :=
    pciPdevReadCfg_dword hwindow (P.bdf d) (hp ▸ hlt)
  rw [hvalue, hp]
  exact ⟨byte_readWidth_four s.bridge.regs _ (by decide : 0 < 4),
    byte_readWidth_four s.bridge.regs _ (by decide : 1 < 4)⟩

/-- The loop is a search of `n` headers. -/
theorem probeLoop_eq {n : Nat} {p : BitVec 8} {regVal : BitVec 32}
    (hwindow : WindowKnown P.mmcfgAddr s.bridge)
    (hid : regVal.extractLsb' 0 8 = readId P.mmcfgAddr s.bridge.regs (P.bdf d) p)
    (hnext : regVal.extractLsb' 8 8 = readNext P.mmcfgAddr s.bridge.regs (P.bdf d) p) :
    ∃ s', P.probeLoop d n (p.setWidth 32) regVal s =
        ((msiSearch P.mmcfgAddr s.bridge.regs (P.bdf d) n p).map (BitVec.setWidth 32), s') ∧
      Touches P d 0 0 s s' := by
  induction n generalizing p regVal s with
  | zero => exact ⟨s, rfl, touches_refl P d 0 0 s⟩
  | succ n ih =>
      rw [MsiBoard.probeLoop, msiSearch, PointerChase.search]
      simp only [capId_iff, hid]
      split
      · exact ⟨s, rfl, touches_refl P d 0 0 s⟩
      · rw [capNext_eq, hnext]
        generalize readNext P.mmcfgAddr s.bridge.regs (P.bdf d) p = q
        have hread := touches_readCfg P s d (q.setWidth 32) 4#32 0
        obtain ⟨hid', hnext'⟩ := readCfg_header hwindow q (d := d)
        rw [← hread.regs_eq] at hid' hnext'
        obtain ⟨s', hloop, htouches⟩ := ih (hread.window hwindow) hid' hnext'
        rw [hread.regs_eq] at hloop
        exact ⟨s', hloop, hread.trans htouches⟩

theorem readCfg_one {off : Nat} (hwindow : WindowKnown P.mmcfgAddr s.bridge) (hoff : off < 256) :
    (P.readCfg s d (BitVec.ofNat 32 off) 1#32).1 =
      (s.bridge.regs ((P.bdf d).toNat, off)).setWidth 32 := by
  have haligned : off % 1 = 0 := Nat.mod_one off
  have hvalue : (P.readCfg s d (BitVec.ofNat 32 off) 1#32).1 = _ :=
    readCfg_value hwindow (accessAt (P.bdf d) off 1 hoff (Or.inl rfl) haligned) rfl
  have hbyte := readCfg_byte hwindow hoff (Or.inl rfl) haligned (d := d)
  rw [← hbyte]
  have hsmall : (P.readCfg s d (BitVec.ofNat 32 off) 1#32).1.toNat < 256 := by
    rw [hvalue, readWidth, BitVec.toNat_setWidth]
    exact Nat.lt_of_le_of_lt (Nat.mod_le _ _) (BitVec.isLt _)
  apply BitVec.eq_of_toNat_eq
  rw [BitVec.toNat_setWidth, BitVec.toNat_setWidth]
  omega

theorem readCfg_msi (s : MsiState ι) (d : ι) (offset bytes : BitVec 32) :
    (P.readCfg s d offset bytes).2.msi = s.msi :=
  rfl

/-- The search only reads. -/
theorem probeLoop_msi (n : Nat) (regAddr regVal : BitVec 32) (s : MsiState ι) :
    (P.probeLoop d n regAddr regVal s).2.msi = s.msi := by
  induction n generalizing regAddr regVal s with
  | zero => rfl
  | succ n ih =>
      rw [MsiBoard.probeLoop]
      split
      · rfl
      · exact ih _ _ _

/-- A probe that returns was made on a device with a `struct msi`. -/
theorem msi_of_pciMsiProbe {r : BitVec 32 × MsiState ι} (h : P.pciMsiProbe s d = some r) :
    s.msi d = true := by
  rw [MsiBoard.pciMsiProbe] at h
  dsimp only at h
  rw [probeLoop_msi, readCfg_msi, readCfg_msi] at h
  by_contra hnull
  rw [if_pos hnull] at h
  cases h

/-- What `pci_msi_probe` returns and stores for a capability. -/
def probeResult : Option Nat → BitVec 32
  | none => ERROR
  | some _ => OK

def probeStart (cap : Option Nat) : BitVec 8 := BitVec.ofNat 8 (cap.getD 0)

theorem exists_of_probeResult (h : probeResult cap = OK) : ∃ c, cap = some c := by
  cases cap with
  | none => exact absurd h (by decide)
  | some c => exact ⟨c, rfl⟩

theorem MsiFunction.toNat_probeStart {regs : CfgRegs} {bdf : BitVec 16}
    (h : MsiFunction regs bdf cap) (hcap : cap = some c) : (probeStart cap).toNat = c := by
  have hlt := (h.place c hcap).lt
  rw [hcap, probeStart, Option.getD_some, BitVec.toNat_ofNat]
  omega

/-- **`pci_msi_probe`** stores the offset that a search of 64 headers finds, or zero. -/
theorem pciMsiProbe_eq_search (hwindow : WindowKnown P.mmcfgAddr s.bridge) (hmsi : s.msi d = true) :
    let found := (msiSearch P.mmcfgAddr s.bridge.regs (P.bdf d) 64
      (capFirst s.bridge.regs (P.bdf d))).map BitVec.toNat
    ∃ s', P.pciMsiProbe s d = some (probeResult found, { s' with msiIoStart := probeStart found }) ∧
      Touches P d 0 0 s s' := by
  have hpointer : (P.readCfg s d PCI_CAPABILITY_LIST 1#32).1 =
      (capFirst s.bridge.regs (P.bdf d)).setWidth 32 :=
    readCfg_one hwindow (by decide : 0x34 < 256)
  have hfirst := touches_readCfg P s d PCI_CAPABILITY_LIST 1#32 0
  rw [MsiBoard.pciMsiProbe]
  dsimp only
  rw [hpointer]
  generalize capFirst s.bridge.regs (P.bdf d) = p
  generalize (P.readCfg s d PCI_CAPABILITY_LIST 1#32).2 = s₁ at hfirst
  have hwindow₁ := hfirst.window hwindow
  have hread := touches_readCfg P s₁ d (p.setWidth 32) 4#32 0
  obtain ⟨hid, hnext⟩ := readCfg_header hwindow₁ p (d := d)
  rw [← hread.regs_eq] at hid hnext
  obtain ⟨s', hloop, htouches⟩ := probeLoop_eq (n := 64) (hread.window hwindow₁) hid hnext
  have hall := hfirst.trans (hread.trans htouches)
  have hlive : s'.msi d = true := hall.msi ▸ hmsi
  refine ⟨s', ?_, hall⟩
  rw [hread.regs_eq, hfirst.regs_eq] at hloop
  have hbound : 0x100 / 4 = 64 := rfl
  rw [hbound, hloop]
  dsimp only
  rw [if_neg (not_not.mpr hlive)]
  cases msiSearch P.mmcfgAddr s.bridge.regs (P.bdf d) 64 p with
  | none => rfl
  | some a =>
      have hback : (a.setWidth 32).setWidth 8 = a := by
        rw [BitVec.setWidth_setWidth_of_le a (by decide), BitVec.setWidth_eq]
      simp only [Option.map_some, probeResult, probeStart, Option.getD_some, BitVec.ofNat_toNat,
        BitVec.setWidth_eq, hback]

/-- A search along a list with a known capability finds it. -/
theorem CapList.msiSearch_eq {mmcfgAddr : BitVec 32} {regs : CfgRegs} {bdf : BitVec 16} {n : Nat}
    {p : BitVec 8} (h : CapList regs bdf cap n p.toNat) :
    (msiSearch mmcfgAddr regs bdf n p).map BitVec.toNat = cap := by
  induction n generalizing p with
  | zero =>
      cases h with
      | stop hcap => exact hcap.symm
  | succ n ih =>
      have hreg : dwordReg mmcfgAddr p.toNat = p.toNat := dwordReg_of_aligned mmcfgAddr h.aligned
      rw [msiSearch, PointerChase.search]
      cases h with
      | here hcap hid =>
          rw [if_pos (by rw [readId, hreg]; exact hid), hcap]
          rfl
      | next hid haligned hout hnext =>
          rw [if_neg (by rw [readId, hreg]; exact hid), readNext, hreg]
          exact ih hnext

/-- **`pci_msi_probe`** stores the offset of the MSI capability, and zero without one. -/
theorem pciMsiProbe_eq (hwindow : WindowKnown P.mmcfgAddr s.bridge)
    (hcap : MsiFunction s.bridge.regs (P.bdf d) cap) (hmsi : s.msi d = true) :
    ∃ s', P.pciMsiProbe s d = some (probeResult cap, { s' with msiIoStart := probeStart cap }) ∧
      Touches P d 0 0 s s' := by
  have hprobe := pciMsiProbe_eq_search hwindow hmsi
  rw [capFirst, hcap.list.msiSearch_eq] at hprobe
  exact hprobe

/-! ### Writing registers of the capability -/

theorem start_add {start : BitVec 8} {k : Nat} (hstart : start.toNat = c) :
    start.setWidth 32 + BitVec.ofNat 32 k = BitVec.ofNat 32 (c + k) := by
  apply BitVec.eq_of_toNat_eq
  rw [BitVec.toNat_add, BitVec.toNat_setWidth, BitVec.toNat_ofNat, BitVec.toNat_ofNat, hstart]
  omega

theorem msi_registers {start : BitVec 8} (hstart : start.toNat = c) :
    start.setWidth 32 + PCI_MSI_FLAGS = BitVec.ofNat 32 (c + 2) ∧
      start.setWidth 32 + PCI_MSI_ADDRESS_LO = BitVec.ofNat 32 (c + 4) ∧
      start.setWidth 32 + PCI_MSI_ADDRESS_HI = BitVec.ofNat 32 (c + 8) ∧
      start.setWidth 32 + PCI_MSI_DATA_32 = BitVec.ofNat 32 (c + 8) ∧
      start.setWidth 32 + PCI_MSI_DATA_64 = BitVec.ofNat 32 (c + 12) :=
  ⟨start_add hstart, start_add hstart, start_add hstart, start_add hstart, start_add hstart⟩

/-- A register is written and read back. -/
def MsiBoard.writeBack (P : MsiBoard ι) (s : MsiState ι) (d : ι) (off n : Nat) (val : BitVec 32) :
    MsiState ι :=
  (P.readCfg (P.writeCfg s d (BitVec.ofNat 32 off) (BitVec.ofNat 32 n) val) d (BitVec.ofNat 32 off)
    (BitVec.ofNat 32 n)).2

/-- The registers of the device from `off` on hold the low bytes of a value. -/
def Stored (P : MsiBoard ι) (s : MsiState ι) (d : ι) (off n : Nat) (val : BitVec 32) : Prop :=
  ∀ k, k < n → s.bridge.regs ((P.bdf d).toNat, off + k) = (val >>> (8 * k)).setWidth 8

theorem writeBack_spec {off n : Nat} (hwindow : WindowKnown P.mmcfgAddr s.bridge) (hoff : off < 256)
    (hn : n = 1 ∨ n = 2 ∨ n = 4) (haligned : off % n = 0) (val : BitVec 32) :
    Touches P d off (off + n) s (P.writeBack s d off n val) ∧
      Stored P (P.writeBack s d off n val) d off n val := by
  have hwrite := touches_write hwindow hoff hn haligned val (d := d)
  have hread := touches_readCfg P (P.writeCfg s d (BitVec.ofNat 32 off) (BitVec.ofNat 32 n) val) d
    (BitVec.ofNat 32 off) (BitVec.ofNat 32 n) off
  refine ⟨hwrite.trans (hread.mono (Nat.le_refl _) (by omega)), fun k hk => ?_⟩
  exact (congrFun hread.regs_eq _).trans (writeCfg_register hwindow hoff hn haligned val hk)

/-- What `pci_msi_enable` and `pci_msi_destroy` do with the control register. -/
def MsiBoard.updateCtrl (P : MsiBoard ι) (s : MsiState ι) (d : ι) (off : Nat)
    (f : BitVec 32 → BitVec 32) : MsiState ι :=
  let r := P.readCfg s d (BitVec.ofNat 32 off) 2#32
  P.writeBack r.2 d off 2 (f r.1)

theorem updateCtrl_spec {f : BitVec 32 → BitVec 32} (hf : ∀ v, (f v).getLsbD 7 = v.getLsbD 7)
    (hwindow : WindowKnown P.mmcfgAddr s.bridge) (hlt : c + 2 < 256) (haligned : c % 4 = 0) :
    Touches P d (c + 2) (c + 4) s (P.updateCtrl s d (c + 2) f) ∧
      msiLength (P.updateCtrl s d (c + 2) f).bridge.regs (P.bdf d) c =
        msiLength s.bridge.regs (P.bdf d) c := by
  have heven : (c + 2) % 2 = 0 := by omega
  have hread := touches_readCfg P s d (BitVec.ofNat 32 (c + 2)) 2#32 (c + 2)
  have hvalue := readCfg_byte hwindow hlt (Or.inr (Or.inl rfl)) heven (d := d)
  unfold MsiBoard.updateCtrl
  dsimp only
  generalize P.readCfg s d (BitVec.ofNat 32 (c + 2)) 2#32 = r at *
  obtain ⟨hwrite, hstored⟩ := writeBack_spec (hread.window hwindow) hlt
    (Or.inr (Or.inl rfl)) heven (f r.1) (d := d)
  have hbyte := hstored 0 (by decide)
  refine ⟨(hread.mono (Nat.le_refl _) (by omega)).trans hwrite, ?_⟩
  unfold msiLength
  rw [Nat.add_zero, Nat.mul_zero, BitVec.ushiftRight_zero] at hbyte
  rw [hbyte, ← hvalue, BitVec.getLsbD_setWidth, BitVec.getLsbD_setWidth, hf]

theorem ctrl_flag_bit (flag : Bool) (v : BitVec 32) :
    (if flag then v ||| MSI_MESSAGE_CTRL_ENABLE else v &&& ~~~ MSI_MESSAGE_CTRL_ENABLE).getLsbD 7 =
      v.getLsbD 7 := by
  have hset : MSI_MESSAGE_CTRL_ENABLE.getLsbD 7 = false := by decide
  have hclear : (~~~ MSI_MESSAGE_CTRL_ENABLE).getLsbD 7 = true := by decide
  split_ifs
  · rw [BitVec.getLsbD_or, hset, Bool.or_false]
  · rw [BitVec.getLsbD_and, hclear, Bool.and_true]

theorem addr_capable_iff (v : BitVec 32) :
    MSI_MESSAGE_CTRL_64_BIT_ADDR_CAPABLE &&& v ≠ 0#32 ↔ (v.setWidth 8).getLsbD 7 = true := by
  have hpow : MSI_MESSAGE_CTRL_64_BIT_ADDR_CAPABLE = BitVec.twoPow 32 7 := by decide
  have hbit : (v.setWidth 8).getLsbD 7 = v.getLsbD 7 := by simp
  rw [hpow, BitVec.twoPow_and, hbit]
  cases v.getLsbD 7 <;> decide

section Located

variable (hwindow : WindowKnown P.mmcfgAddr s.bridge) (haligned : c % 4 = 0) (hmsi : s.msi d = true)
  (hstart : s.msiIoStart.toNat = c)

include hwindow haligned hmsi hstart

/-- **`pci_msi_enable`** writes the control register. -/
theorem pciMsiEnable_spec (flag : Bool) :
    ∃ s', P.pciMsiEnable s d flag = some s' ∧ Touches P d (c + 2) (c + 4) s s' ∧
      msiLength s'.bridge.regs (P.bdf d) c = msiLength s.bridge.regs (P.bdf d) c := by
  have haddr : s.msiIoStart.setWidth 32 + PCI_MSI_FLAGS = BitVec.ofNat 32 (c + 2) :=
    start_add hstart
  refine ⟨_, ?_, updateCtrl_spec (ctrl_flag_bit flag) hwindow (by omega) haligned⟩
  rw [MsiBoard.pciMsiEnable, if_neg (not_not.mpr hmsi), haddr]
  rfl

/-- **`pci_msi_destroy`** writes the control register and drops the pointer. -/
theorem pciMsiDestroy_spec [DecidableEq ι] :
    ∃ s', P.pciMsiDestroy s d = some { s' with msi := Function.update s'.msi d false } ∧
      Touches P d (c + 2) (c + 4) s s' ∧
      msiLength s'.bridge.regs (P.bdf d) c = msiLength s.bridge.regs (P.bdf d) c := by
  have haddr : s.msiIoStart.setWidth 32 + PCI_MSI_FLAGS = BitVec.ofNat 32 (c + 2) :=
    start_add hstart
  refine ⟨_, ?_, updateCtrl_spec (ctrl_flag_bit false) hwindow (by omega) haligned⟩
  rw [MsiBoard.pciMsiDestroy, if_neg (not_not.mpr hmsi), haddr]
  rfl

theorem pciMsiConfig_eq (addr : BitVec 64) (data : BitVec 16) :
    let s₁ := (P.readCfg s d (BitVec.ofNat 32 (c + 2)) 2#32).2
    let s₂ := P.writeBack s₁ d (c + 4) 4 (addr.setWidth 32)
    P.pciMsiConfig s d addr data = some
      (if (s.bridge.regs ((P.bdf d).toNat, c + 2)).getLsbD 7 then
        P.writeBack (P.writeBack s₂ d (c + 8) 4 ((addr >>> 32).setWidth 32)) d (c + 12) 2
          (data.setWidth 32)
      else P.writeBack s₂ d (c + 8) 2 (data.setWidth 32)) := by
  obtain ⟨hflags, hlow, hhigh, hdata, hdata64⟩ := msi_registers hstart
  have hctrl := readCfg_byte hwindow (by omega : c + 2 < 256) (Or.inr (Or.inl rfl))
    (by omega) (d := d)
  rw [MsiBoard.pciMsiConfig, if_neg (not_not.mpr hmsi), ← hctrl]
  dsimp only
  rw [hflags, hlow, hhigh, hdata, hdata64]
  simp only [addr_capable_iff]
  split_ifs <;> rfl

/-- **`pci_msi_config`** writes the address and data registers of the capability. -/
theorem pciMsiConfig_spec (hfits : c + msiLength s.bridge.regs (P.bdf d) c ≤ 256) (addr : BitVec 64)
    (data : BitVec 16) :
    ∃ s', P.pciMsiConfig s d addr data = some s' ∧
      Touches P d (c + 4) (c + msiLength s.bridge.regs (P.bdf d) c) s s' := by
  have hlength := msiLength_cases s.bridge.regs (P.bdf d) c
  refine ⟨_, pciMsiConfig_eq hwindow haligned hmsi hstart addr data, ?_⟩
  have hread := touches_readCfg P s d (BitVec.ofNat 32 (c + 2)) 2#32 (c + 4)
  have haddr :=
    (writeBack_spec (hread.window hwindow) (by omega : c + 4 < 256) (Or.inr (Or.inr rfl))
    (by omega) (addr.setWidth 32) (d := d)).1
  have hwindow₂ := haddr.window (hread.window hwindow)
  refine (hread.mono (Nat.le_refl _) (by omega)).trans ?_
  refine (haddr.mono (Nat.le_refl _) (by omega)).trans ?_
  unfold msiLength at hfits ⊢
  split_ifs at hfits ⊢ with hwide
  · have hhigh := (writeBack_spec hwindow₂ (by omega : c + 8 < 256) (Or.inr (Or.inr rfl)) (by omega)
      ((addr >>> 32).setWidth 32) (d := d)).1
    have hdata :=
      (writeBack_spec (hhigh.window hwindow₂) (by omega : c + 12 < 256) (Or.inr (Or.inl rfl))
      (by omega) (data.setWidth 32) (d := d)).1
    exact (hhigh.mono (by omega) (by omega)).trans (hdata.mono (by omega) (by omega))
  · have hdata := (writeBack_spec hwindow₂ (by omega : c + 8 < 256) (Or.inr (Or.inl rfl)) (by omega)
      (data.setWidth 32) (d := d)).1
    exact hdata.mono (by omega) (by omega)

end Located

end Ops

end AcrnGuest
