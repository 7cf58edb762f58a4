import AcrnGuest.PciConfig
import AcrnGuest.Memory

/-!
# Sizing a base address register (`lib/pci.c`, `lib/pci_util.c`)

A base address register (BAR) that decodes `2 ^ k` bytes lets the bits from `k` on be
written. The bits below are hardwired: the lowest ones tell the kind of the BAR, the others
are zero. Both functions write all ones, read the register back and write the old value
again. `pci_bar_size` masks the bits of the kind before it takes the two's complement, and
reads the upper half of a 64-bit BAR; `pci_pdev_get_bar_size` does neither, and its result is
the size only if all bits of the kind are zero.
-/

namespace AcrnGuest

/-! ### Registers with hardwired bits -/

/-- The registers behind the bridge, and which of their bits can be written. -/
structure CfgSpace where
  bridge : HostBridge
  writable : CfgRegs

namespace CfgSpace

/-- The registers settle after the bridge has passed a write on. -/
def settled (s : CfgSpace) (b : HostBridge) : CfgSpace :=
  { s with bridge := { b with regs := settleRegs s.writable s.bridge.regs b.regs } }

def configReadl (s : CfgSpace) (dev : BitVec 16) (reg : BitVec 8) : BitVec 32 × CfgSpace :=
  let r := pciConfigReadl s.bridge dev reg
  (r.2, { s with bridge := r.1 })

def configWritel (s : CfgSpace) (dev : BitVec 16) (reg : BitVec 8) (val : BitVec 32) : CfgSpace :=
  s.settled (pciConfigWritel s.bridge dev reg val)

def readCfg (mmcfgAddr : BitVec 32) (s : CfgSpace) (bdf : BitVec 16) (offset bytes : BitVec 32) :
    BitVec 32 × CfgSpace :=
  let r := pciPdevReadCfg mmcfgAddr s.bridge bdf offset bytes
  (r.2, { s with bridge := r.1 })

def writeCfg (mmcfgAddr : BitVec 32) (s : CfgSpace) (bdf : BitVec 16)
    (offset bytes val : BitVec 32) :
    CfgSpace :=
  s.settled (pciPdevWriteCfg mmcfgAddr s.bridge bdf offset bytes val).1

end CfgSpace

/-! ### `lib/pci.c` -/

def PCI_BAR_NUM : Int := 6
def PCI_BASE_ADDRESS_0 : Int := 0x10
def PCI_BASE_ADDRESS_SPACE_IO : BitVec 32 := 0x01#32
def PCI_BASE_ADDRESS_MEM_TYPE_MASK : BitVec 32 := 0x06#32
def PCI_BASE_ADDRESS_MEM_TYPE_64 : BitVec 32 := 0x04#32
def PCI_BASE_ADDRESS_MEM_MASK : BitVec 64 := ~~~ 0x0f#64
def PCI_BASE_ADDRESS_IO_MASK : BitVec 64 := ~~~ 0x03#64

def pciBarMask (bar : BitVec 32) : BitVec 32 :=
  (if bar &&& PCI_BASE_ADDRESS_SPACE_IO ≠ 0#32 then PCI_BASE_ADDRESS_IO_MASK
    else PCI_BASE_ADDRESS_MEM_MASK).setWidth 32

def barReg (barNum : Int) : BitVec 8 := BitVec.ofInt 8 (PCI_BASE_ADDRESS_0 + barNum * 4)

/-- `pci_bar_get`; of the device only `dev->bdf` is used. There is no result if the assertion
    fails. -/
def pciBarGet (s : CfgSpace) (bdf : BitVec 16) (barNum : Int) : Option (BitVec 32 × CfgSpace) :=
  if 0 ≤ barNum ∧ barNum < PCI_BAR_NUM then some (s.configReadl bdf (barReg barNum)) else none

def pciBarIs64 (s : CfgSpace) (bdf : BitVec 16) (barNum : Int) : Option (Bool × CfgSpace) := do
  let (bar, s) ← pciBarGet s bdf barNum
  if bar &&& PCI_BASE_ADDRESS_SPACE_IO ≠ 0#32 then return (false, s)
  return (bar &&& PCI_BASE_ADDRESS_MEM_TYPE_MASK = PCI_BASE_ADDRESS_MEM_TYPE_64, s)

def pciBarSizeHelper (s : CfgSpace) (bdf : BitVec 16) (barNum : Int) : BitVec 32 × CfgSpace :=
  let off := barReg barNum
  let (bar, s) := s.configReadl bdf off
  let s := s.configWritel bdf off (~~~ 0#32)
  let (val, s) := s.configReadl bdf off
  (val, s.configWritel bdf off bar)

def pciBarSize (s : CfgSpace) (bdf : BitVec 16) (barNum : Int) : Option (Word × CfgSpace) := do
  let (size, s) := pciBarSizeHelper s bdf barNum
  if size = 0#32 then return (0#64, s)
  let (bar, s) ← pciBarGet s bdf barNum
  let size := size &&& pciBarMask bar
  let (is64, s) ← pciBarIs64 s bdf barNum
  if is64 then
    let (high, s) := pciBarSizeHelper s bdf (barNum + 1)
    let size64 := (high.setWidth 64 <<< 32) ||| size.setWidth 64
    return (~~~ size64 + 1#64, s)
  else return ((~~~ size + 1#32).setWidth 64, s)

/-! ### `lib/pci_util.c` -/

def PCI_COMMAND : BitVec 32 := 0x04#32
def PCI_COMMAND_IO : BitVec 16 := 0x1#16
def PCI_COMMAND_MEMORY : BitVec 16 := 0x2#16
def PCI_BASE_ADDRESS_SPACE : BitVec 32 := 0x01#32

def pciPdevGetBarSize (mmcfgAddr : BitVec 32) (s : CfgSpace) (bdf : BitVec 16) (bar : BitVec 32) :
    BitVec 32 × CfgSpace :=
  let barId := 0x10#32 + bar * 4#32
  let (command, s) := s.readCfg mmcfgAddr bdf PCI_COMMAND 2#32
  let oldCommand := command.setWidth 16
  let decoding := PCI_COMMAND_IO ||| PCI_COMMAND_MEMORY
  let command := oldCommand &&& ~~~ decoding
  let s := s.writeCfg mmcfgAddr bdf PCI_COMMAND 2#32 (command.setWidth 32)
  let (oldBar, s) := s.readCfg mmcfgAddr bdf barId 4#32
  let s := s.writeCfg mmcfgAddr bdf barId 4#32 (~~~ 0#32)
  let (size, s) := s.readCfg mmcfgAddr bdf barId 4#32
  let size := ~~~ size + 1#32
  let size := if oldBar &&& PCI_BASE_ADDRESS_SPACE ≠ 0#32 then size &&& 0xFFFF#32 else size
  let s := s.writeCfg mmcfgAddr bdf barId 4#32 oldBar
  let s := s.writeCfg mmcfgAddr bdf PCI_COMMAND 2#32 (oldCommand.setWidth 32)
  (size, s)

/-! ### Kinds of BARs -/

/-- What stands behind a BAR. A narrow BAR for ports decodes the low 16 bits only, a wide one for
    memory takes two registers. -/
inductive BarKind
  | unimplemented
  | io (narrow : Bool) (k : Nat)
  | memory (wide prefetch : Bool) (k : Nat)
deriving DecidableEq

namespace BarKind

def size : BarKind → Nat
  | unimplemented => 0
  | io _ k => 2 ^ k
  | memory _ _ k => 2 ^ k

/-- The bits that tell a 64-bit memory BAR and a prefetchable one. -/
def memoryBits (wide prefetch : Bool) : BitVec 32 :=
  (if wide then 4#32 else 0#32) ||| (if prefetch then 8#32 else 0#32)

/-- The hardwired bits that tell the kind. -/
def typeBits : BarKind → BitVec 32
  | unimplemented => 0#32
  | io _ _ => 1#32
  | memory wide prefetch _ => memoryBits wide prefetch

def addressBits : BarKind → BitVec 64
  | unimplemented => 0#64
  | io narrow k => (BitVec.allOnes 64 <<< k) &&& if narrow then 0xFFFF#64 else BitVec.allOnes 64
  | memory _ _ k => BitVec.allOnes 64 <<< k

def wide : BarKind → Bool
  | memory wide _ _ => wide
  | _ => false

/-- The sizes that a BAR of the kind can have. -/
def Valid : BarKind → Prop
  | unimplemented => True
  | io narrow k => 2 ≤ k ∧ k < if narrow then 16 else 32
  | memory wide _ k => 4 ≤ k ∧ k < if wide then 64 else 32

end BarKind

def dwordAccess (bdf : BitVec 16) (off : Nat) (hoff : off < 256) (haligned : off % 4 = 0) :
    CfgAccess :=
  accessAt bdf off 4 hoff (Or.inr (Or.inr rfl)) haligned

def dwordAt (regs : CfgRegs) (bdf : BitVec 16) (off : Nat) : BitVec 32 :=
  readLanes 32 regs (fun k => some (bdf.toNat, off + k)) 4

/-- BAR `i` of a function is of the given kind, with any address programmed. -/
structure Decodes (s : CfgSpace) (bdf : BitVec 16) (i : Nat) (kind : BarKind) : Prop where
  valid : kind.Valid
  index : i + (if kind.wide then 1 else 0) < 6
  writable : dwordAt s.writable bdf (16 + 4 * i) = kind.addressBits.setWidth 32
  hardwired : dwordAt s.bridge.regs bdf (16 + 4 * i) &&& ~~~ kind.addressBits.setWidth 32 =
    kind.typeBits
  writable_high : kind.wide = true →
    dwordAt s.writable bdf (16 + 4 * (i + 1)) = (kind.addressBits >>> 32).setWidth 32
  hardwired_high : kind.wide = true →
    dwordAt s.bridge.regs bdf (16 + 4 * (i + 1)) &&& ~~~
      (kind.addressBits >>> 32).setWidth 32 = 0#32

/-! ### Accesses to registers with hardwired bits -/

namespace CfgAccess

variable (a a' : CfgAccess) (writable regs : CfgRegs) (val : BitVec 32)

def value : BitVec 32 := readWidth regs a.lane a.bytes

def settledWrite : CfgRegs := settleRegs writable regs (writeWidth regs a.lane a.bytes val)

variable {a a' writable regs val}

theorem settledWrite_of_not_names {c : CfgByte} (h : ¬ a.Names c) :
    a.settledWrite writable regs val c = regs c := by
  have hkeep : writeWidth regs a.lane a.bytes val c = regs c := by
    refine writeLanes_of_not_reached (fun k hk heq => h ?_) _
    exact ⟨k, hk, (Option.some.inj heq).symm⟩
  rw [settledWrite, settleRegs, hkeep, settle_self]

theorem settledWrite_lane {k : Nat} (hk : k < lanesOf a.bytes) :
    a.settledWrite writable regs val (a.bdf.toNat, a.offset.toNat + k) =
      settle (writable (a.bdf.toNat, a.offset.toNat + k)) (regs (a.bdf.toNat, a.offset.toNat + k))
        ((val >>> (8 * k)).setWidth 8) := by
  rw [settledWrite, settleRegs, a.writeWidth_lane regs val hk]

/-- Writing the old value back undoes any write. -/
theorem settledWrite_restore :
    a.settledWrite writable (a.settledWrite writable regs val) (a.value regs) = regs := by
  funext c
  by_cases hc : a.Names c
  · obtain ⟨k, hk, rfl⟩ := hc
    have hbyte : (a.value regs >>> (8 * k)).setWidth 8 = regs (a.bdf.toNat, a.offset.toNat + k) :=
      byte_readWidth regs a.lane hk
    rw [settledWrite_lane hk, settledWrite_lane hk, hbyte, settle_restore]
  · rw [settledWrite_of_not_names hc, settledWrite_of_not_names hc]

theorem value_settledWrite_of_apart (h : ∀ c, a'.Names c → ¬ a.Names c) :
    a'.value (a.settledWrite writable regs val) = a'.value regs := by
  refine congrArg (BitVec.setWidth 32) (readLanes_congr fun k hk => ?_)
  exact settledWrite_of_not_names (h _ ⟨k, hk, rfl⟩)

theorem value_settledWrite (h : a.bytes = 4#32) :
    a.value (a.settledWrite writable regs val) = settle (a.value writable) (a.value regs) val := by
  have hlanes : lanesOf a.bytes = 4 := by rw [h]; rfl
  have hwritten : readLanes 32 (writeWidth regs a.lane a.bytes val) a.lane 4 = val := by
    apply BitVec.eq_of_getLsbD_eq
    intro i hi
    have hbit : 8 * (i / 8) + i % 8 = i := Nat.div_add_mod i 8
    rw [getLsbD_readLanes (by decide), if_pos (by omega)]
    change (writeWidth regs a.lane a.bytes val (a.bdf.toNat, a.offset.toNat + i / 8)).getLsbD
      (i % 8) = _
    rw [a.writeWidth_lane regs val (by omega)]
    simp [hbit, Nat.mod_lt]
  simp only [value, h, readWidth_dword]
  rw [settledWrite, readLanes_settleRegs (by decide) fun k _ => rfl, hwritten]

end CfgAccess

namespace CfgSpace

/-- The registers are as before; only the latched address may differ. -/
structure Same (s s' : CfgSpace) : Prop where
  regs : s'.bridge.regs = s.bridge.regs
  writable : s'.writable = s.writable
  ecamBase : s'.bridge.ecamBase = s.bridge.ecamBase

variable {s s' s'' : CfgSpace} {mmcfgAddr : BitVec 32}

theorem Same.trans (h : Same s s') (h' : Same s' s'') : Same s s'' where
  regs := h'.regs.trans h.regs
  writable := h'.writable.trans h.writable
  ecamBase := h'.ecamBase.trans h.ecamBase

/-- What a write through one of the accessors leaves behind. -/
structure Written (s s' : CfgSpace) (a : CfgAccess) (val : BitVec 32) : Prop where
  regs : s'.bridge.regs = a.settledWrite s.writable s.bridge.regs val
  writable : s'.writable = s.writable
  ecamBase : s'.bridge.ecamBase = s.bridge.ecamBase

/-- Any write followed by one of the old value. -/
theorem Written.restore {a : CfgAccess} {val old : BitVec 32} (h : Written s s' a val)
    (hold : old = a.value s.bridge.regs) (h' : Written s' s'' a old) : Same s s'' where
  regs := by
    subst hold
    rw [h'.regs, h.writable, h.regs, CfgAccess.settledWrite_restore]
  writable := h'.writable.trans h.writable
  ecamBase := h'.ecamBase.trans h.ecamBase

theorem Same.written {a : CfgAccess} {val : BitVec 32} (h : Same s s') (h' : Written s' s'' a val) :
    Written s s'' a val where
  regs := by rw [h'.regs, h.regs, h.writable]
  writable := h'.writable.trans h.writable
  ecamBase := h'.ecamBase.trans h.ecamBase

theorem Written.same {a : CfgAccess} {val : BitVec 32} (h : Written s s' a val) (h' : Same s' s'') :
    Written s s'' a val where
  regs := h'.regs.trans h.regs
  writable := h'.writable.trans h.writable
  ecamBase := h'.ecamBase.trans h.ecamBase

/-- **Probing a dword**: read it, write to it, read it again and write the old value back. -/
theorem probe {s₁ s₂ s₃ s₄ : CfgSpace} {a : CfgAccess} {val old : BitVec 32} (ha : a.bytes = 4#32)
    (hread : Same s s₁) (hwrite : Written s₁ s₂ a val) (hagain : Same s₂ s₃)
    (hold : old = a.value s.bridge.regs) (hback : Written s₃ s₄ a old) :
    a.value s₂.bridge.regs = settle (a.value s.writable) (a.value s.bridge.regs) val ∧
      Same s s₄ := by
  have hwritten := hread.written hwrite
  refine ⟨?_, (hwritten.same hagain).restore hold hback⟩
  rw [hwritten.regs, CfgAccess.value_settledWrite ha]

theorem same_readCfg (s : CfgSpace) (bdf : BitVec 16) (offset bytes : BitVec 32) :
    Same s (s.readCfg mmcfgAddr bdf offset bytes).2 :=
  ⟨pciPdevReadCfg_regs .., rfl, pciPdevReadCfg_ecamBase ..⟩

theorem readCfg_eq_value (h : WindowKnown mmcfgAddr s.bridge) (a : CfgAccess) :
    (s.readCfg mmcfgAddr a.bdf a.offset a.bytes).1 = a.value s.bridge.regs :=
  (a.readCfg_eq h).1

theorem written_writeCfg (h : WindowKnown mmcfgAddr s.bridge) (a : CfgAccess) (val : BitVec 32) :
    Written s (s.writeCfg mmcfgAddr a.bdf a.offset a.bytes val) a val :=
  ⟨congrArg (settleRegs s.writable s.bridge.regs) (a.writeCfg_eq h val).1, rfl,
    pciPdevWriteCfg_ecamBase ..⟩

variable (s) {a : CfgAccess} (ha : a.bytes = 4#32)

theorem same_configReadl (a : CfgAccess) :
    Same s (s.configReadl a.bdf (a.offset.setWidth 8)).2 := by
  have hlatched := a.portOut_conf1_address s.bridge
  have hregs := congrArg HostBridge.regs hlatched
  have hbase := congrArg HostBridge.ecamBase hlatched
  exact ⟨hregs, rfl, hbase⟩

include ha

theorem dword_dwordLane : a.dwordLane = a.lane := by
  have haligned := a.aligned
  rw [ha] at haligned
  exact a.dwordLane_of_dvd haligned

theorem configReadl_eq_value :
    (s.configReadl a.bdf (a.offset.setWidth 8)).1 = a.value s.bridge.regs := by
  have hread := a.configRead_eq s.bridge
  rw [CfgAccess.configRead, ha, if_neg (by decide), if_neg (by decide), dword_dwordLane ha] at hread
  simpa [configReadl, CfgAccess.value, ha] using hread

theorem written_configWritel (val : BitVec 32) :
    Written s (s.configWritel a.bdf (a.offset.setWidth 8) val) a val := by
  have hwrite := a.configWrite_eq s.bridge val
  rw [CfgAccess.configWrite, if_neg (by rw [ha]; decide), if_neg (by rw [ha]; decide),
    dword_dwordLane ha]
    at hwrite
  exact ⟨congrArg (settleRegs s.writable s.bridge.regs) hwrite, rfl,
    (portOut_ecamBase ..).trans (portOut_ecamBase ..)⟩

end CfgSpace

/-! ### The probe of `pci_bar_size_helper` -/

section Probe

variable {bdf : BitVec 16} {off i : Nat}

theorem value_dwordAccess (hoff : off < 256) (haligned : off % 4 = 0) (regs : CfgRegs) :
    (dwordAccess bdf off hoff haligned).value regs = dwordAt regs bdf off := by
  have hlane : (dwordAccess bdf off hoff haligned).lane = fun k => some (bdf.toNat, off + k) := by
    funext k
    exact congrArg (fun n => some (bdf.toNat, n + k)) (toNat_offset hoff)
  change readWidth regs (dwordAccess bdf off hoff haligned).lane 4#32 = _
  rw [hlane, readWidth_dword]
  rfl

theorem barReg_natCast (i : Nat) : barReg i = (BitVec.ofNat 32 (16 + 4 * i)).setWidth 8 := by
  have hnat : PCI_BASE_ADDRESS_0 + (i : Int) * 4 = ((16 + 4 * i : Nat) : Int) := by
    unfold PCI_BASE_ADDRESS_0
    push_cast
    omega
  rw [barReg, hnat, BitVec.ofInt_natCast, BitVec.setWidth_ofNat_of_le (by decide)]

theorem pciBarSizeHelper_eq {s s₁ s₂ s₃ : CfgSpace} {barNum : Int} {bar val : BitVec 32}
    (hread : s.configReadl bdf (barReg barNum) = (bar, s₁))
    (hwrite : s₁.configWritel bdf (barReg barNum) (~~~ 0#32) = s₂)
    (hagain : s₂.configReadl bdf (barReg barNum) = (val, s₃)) :
    pciBarSizeHelper s bdf barNum = (val, s₃.configWritel bdf (barReg barNum) bar) := by
  simp only [pciBarSizeHelper, hread, hwrite, hagain]

/-- The helper probes the dword whose register number it computes. -/
theorem pciBarSizeHelper_of_reg (s : CfgSpace) {a : CfgAccess} (ha : a.bytes = 4#32) {barNum : Int}
    (hreg : barReg barNum = a.offset.setWidth 8) :
    (pciBarSizeHelper s a.bdf barNum).1 = settle (a.value s.writable)
      (a.value s.bridge.regs) (~~~ 0#32) ∧
      s.Same (pciBarSizeHelper s a.bdf barNum).2 := by
  -- the accesses in turn, each with what it returns and leaves behind
  have hsame₁ := s.same_configReadl a
  have hbar := s.configReadl_eq_value ha
  rw [← hreg] at hsame₁ hbar
  rcases hread : s.configReadl a.bdf (barReg barNum) with ⟨bar, s₁⟩
  rw [hread] at hsame₁ hbar
  have hwritten := s₁.written_configWritel ha (~~~ 0#32)
  rw [← hreg] at hwritten
  generalize hwrite : s₁.configWritel a.bdf (barReg barNum) (~~~ 0#32) = s₂ at hwritten
  have hsame₃ := s₂.same_configReadl a
  have hval := s₂.configReadl_eq_value ha
  rw [← hreg] at hsame₃ hval
  rcases hagain : s₂.configReadl a.bdf (barReg barNum) with ⟨val, s₃⟩
  rw [hagain] at hsame₃ hval
  have hback := s₃.written_configWritel ha bar
  obtain ⟨hsettled, hsame⟩ := CfgSpace.probe ha hsame₁ hwritten hsame₃ hbar hback
  rw [pciBarSizeHelper_eq hread hwrite hagain, hreg]
  exact ⟨hval.trans hsettled, hsame⟩

theorem pciBarSizeHelper_spec (s : CfgSpace) (bdf : BitVec 16) (hi : i < 6) :
    (pciBarSizeHelper s bdf i).1 =
        settle (dwordAt s.writable bdf (16 + 4 * i))
          (dwordAt s.bridge.regs bdf (16 + 4 * i)) (~~~ 0#32) ∧
      s.Same (pciBarSizeHelper s bdf i).2 := by
  have hprobe := pciBarSizeHelper_of_reg s
    (a := dwordAccess bdf (16 + 4 * i) (by omega) (by omega)) rfl
    (barReg_natCast i)
  rwa [value_dwordAccess, value_dwordAccess] at hprobe

theorem pciBarGet_spec (s : CfgSpace) (bdf : BitVec 16) (hi : i < 6) :
    ∃ s', pciBarGet s bdf i = some (dwordAt s.bridge.regs bdf (16 + 4 * i), s') ∧ s.Same s' := by
  let a := dwordAccess bdf (16 + 4 * i) (by omega) (by omega)
  have hvalue : a.value s.bridge.regs = dwordAt s.bridge.regs bdf (16 + 4 * i) :=
    value_dwordAccess ..
  have hrange : 0 ≤ (i : Int) ∧ (i : Int) < PCI_BAR_NUM := by
    unfold PCI_BAR_NUM
    omega
  refine ⟨_, ?_, s.same_configReadl a⟩
  rw [pciBarGet, if_pos hrange, barReg_natCast, ← hvalue, ← s.configReadl_eq_value rfl]
  rfl

end Probe

/-! ### Sizes as complements -/

/-- All ones from bit `k` on are the negative of `2 ^ k`. -/
theorem not_add_one_eq_two_pow (w k : Nat) :
    ~~~ (BitVec.allOnes w <<< k) + 1#w = BitVec.ofNat w (2 ^ k) := by
  have htwo : BitVec.twoPow w k = BitVec.ofNat w (2 ^ k) := by
    apply BitVec.eq_of_toNat_eq
    rw [BitVec.toNat_twoPow, BitVec.toNat_ofNat]
  rw [← BitVec.neg_eq_not_add, ← BitVec.mul_twoPow_eq_shiftLeft, ← BitVec.neg_one_eq_allOnes,
    BitVec.neg_mul, BitVec.one_mul, BitVec.neg_neg, htwo]

theorem setWidth_ones (k : Nat) :
    (BitVec.allOnes 64 <<< k).setWidth 32 = BitVec.allOnes 32 <<< k := by
  apply BitVec.eq_of_getLsbD_eq
  intro i hi
  simp [hi]

/-- The two halves that the registers of a 64-bit BAR hold. -/
theorem halves_eq (x : BitVec 64) :
    ((x >>> 32).setWidth 32).setWidth 64 <<< 32 ||| (x.setWidth 32).setWidth 64 = x := by
  apply BitVec.eq_of_getLsbD_eq
  intro i hi
  by_cases hlow : i < 32
  · simp [hi, hlow]
  · have hhigh : i - 32 < 32 := by omega
    have hbit : 32 + (i - 32) = i := by omega
    simp [hi, hlow, hhigh, hbit]

theorem complement_narrow {k : Nat} (hk : k < 32) :
    (~~~ (BitVec.allOnes 64 <<< k).setWidth 32 + 1#32).setWidth 64 = BitVec.ofNat 64 (2 ^ k) := by
  have hlt : 2 ^ k < 2 ^ 32 := Nat.pow_lt_pow_right (by decide) hk
  rw [setWidth_ones, not_add_one_eq_two_pow]
  apply BitVec.eq_of_toNat_eq
  rw [BitVec.toNat_setWidth, BitVec.toNat_ofNat, BitVec.toNat_ofNat, Nat.mod_eq_of_lt hlt]

theorem complement_wide (k : Nat) :
    ~~~ ((((BitVec.allOnes 64 <<< k) >>> 32).setWidth 32).setWidth 64 <<< 32 |||
      ((BitVec.allOnes 64 <<< k).setWidth 32).setWidth 64) + 1#64 = BitVec.ofNat 64 (2 ^ k) := by
  rw [halves_eq, not_add_one_eq_two_pow]

theorem settle_ones {w : Nat} (writable old : BitVec w) :
    settle writable old (~~~ 0#w) = (old &&& ~~~ writable) ||| writable := by
  rw [settle, BitVec.not_zero, BitVec.allOnes_and]

theorem and_of_hardwired {w : Nat} {value writable bits low : BitVec w}
    (h : value &&& ~~~ writable = bits) (hlow : writable &&& low = 0#w) :
    value &&& low = bits &&& low := by
  rw [← h]
  apply BitVec.eq_of_getLsbD_eq
  intro i hi
  have hbit := congrArg (BitVec.getLsbD · i) hlow
  simp only [BitVec.getLsbD_and, BitVec.getLsbD_zero] at hbit
  simp only [BitVec.getLsbD_and, BitVec.getLsbD_not, decide_eq_true hi]
  cases hl : low.getLsbD i <;> simp_all

/-- The bits below `k` of an address cannot be programmed. -/
theorem ones_and_low {k n : Nat} (hn : n ≤ k) {low : BitVec 32} (hlow : low.toNat < 2 ^ n) :
    (BitVec.allOnes 64 <<< k).setWidth 32 &&& low = 0#32 := by
  apply BitVec.eq_of_getLsbD_eq
  intro i hi
  by_cases hin : i < n
  · have hik : i < k := by omega
    simp [hik]
  · have hbit : low.getLsbD i = false := by
      rw [← BitVec.testBit_toNat]
      exact Nat.testBit_lt_two_pow
        (Nat.lt_of_lt_of_le hlow (Nat.pow_le_pow_right (by decide) (by omega)))
    simp [hbit]

/-! ### `pci_bar_size` -/

section BarSize

variable {s : CfgSpace} {bdf : BitVec 16} {i k : Nat} {wide prefetch : Bool}

theorem memoryBits_masks : ∀ wide prefetch,
    BarKind.memoryBits wide prefetch &&& PCI_BASE_ADDRESS_SPACE_IO = 0#32 ∧
      BarKind.memoryBits wide prefetch &&& PCI_BASE_ADDRESS_MEM_TYPE_MASK =
        (if wide then PCI_BASE_ADDRESS_MEM_TYPE_64 else 0#32) ∧
      BarKind.memoryBits wide prefetch &&& PCI_BASE_ADDRESS_MEM_MASK.setWidth 32 = 0#32 ∧
      (BarKind.memoryBits wide prefetch = 0#32 ↔ wide = false ∧ prefetch = false) := by
  decide

/-- What the lowest register of a memory BAR tells. -/
theorem Decodes.memory_bits (h : Decodes s bdf i (.memory wide prefetch k)) :
    dwordAt s.bridge.regs bdf (16 + 4 * i) &&& PCI_BASE_ADDRESS_SPACE_IO = 0#32 ∧
      dwordAt s.bridge.regs bdf (16 + 4 * i) &&& PCI_BASE_ADDRESS_MEM_TYPE_MASK =
        if wide then PCI_BASE_ADDRESS_MEM_TYPE_64 else 0#32 := by
  have hk : 4 ≤ k := h.valid.1
  obtain ⟨hspace, htype, -⟩ := memoryBits_masks wide prefetch
  constructor
  · exact (and_of_hardwired h.hardwired (ones_and_low hk (by decide))).trans hspace
  · exact (and_of_hardwired h.hardwired (ones_and_low hk (by decide))).trans htype

/-- What is read back after all ones were written. -/
theorem Decodes.readback {kind : BarKind} (h : Decodes s bdf i kind) :
    settle (dwordAt s.writable bdf (16 + 4 * i))
      (dwordAt s.bridge.regs bdf (16 + 4 * i)) (~~~ 0#32) =
      kind.typeBits ||| kind.addressBits.setWidth 32 := by
  rw [settle_ones, h.writable, h.hardwired]

theorem Decodes.readback_high {kind : BarKind} (h : Decodes s bdf i kind)
    (hwide : kind.wide = true) :
    settle (dwordAt s.writable bdf (16 + 4 * (i + 1)))
      (dwordAt s.bridge.regs bdf (16 + 4 * (i + 1))) (~~~ 0#32) =
        (kind.addressBits >>> 32).setWidth 32 := by
  rw [settle_ones, h.writable_high hwide, h.hardwired_high hwide, BitVec.zero_or]

/-- The mask of `pci_bar_mask` takes the bits of the kind away. -/
theorem memory_mask (hk : 4 ≤ k) :
    (BarKind.memoryBits wide prefetch ||| (BitVec.allOnes 64 <<< k).setWidth 32) &&&
        PCI_BASE_ADDRESS_MEM_MASK.setWidth 32 = (BitVec.allOnes 64 <<< k).setWidth 32 := by
  have htype := (memoryBits_masks wide prefetch).2.2.1
  have hlow := ones_and_low hk (by decide : (0xF#32).toNat < 2 ^ 4)
  have hmask : PCI_BASE_ADDRESS_MEM_MASK.setWidth 32 = ~~~ 0xF#32 := by decide
  rw [BitVec.and_or_distrib_right, htype, BitVec.zero_or, hmask]
  generalize (BitVec.allOnes 64 <<< k).setWidth 32 = x at hlow
  calc x &&& ~~~ 0xF#32 = (x &&& ~~~ 0xF#32) ||| (x &&& 0xF#32) := by rw [hlow, BitVec.or_zero]
    _ = x := by
      rw [← BitVec.and_or_distrib_left, BitVec.or_comm, BitVec.or_not_self, BitVec.and_allOnes]

theorem Decodes.same {s' : CfgSpace} {kind : BarKind} (h : Decodes s bdf i kind)
    (hsame : s.Same s') :
    Decodes s' bdf i kind where
  valid := h.valid
  index := h.index
  writable := by rw [hsame.writable, h.writable]
  hardwired := by rw [hsame.regs, h.hardwired]
  writable_high hwide := by rw [hsame.writable, h.writable_high hwide]
  hardwired_high hwide := by rw [hsame.regs, h.hardwired_high hwide]

theorem pciBarIs64_spec (h : Decodes s bdf i (.memory wide prefetch k)) :
    ∃ s', pciBarIs64 s bdf i = some (wide, s') ∧ s.Same s' := by
  obtain ⟨s', hget, hsame⟩ := pciBarGet_spec s bdf
    (Nat.lt_of_le_of_lt (Nat.le_add_right ..) h.index)
  obtain ⟨hspace, htype⟩ := h.memory_bits
  refine ⟨s', ?_, hsame⟩
  simp only [pciBarIs64, hget, Option.bind_eq_bind, Option.bind_some, hspace, htype]
  cases wide <;> rfl

/-- Something can be read back from every BAR that is there. -/
theorem readback_ne_zero (hvalid : (BarKind.memory wide prefetch k).Valid) :
    BarKind.memoryBits wide prefetch ||| (BitVec.allOnes 64 <<< k).setWidth 32 ≠ 0#32 := by
  intro hzero
  obtain ⟨htype, haddress⟩ := BitVec.or_eq_zero_iff.mp hzero
  cases wide with
  | true => cases prefetch <;> exact absurd htype (by decide)
  | false =>
      have hk : k < 32 := hvalid.2
      have hbit : ((BitVec.allOnes 64 <<< k).setWidth 32).getLsbD 31 = true := by
        have hle : ¬ 31 < k := by omega
        have hlt : 31 - k < 32 := by omega
        rw [setWidth_ones, BitVec.getLsbD_shiftLeft, BitVec.getLsbD_allOnes]
        simp [hle, hlt]
      rw [haddress] at hbit
      exact absurd hbit (by decide)

theorem pciBarSize_memory (h : Decodes s bdf i (.memory wide prefetch k)) :
    ∃ s', pciBarSize s bdf i = some (BitVec.ofNat 64 (2 ^ k), s') ∧ s.Same s' := by
  have hi : i < 6 := Nat.lt_of_le_of_lt (Nat.le_add_right ..) h.index
  have hk : 4 ≤ k := h.valid.1
  -- the four parts of the function, each of which leaves the registers as they were
  obtain ⟨hsize, hsame₁⟩ := pciBarSizeHelper_spec s bdf hi
  obtain ⟨s₂, hget, hsame₂⟩ := pciBarGet_spec (pciBarSizeHelper s bdf i).2 bdf hi
  have h₂ := (h.same hsame₁).same hsame₂
  obtain ⟨s₃, his64, hsame₃⟩ := pciBarIs64_spec h₂
  have hmask : pciBarMask (dwordAt (pciBarSizeHelper s bdf i).2.bridge.regs bdf (16 + 4 * i)) =
      PCI_BASE_ADDRESS_MEM_MASK.setWidth 32 := by
    rw [pciBarMask, if_neg (not_not.mpr (h.same hsame₁).memory_bits.1)]
  have hall := (hsame₁.trans hsame₂).trans hsame₃
  have hne : (pciBarSizeHelper s bdf i).1 ≠ 0#32 := by
    rw [hsize, h.readback]
    exact readback_ne_zero h.valid
  have hlow : (pciBarSizeHelper s bdf i).1 &&& PCI_BASE_ADDRESS_MEM_MASK.setWidth 32 =
      (BitVec.allOnes 64 <<< k).setWidth 32 := by
    rw [hsize, h.readback]
    exact memory_mask hk
  simp only [pciBarSize, if_neg hne, hget, his64, hmask, hlow, Option.bind_eq_bind,
    Option.bind_some]
  cases wide with
  | false => exact ⟨s₃, by rw [if_neg Bool.false_ne_true, complement_narrow h.valid.2]; rfl, hall⟩
  | true =>
      have hindex : i + 1 < 6 := h.index
      obtain ⟨hhigh, hsame₄⟩ := pciBarSizeHelper_spec s₃ bdf hindex
      rw [(h₂.same hsame₃).readback_high rfl] at hhigh
      push_cast at hhigh hsame₄
      refine ⟨_, ?_, hall.trans hsame₄⟩
      rw [if_pos rfl, hhigh]
      exact congrArg (fun size => some (size, _)) (complement_wide k)

theorem pciBarSize_unimplemented (h : Decodes s bdf i .unimplemented) :
    ∃ s', pciBarSize s bdf i = some (0#64, s') ∧ s.Same s' := by
  have hi : i < 6 := h.index
  obtain ⟨hsize, hsame⟩ := pciBarSizeHelper_spec s bdf hi
  have hzero : (pciBarSizeHelper s bdf i).1 = 0#32 := hsize.trans h.readback
  refine ⟨_, ?_, hsame⟩
  simp only [pciBarSize, if_pos hzero]
  rfl

/-- `pci_bar_size` returns the size of a memory BAR, and zero for one that is not there. All
    registers are as before. -/
theorem pciBarSize_eq_size {kind : BarKind} (h : Decodes s bdf i kind)
    (hmemory : ∀ narrow k, kind ≠ .io narrow k) :
    ∃ s', pciBarSize s bdf i = some (BitVec.ofNat 64 kind.size, s') ∧
      s'.bridge.regs = s.bridge.regs := by
  cases kind with
  | unimplemented =>
      obtain ⟨s', hsize, hsame⟩ := pciBarSize_unimplemented h
      exact ⟨s', hsize, hsame.regs⟩
  | io narrow k => exact absurd rfl (hmemory narrow k)
  | memory wide prefetch k =>
      obtain ⟨s', hsize, hsame⟩ := pciBarSize_memory h
      exact ⟨s', hsize, hsame.regs⟩

/-- A prefetchable 64-bit BAR of 8 GiB at `0x600000000`. -/
def wideBarSpace : CfgSpace where
  bridge := ⟨0#32, 0xE0000000#32, fun c => if c = (8, 16) then 0x0C#8
    else if c = (8, 20) then 6#8 else 0#8⟩
  writable c := if c = (8, 20) then 0xFE#8
    else if c.1 = 8 ∧ 21 ≤ c.2 ∧ c.2 < 24 then 0xFF#8 else 0#8

theorem decodes_wideBarSpace : Decodes wideBarSpace 8#16 0 (.memory true true 33) :=
  ⟨⟨by decide, by decide⟩, by decide, by decide, by decide, fun _ => by decide, fun _ => by decide⟩

theorem pciBarSize_eq_8GiB :
    ∃ s', pciBarSize wideBarSpace 8#16 (0 : Nat) = some (0x200000000#64, s') ∧
      s'.bridge.regs = wideBarSpace.bridge.regs :=
  pciBarSize_eq_size decodes_wideBarSpace (by intro _ _ h; cases h)

end BarSize

/-! ### `pci_pdev_get_bar_size` -/

section PdevBarSize

variable {s : CfgSpace} {bdf : BitVec 16} {i k : Nat} {mmcfgAddr : BitVec 32} {kind : BarKind}

theorem WindowKnown.same {s' : CfgSpace} (h : WindowKnown mmcfgAddr s.bridge) (hsame : s.Same s') :
    WindowKnown mmcfgAddr s'.bridge := h.congr hsame.ecamBase

theorem WindowKnown.written {s' : CfgSpace} {a : CfgAccess} {val : BitVec 32}
    (h : WindowKnown mmcfgAddr s.bridge) (hwritten : s.Written s' a val) :
    WindowKnown mmcfgAddr s'.bridge := h.congr hwritten.ecamBase

theorem setWidth_readWidth_word (regs : CfgRegs) (lane : Nat → Option CfgByte) :
    ((readWidth regs lane 2#32).setWidth 16).setWidth 32 = readWidth regs lane 2#32 := by
  change (((readLanes 16 regs lane 2).setWidth 32).setWidth 16).setWidth 32 =
    (readLanes 16 regs lane 2).setWidth 32
  rw [BitVec.setWidth_setWidth_of_le (readLanes 16 regs lane 2) (by decide : 16 ≤ 32),
    BitVec.setWidth_eq]

/-- The value that the function computes from what it read before and after the write. -/
def getBarSizeOf (oldBar readback : BitVec 32) : BitVec 32 :=
  if oldBar &&& PCI_BASE_ADDRESS_SPACE ≠ 0#32 then (~~~ readback + 1#32) &&& 0xFFFF#32
  else ~~~ readback + 1#32

/-- The command register and a BAR have no byte in common. -/
theorem commandAccess_apart {c : CfgByte} (hi : i < 6)
    (h : (dwordAccess bdf (16 + 4 * i) (by omega) (by omega)).Names c) :
    ¬ (accessAt bdf 4 2 (by decide) (Or.inr (Or.inl rfl)) rfl).Names c := by
  rintro ⟨k, hk, rfl⟩
  obtain ⟨j, -, heq⟩ := h
  have hoff : (BitVec.ofNat 32 4).toNat + k = (BitVec.ofNat 32 (16 + 4 * i)).toNat + j :=
    congrArg Prod.snd heq
  have hk' : k < 2 := hk
  rw [toNat_offset (by decide), toNat_offset (by omega)] at hoff
  omega

theorem pciPdevGetBarSize_spec (bdf : BitVec 16) (hwindow : WindowKnown mmcfgAddr s.bridge)
    (hi : i < 6) :
    (pciPdevGetBarSize mmcfgAddr s bdf (BitVec.ofNat 32 i)).1 =
        getBarSizeOf (dwordAt s.bridge.regs bdf (16 + 4 * i))
          (settle (dwordAt s.writable bdf (16 + 4 * i))
            (dwordAt s.bridge.regs bdf (16 + 4 * i)) (~~~ 0#32)) ∧
      s.Same (pciPdevGetBarSize mmcfgAddr s bdf (BitVec.ofNat 32 i)).2 := by
  let a := dwordAccess bdf (16 + 4 * i) (by omega) (by omega)
  let c := accessAt bdf 4 2 (by decide) (Or.inr (Or.inl rfl)) rfl
  have hvalue : ∀ regs, a.value regs = dwordAt regs bdf (16 + 4 * i) := value_dwordAccess _ _
  have hbarId : 0x10#32 + BitVec.ofNat 32 i * 4#32 = a.offset := by
    apply BitVec.eq_of_toNat_eq
    change _ = (BitVec.ofNat 32 (16 + 4 * i)).toNat
    simp only [BitVec.toNat_add, BitVec.toNat_mul, BitVec.toNat_ofNat]
    omega
  have happart : ∀ x, a.Names x → ¬ c.Names x := fun _ => commandAccess_apart hi
  -- the command register is cleared, the BAR is probed and the command register is restored
  let s₁ := (s.readCfg mmcfgAddr bdf PCI_COMMAND 2#32).2
  let command := (s.readCfg mmcfgAddr bdf PCI_COMMAND 2#32).1.setWidth 16
  let decoding := PCI_COMMAND_IO ||| PCI_COMMAND_MEMORY
  let s₂ := s₁.writeCfg mmcfgAddr bdf PCI_COMMAND 2#32
    ((command &&& ~~~ decoding).setWidth 32)
  let s₃ := (s₂.readCfg mmcfgAddr bdf a.offset 4#32).2
  let s₄ := s₃.writeCfg mmcfgAddr bdf a.offset 4#32 (~~~ 0#32)
  let s₅ := (s₄.readCfg mmcfgAddr bdf a.offset 4#32).2
  let s₆ := s₅.writeCfg mmcfgAddr bdf a.offset 4#32 (s₂.readCfg mmcfgAddr bdf a.offset 4#32).1
  have hread₁ : s.Same s₁ := s.same_readCfg ..
  have hclear : s.Written s₂ c _ :=
    hread₁.written (CfgSpace.written_writeCfg (hwindow.same hread₁) c _)
  have hwindow₂ := hwindow.written hclear
  have hread₃ : s₂.Same s₃ := s₂.same_readCfg ..
  have hones : s₃.Written s₄ a (~~~ 0#32) := CfgSpace.written_writeCfg (hwindow₂.same hread₃) a _
  have hwindow₄ := (hwindow₂.same hread₃).written hones
  have hread₅ : s₄.Same s₅ := s₄.same_readCfg ..
  have hold := CfgSpace.readCfg_eq_value hwindow₂ a
  have hback : s₅.Written s₆ a _ := CfgSpace.written_writeCfg (hwindow₄.same hread₅) a _
  obtain ⟨hval, hsame⟩ := CfgSpace.probe rfl hread₃ hones hread₅ hold hback
  have hbar : a.value s₂.bridge.regs = dwordAt s.bridge.regs bdf (16 + 4 * i) := by
    rw [hclear.regs, CfgAccess.value_settledWrite_of_apart happart, hvalue]
  have hcommand : command.setWidth 32 = c.value s.bridge.regs := by
    have hread := CfgSpace.readCfg_eq_value hwindow c
    change ((s.readCfg mmcfgAddr c.bdf c.offset c.bytes).1.setWidth 16).setWidth 32 = _
    rw [hread]
    exact setWidth_readWidth_word ..
  have hrestored := (hclear.same hsame).restore hcommand
    (CfgSpace.written_writeCfg (hwindow₂.same hsame) c (command.setWidth 32))
  have hreadback : (s₄.readCfg mmcfgAddr bdf a.offset 4#32).1 =
      settle (dwordAt s.writable bdf (16 + 4 * i)) (dwordAt s.bridge.regs bdf (16 + 4 * i))
        (~~~ 0#32) := by
    refine (CfgSpace.readCfg_eq_value hwindow₄ a).trans (hval.trans ?_)
    rw [hbar, hclear.writable, hvalue]
  unfold pciPdevGetBarSize
  rw [hbarId]
  refine ⟨?_, hrestored⟩
  rw [← hreadback, ← hbar, ← hold]
  rfl

/-- Without a mask, the size is right only if the bits of the kind are zero. -/
theorem complement_eq_size_iff {bits : BitVec 32} (hbits : bits.toNat < 2 ^ k) :
    ~~~ (bits ||| (BitVec.allOnes 64 <<< k).setWidth 32) + 1#32 = BitVec.ofNat 32 (2 ^ k) ↔
      bits = 0#32 := by
  have hapart := ones_and_low (Nat.le_refl k) hbits
  have hsize : BitVec.ofNat 32 (2 ^ k) = ~~~ (BitVec.allOnes 64 <<< k).setWidth 32 + 1#32 := by
    rw [setWidth_ones, not_add_one_eq_two_pow]
  rw [hsize, ← BitVec.neg_eq_not_add, ← BitVec.neg_eq_not_add, BitVec.neg_inj]
  generalize (BitVec.allOnes 64 <<< k).setWidth 32 = ones at hapart
  constructor
  · intro hsame
    calc bits = (bits ||| ones) &&& bits := by
          rw [BitVec.and_comm, BitVec.and_or_distrib_left, BitVec.and_self,
            BitVec.and_comm bits, hapart, BitVec.or_zero]
      _ = 0#32 := by rw [hsame, hapart]
  · rintro rfl
    exact BitVec.zero_or

theorem Decodes.io_space {narrow : Bool} (h : Decodes s bdf i (.io narrow k)) :
    dwordAt s.bridge.regs bdf (16 + 4 * i) &&& PCI_BASE_ADDRESS_SPACE ≠ 0#32 := by
  have hlow : (BarKind.io narrow k).addressBits.setWidth 32 &&& PCI_BASE_ADDRESS_SPACE = 0#32 := by
    have hones := ones_and_low h.valid.1 (by decide : PCI_BASE_ADDRESS_SPACE.toNat < 2 ^ 2)
    rw [BarKind.addressBits, BitVec.setWidth_and, BitVec.and_assoc,
      BitVec.and_comm _ PCI_BASE_ADDRESS_SPACE, ← BitVec.and_assoc, hones, BitVec.zero_and]
  have hbit : (BarKind.io narrow k).typeBits = 1#32 := rfl
  rw [and_of_hardwired h.hardwired hlow, hbit]
  decide

/-- Of a BAR for ports comes an odd number. -/
theorem getBarSizeOf_io_ne {oldBar bits : BitVec 32}
    (hspace : oldBar &&& PCI_BASE_ADDRESS_SPACE ≠ 0#32) (hk : 2 ≤ k) :
    getBarSizeOf oldBar (1#32 ||| bits) ≠ BitVec.ofNat 32 (2 ^ k) := by
  intro heq
  have hbit := congrArg (BitVec.getLsbD · 0) heq
  have heven : (2 ^ k).testBit 0 = false := Nat.testBit_two_pow_of_ne (by omega)
  rw [getBarSizeOf, if_pos hspace, ← BitVec.neg_eq_not_add] at hbit
  simp only [BitVec.getLsbD_and, BitVec.getLsbD_neg, BitVec.getLsbD_or, BitVec.getLsbD_ofNat,
    heven] at hbit
  revert hbit
  simp

/-- `pci_pdev_get_bar_size` returns the size of a BAR exactly if it is a 32-bit memory BAR that is
    not prefetchable. The registers are as before in any case. -/
theorem pciPdevGetBarSize_eq_size_iff (hwindow : WindowKnown mmcfgAddr s.bridge)
    (h : Decodes s bdf i kind) (hsize : kind.size = 2 ^ k) (hk : k ≤ 31) :
    (∃ s', pciPdevGetBarSize mmcfgAddr s bdf (BitVec.ofNat 32 i) = (BitVec.ofNat 32 (2 ^ k), s') ∧
      s'.bridge.regs = s.bridge.regs) ↔ kind = .memory false false k := by
  obtain ⟨hresult, hsame⟩ :=
    pciPdevGetBarSize_spec bdf hwindow (Nat.lt_of_le_of_lt (Nat.le_add_right ..) h.index)
  rw [h.readback] at hresult
  have hvalue : (∃ s', pciPdevGetBarSize mmcfgAddr s bdf (BitVec.ofNat 32 i) =
      (BitVec.ofNat 32 (2 ^ k), s') ∧
      s'.bridge.regs = s.bridge.regs) ↔
        getBarSizeOf (dwordAt s.bridge.regs bdf (16 + 4 * i))
          (kind.typeBits ||| kind.addressBits.setWidth 32) =
          BitVec.ofNat 32 (2 ^ k) := by
    rw [← hresult]
    constructor
    · rintro ⟨s', heq, -⟩
      exact congrArg Prod.fst heq
    · intro heq
      exact ⟨_, Prod.ext heq rfl, hsame.regs⟩
  rw [hvalue]
  cases kind with
  | unimplemented => exact absurd hsize.symm (Nat.ne_of_gt (Nat.two_pow_pos k))
  | io narrow k' =>
      obtain rfl : k' = k := Nat.pow_right_injective (Nat.le_refl 2) hsize
      exact iff_of_false (getBarSizeOf_io_ne h.io_space h.valid.1) (by simp)
  | memory wide prefetch k' =>
      obtain rfl : k' = k := Nat.pow_right_injective (Nat.le_refl 2) hsize
      have hbits : (BarKind.memoryBits wide prefetch).toNat < 2 ^ k' := by
        have hle : 2 ^ 4 ≤ 2 ^ k' := Nat.pow_le_pow_right (by decide) h.valid.1
        have hlt : (BarKind.memoryBits wide prefetch).toNat < 2 ^ 4 := by
          cases wide <;> cases prefetch <;> decide
        omega
      have hspace : dwordAt s.bridge.regs bdf (16 + 4 * i) &&& PCI_BASE_ADDRESS_SPACE = 0#32 :=
        h.memory_bits.1
      rw [getBarSizeOf, if_neg (not_not.mpr hspace)]
      refine (complement_eq_size_iff hbits).trans ?_
      rw [(memoryBits_masks wide prefetch).2.2.2]
      simp

/-- A BAR of 4 KiB at `0xC0000000` with the given bits of its kind. -/
def pageBarSpace (bits : BitVec 8) : CfgSpace where
  bridge := ⟨0#32, 0xE0000000#32, fun c => if c = (8, 16) then bits
    else if c = (8, 19) then 0xC0#8 else 0#8⟩
  writable c := if c = (8, 17) then 0xF0#8
    else if c.1 = 8 ∧ 18 ≤ c.2 ∧ c.2 < 20 then 0xFF#8 else 0#8

theorem decodes_pageBarSpace :
    Decodes (pageBarSpace 0#8) 8#16 0 (.memory false false 12) ∧
      Decodes (pageBarSpace 8#8) 8#16 0 (.memory false true 12) ∧
      Decodes (pageBarSpace 1#8) 8#16 0 (.io false 12) := by
  refine ⟨⟨⟨by decide, by decide⟩, by decide, by decide, by decide, ?_, ?_⟩,
    ⟨⟨by decide, by decide⟩, by decide, by decide, by decide, ?_, ?_⟩,
    ⟨⟨by decide, by decide⟩, by decide, by decide, by decide, ?_, ?_⟩⟩ <;>
    exact fun hwide => absurd hwide (by decide)

theorem pciPdevGetBarSize_eq_page :
    ∃ s', pciPdevGetBarSize 0#32 (pageBarSpace 0#8) 8#16 (BitVec.ofNat 32 0) =
      (BitVec.ofNat 32 (2 ^ 12), s') ∧
      s'.bridge.regs = (pageBarSpace 0#8).bridge.regs :=
  (pciPdevGetBarSize_eq_size_iff ⟨by decide, Or.inl rfl⟩ decodes_pageBarSpace.1 rfl
    (by decide)).mpr rfl

/-- **The slip**: the bits of the kind are taken for bits of the size. A prefetchable page comes out
    with 4088 bytes, and one of ports with 4095. -/
theorem pciPdevGetBarSize_counts_type_bits :
    (Decodes (pageBarSpace 8#8) 8#16 0 (.memory false true 12) ∧
      (pciPdevGetBarSize 0#32 (pageBarSpace 8#8) 8#16 0#32).1 = 4088#32) ∧
    Decodes (pageBarSpace 1#8) 8#16 0 (.io false 12) ∧
      (pciPdevGetBarSize 0#32 (pageBarSpace 1#8) 8#16 0#32).1 = 4095#32 :=
  ⟨⟨decodes_pageBarSpace.2.1, by decide⟩, decodes_pageBarSpace.2.2, by decide⟩

end PdevBarSize

end AcrnGuest
