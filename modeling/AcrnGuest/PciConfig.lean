import AcrnGuest.HostBridge
import Mathlib.Tactic.Common

/-!
# Access to the PCI configuration registers

`lib/pci_util.c` reaches the registers by the ports or by the memory window, depending on
whether a window address was set. `lib/x86/asm/pci.h` has another set of port accessors.
All of them are described over the same host bridge, by the bytes that their lanes reach.
-/

namespace AcrnGuest

/-! ### Ports and memory (`lib/pci_io.h`) -/

def pioWrite8 (b : HostBridge) (value : BitVec 8) (port : BitVec 16) : HostBridge :=
  b.portOut value port 1

def pioWrite16 (b : HostBridge) (value : BitVec 16) (port : BitVec 16) : HostBridge :=
  b.portOut value port 2

def pioWrite32 (b : HostBridge) (value : BitVec 32) (port : BitVec 16) : HostBridge :=
  b.portOut value port 4

def pioRead8 (b : HostBridge) (port : BitVec 16) : BitVec 8 := b.portIn 8 port 1

def pioRead16 (b : HostBridge) (port : BitVec 16) : BitVec 16 := b.portIn 16 port 2

def pioRead32 (b : HostBridge) (port : BitVec 16) : BitVec 32 := b.portIn 32 port 4

def memWrite8 (b : HostBridge) (value : BitVec 8) (address : Nat) : HostBridge :=
  b.memOut value address 1

def memWrite16 (b : HostBridge) (value : BitVec 16) (address : Nat) : HostBridge :=
  b.memOut value address 2

def memWrite32 (b : HostBridge) (value : BitVec 32) (address : Nat) : HostBridge :=
  b.memOut value address 4

def memRead8 (b : HostBridge) (address : Nat) : BitVec 8 := b.memIn 8 address 1

def memRead16 (b : HostBridge) (address : Nat) : BitVec 16 := b.memIn 16 address 2

def memRead32 (b : HostBridge) (address : Nat) : BitVec 32 := b.memIn 32 address 4

/-! ### `lib/pci_util.c` -/

def PCI_CONFIG_ADDR : BitVec 16 := 0xCF8#16
def PCI_CONFIG_DATA : BitVec 16 := 0xCFC#16
def PCI_CONFIG_ENABLE : BitVec 32 := 0x80000000#32

def mmcfgOffToAddress (mmcfgAddr : BitVec 32) (bdf : BitVec 16) (offset : BitVec 32) : BitVec 32 :=
  mmcfgAddr + ((bdf.setWidth 32 <<< 12) ||| offset)

def pciPdevCalcAddress (bdf : BitVec 16) (offset : BitVec 32) : BitVec 32 :=
  (bdf.setWidth 32 <<< 8) ||| (offset ||| PCI_CONFIG_ENABLE)

def pciPdevReadCfgPio (b : HostBridge) (bdf : BitVec 16) (offset bytes : BitVec 32) :
    HostBridge × BitVec 32 :=
  let b := pioWrite32 b (pciPdevCalcAddress bdf offset) PCI_CONFIG_ADDR
  (b,
    if bytes = 1#32 then
      (pioRead8 b (PCI_CONFIG_DATA + (offset.setWidth 16 &&& 3#16))).setWidth 32
    else if bytes = 2#32 then
      (pioRead16 b (PCI_CONFIG_DATA + (offset.setWidth 16 &&& 2#16))).setWidth 32
    else pioRead32 b PCI_CONFIG_DATA)

/-- `phys_to_virt` is the identity. -/
def pciPdevReadCfgMmio (mmcfgAddr : BitVec 32) (b : HostBridge) (bdf : BitVec 16)
    (offset bytes : BitVec 32) : HostBridge × BitVec 32 :=
  let hva := (mmcfgOffToAddress mmcfgAddr bdf offset).toNat
  (b,
    if bytes = 1#32 then (memRead8 b hva).setWidth 32
    else if bytes = 2#32 then (memRead16 b hva).setWidth 32
    else memRead32 b hva)

def pciPdevReadCfg (mmcfgAddr : BitVec 32) (b : HostBridge) (bdf : BitVec 16)
    (offset bytes : BitVec 32) : HostBridge × BitVec 32 :=
  if mmcfgAddr ≠ 0#32 then pciPdevReadCfgMmio mmcfgAddr b bdf offset bytes
  else pciPdevReadCfgPio b bdf offset bytes

def OK : BitVec 32 := 0#32

def pciPdevWriteCfgPio (b : HostBridge) (bdf : BitVec 16) (offset bytes val : BitVec 32) :
    HostBridge × BitVec 32 :=
  let b := pioWrite32 b (pciPdevCalcAddress bdf offset) PCI_CONFIG_ADDR
  (if bytes = 1#32 then
      pioWrite8 b (val.setWidth 8) (PCI_CONFIG_DATA + (offset.setWidth 16 &&& 3#16))
    else if bytes = 2#32 then
      pioWrite16 b (val.setWidth 16) (PCI_CONFIG_DATA + (offset.setWidth 16 &&& 2#16))
    else pioWrite32 b val PCI_CONFIG_DATA,
    OK)

def pciPdevWriteCfgMmio (mmcfgAddr : BitVec 32) (b : HostBridge) (bdf : BitVec 16)
    (offset bytes val : BitVec 32) : HostBridge × BitVec 32 :=
  let hva := (mmcfgOffToAddress mmcfgAddr bdf offset).toNat
  (if bytes = 1#32 then memWrite8 b (val.setWidth 8) hva
    else if bytes = 2#32 then memWrite16 b (val.setWidth 16) hva
    else memWrite32 b val hva,
    OK)

def pciPdevWriteCfg (mmcfgAddr : BitVec 32) (b : HostBridge) (bdf : BitVec 16)
    (offset bytes val : BitVec 32) : HostBridge × BitVec 32 :=
  if mmcfgAddr ≠ 0#32 then pciPdevWriteCfgMmio mmcfgAddr b bdf offset bytes val
  else pciPdevWriteCfgPio b bdf offset bytes val

/-! ### Accesses -/

/-- A naturally aligned access to the first 256 registers of a function. -/
structure CfgAccess where
  bdf : BitVec 16
  offset : BitVec 32
  bytes : BitVec 32
  offset_lt : offset.toNat < 256
  bytes_cases : bytes = 1#32 ∨ bytes = 2#32 ∨ bytes = 4#32
  aligned : offset.toNat % bytes.toNat = 0

def CfgAccess.lane (a : CfgAccess) (k : Nat) : Option CfgByte :=
  some (a.bdf.toNat, a.offset.toNat + k)

def accessAt (bdf : BitVec 16) (off n : Nat) (hoff : off < 256) (hn : n = 1 ∨ n = 2 ∨ n = 4)
    (haligned : off % n = 0) : CfgAccess where
  bdf := bdf
  offset := BitVec.ofNat 32 off
  bytes := BitVec.ofNat 32 n
  offset_lt := by
    rw [BitVec.toNat_ofNat]
    omega
  bytes_cases := by rcases hn with rfl | rfl | rfl <;> decide
  aligned := by
    have hoff' : (BitVec.ofNat 32 off).toNat = off := by
      rw [BitVec.toNat_ofNat]
      omega
    rw [hoff']
    rcases hn with rfl | rfl | rfl <;> exact haligned

theorem toNat_offset {off : Nat} (hoff : off < 256) : (BitVec.ofNat 32 off).toNat = off := by
  rw [BitVec.toNat_ofNat]
  omega

def lanesOf (bytes : BitVec 32) : Nat :=
  if bytes = 1#32 then 1 else if bytes = 2#32 then 2 else 4

/-- The value that the `switch` on `bytes` reads over given lanes. -/
def readWidth (regs : CfgRegs) (lane : Nat → Option CfgByte) (bytes : BitVec 32) : BitVec 32 :=
  (readLanes (8 * lanesOf bytes) regs lane (lanesOf bytes)).setWidth 32

/-- The registers after the `switch` on `bytes` wrote over given lanes. -/
def writeWidth (regs : CfgRegs) (lane : Nat → Option CfgByte) (bytes val : BitVec 32) : CfgRegs :=
  writeLanes regs lane (val.setWidth (8 * lanesOf bytes)) (lanesOf bytes)

theorem readWidth_congr {regs : CfgRegs} {lane lane' : Nat → Option CfgByte} {bytes : BitVec 32}
    (h : ∀ k, k < lanesOf bytes → lane k = lane' k) :
    readWidth regs lane bytes = readWidth regs lane' bytes :=
  congrArg (BitVec.setWidth 32) (readLanes_congr fun k hk => by rw [h k hk])

theorem lanesOf_cases (bytes : BitVec 32) :
    (bytes = 1#32 ∧ lanesOf bytes = 1) ∨ (bytes ≠ 1#32 ∧ bytes = 2#32 ∧ lanesOf bytes = 2) ∨
      (bytes ≠ 1#32 ∧ bytes ≠ 2#32 ∧ lanesOf bytes = 4) := by
  unfold lanesOf
  split
  · next h => exact Or.inl ⟨h, rfl⟩
  · next h =>
      split
      · next h' => exact Or.inr (Or.inl ⟨h, h', rfl⟩)
      · next h' => exact Or.inr (Or.inr ⟨h, h', rfl⟩)

theorem lanesOf_le (bytes : BitVec 32) : lanesOf bytes ≤ 4 := by
  rcases lanesOf_cases bytes with ⟨-, h⟩ | ⟨-, -, h⟩ | ⟨-, -, h⟩ <;> omega

theorem byte_readWidth (regs : CfgRegs) (lane : Nat → Option CfgByte) {bytes : BitVec 32} {k : Nat}
    (hk : k < lanesOf bytes) :
    (readWidth regs lane bytes >>> (8 * k)).setWidth 8 = (lane k).elim 0xFF#8 regs := by
  have hlanes := lanesOf_le bytes
  apply BitVec.eq_of_getLsbD_eq
  intro i hi
  have hdiv : (8 * k + i) / 8 = k := by omega
  have hmod : (8 * k + i) % 8 = i := by omega
  have hin : 8 * k + i < 8 * lanesOf bytes := by omega
  have hlt : 8 * k + i < 32 := by omega
  rw [readWidth, BitVec.getLsbD_setWidth, BitVec.getLsbD_ushiftRight, BitVec.getLsbD_setWidth,
    getLsbD_readLanes (Nat.le_refl _), if_pos hin, hdiv, hmod]
  simp [hi, hlt]

/-- A `switch` whose three cases read over the same lanes. -/
theorem switch_readLanes (regs : CfgRegs) (lane : Nat → Option CfgByte) (bytes : BitVec 32) :
    (if bytes = 1#32 then (readLanes 8 regs lane 1).setWidth 32
      else if bytes = 2#32 then (readLanes 16 regs lane 2).setWidth 32
      else readLanes 32 regs lane 4) = readWidth regs lane bytes := by
  unfold readWidth
  rcases lanesOf_cases bytes with ⟨h, hn⟩ | ⟨h, h', hn⟩ | ⟨h, h', hn⟩ <;> rw [hn]
  · rw [if_pos h]
  · rw [if_neg h, if_pos h']
  · rw [if_neg h, if_neg h', BitVec.setWidth_eq]

theorem readWidth_dword (regs : CfgRegs) (lane : Nat → Option CfgByte) :
    readWidth regs lane 4#32 = readLanes 32 regs lane 4 := by
  rw [← switch_readLanes, if_neg (by decide), if_neg (by decide)]

/-- A `switch` whose three cases write over the same lanes. -/
theorem switch_writeLanes (regs : CfgRegs) (lane : Nat → Option CfgByte) (bytes val : BitVec 32) :
    (if bytes = 1#32 then writeLanes regs lane (val.setWidth 8) 1
      else if bytes = 2#32 then writeLanes regs lane (val.setWidth 16) 2
      else writeLanes regs lane val 4) = writeWidth regs lane bytes val := by
  unfold writeWidth
  rcases lanesOf_cases bytes with ⟨h, hn⟩ | ⟨h, h', hn⟩ | ⟨h, h', hn⟩ <;> rw [hn]
  · rw [if_pos h]
  · rw [if_neg h, if_pos h']
  · rw [if_neg h, if_neg h', BitVec.setWidth_eq]

/-! ### Addresses -/

theorem toNat_calcAddress (bdf : BitVec 16) {offset : BitVec 32} (h : offset.toNat < 256) :
    (pciPdevCalcAddress bdf offset).toNat = 2 ^ 31 + bdf.toNat * 256 + offset.toNat := by
  have hbdf := bdf.isLt
  have hfields : bdf.toNat <<< 8 ||| offset.toNat = bdf.toNat * 256 + offset.toNat := by
    rw [← Nat.shiftLeft_add_eq_or_of_lt h, Nat.shiftLeft_eq]
  have henable : (1 <<< 31) ||| (bdf.toNat * 256 + offset.toNat)
      = 2 ^ 31 + (bdf.toNat * 256 + offset.toNat) := by
    rw [← Nat.shiftLeft_add_eq_or_of_lt (by omega)]
    rfl
  have hshift : bdf.toNat <<< 8 % 2 ^ 32 = bdf.toNat <<< 8 := by
    rw [Nat.shiftLeft_eq]
    omega
  simp only [pciPdevCalcAddress, PCI_CONFIG_ENABLE, BitVec.toNat_or, BitVec.toNat_shiftLeft,
    BitVec.toNat_setWidth, BitVec.toNat_ofNat]
  rw [Nat.mod_eq_of_lt (by omega : bdf.toNat < 2 ^ 32), hshift, ← Nat.or_assoc,
    hfields, Nat.or_comm, Nat.add_assoc]
  exact henable

theorem toNat_mmcfgAddress {mmcfgAddr : BitVec 32} (hbase : mmcfgAddr.toNat % 2 ^ 28 = 0)
    (bdf : BitVec 16) {offset : BitVec 32} (h : offset.toNat < 256) :
    (mmcfgOffToAddress mmcfgAddr bdf offset).toNat
      = mmcfgAddr.toNat + bdf.toNat * 4096 + offset.toNat := by
  have hbdf := bdf.isLt
  have haddr := mmcfgAddr.isLt
  have hfields : bdf.toNat <<< 12 ||| offset.toNat = bdf.toNat * 4096 + offset.toNat := by
    rw [← Nat.shiftLeft_add_eq_or_of_lt (by omega), Nat.shiftLeft_eq]
  have hshift : bdf.toNat <<< 12 % 2 ^ 32 = bdf.toNat <<< 12 := by
    rw [Nat.shiftLeft_eq]
    omega
  simp only [mmcfgOffToAddress, BitVec.toNat_add, BitVec.toNat_or, BitVec.toNat_shiftLeft,
    BitVec.toNat_setWidth]
  rw [Nat.mod_eq_of_lt (by omega : bdf.toNat < 2 ^ 32), hshift, hfields]
  omega

theorem toNat_and_three (x : BitVec 32) : (x.setWidth 16 &&& 3#16).toNat = x.toNat % 4 := by
  have hand : x.toNat % 2 ^ 16 &&& 3 = x.toNat % 2 ^ 16 % 4 := Nat.and_two_pow_sub_one_eq_mod _ 2
  rw [BitVec.toNat_and, BitVec.toNat_setWidth]
  exact hand.trans (by omega)

theorem toNat_and_two {x : BitVec 32} (hx : x.toNat % 2 = 0) :
    (x.setWidth 16 &&& 2#16).toNat = x.toNat % 4 := by
  have hthree := toNat_and_three x
  have hmask : x.setWidth 16 &&& 2#16 = (x.setWidth 16 &&& 3#16) &&& 2#16 := by
    rw [BitVec.and_assoc]
    rfl
  have hcases : x.setWidth 16 &&& 3#16 = 0#16 ∨ x.setWidth 16 &&& 3#16 = 2#16 := by
    rcases (by omega : x.toNat % 4 = 0 ∨ x.toNat % 4 = 2) with h | h
    · exact Or.inl (BitVec.eq_of_toNat_eq (hthree.trans h))
    · exact Or.inr (BitVec.eq_of_toNat_eq (hthree.trans h))
  rw [← hthree, hmask]
  rcases hcases with h | h <;> rw [h] <;> rfl

/-! ### The bytes that the two paths reach -/

/-- The bridge after the address of a register was latched. -/
def HostBridge.latched (b : HostBridge) (bdf : BitVec 16) (offset : BitVec 32) : HostBridge :=
  { b with configAddress := pciPdevCalcAddress bdf offset }

theorem pioWrite32_address (b : HostBridge) (bdf : BitVec 16) (offset : BitVec 32) :
    pioWrite32 b (pciPdevCalcAddress bdf offset) PCI_CONFIG_ADDR = b.latched bdf offset := by
  rw [pioWrite32, HostBridge.portOut, if_pos ⟨rfl, rfl⟩, BitVec.setWidth_eq]
  rfl

/-- A data port reaches a byte of the dword of the register. -/
theorem HostBridge.latched_dataLane (b : HostBridge) (bdf : BitVec 16) {offset : BitVec 32}
    (hoffset : offset.toNat < 256) {port : BitVec 16} {i k : Nat} (hport : port.toNat = 0xCFC + i)
    (hk : i + k < 4) :
    (b.latched bdf offset).dataLane port k
      = some (bdf.toNat, offset.toNat / 4 * 4 + (i + k)) := by
  have hbdf := bdf.isLt
  rw [HostBridge.dataLane, HostBridge.latched]
  dsimp only
  rw [toNat_calcAddress bdf hoffset, hport, if_pos (by omega)]
  refine congrArg some (Prod.ext ?_ ?_) <;> dsimp only <;> omega

theorem HostBridge.window_ecamLane (b : HostBridge) (hbase : b.ecamBase.toNat % 2 ^ 28 = 0)
    (bdf : BitVec 16) {offset : BitVec 32} (hoffset : offset.toNat < 256) {k : Nat} (hk : k < 4) :
    b.ecamLane (mmcfgOffToAddress b.ecamBase bdf offset).toNat k
      = some (bdf.toNat, offset.toNat + k) := by
  have hbdf := bdf.isLt
  rw [HostBridge.ecamLane, toNat_mmcfgAddress hbase bdf hoffset, if_pos (by omega)]
  refine congrArg some (Prod.ext ?_ ?_) <;> dsimp only <;> omega

variable (a : CfgAccess) (b : HostBridge)

theorem CfgAccess.dataLane_eq {port : BitVec 16} (hport : port.toNat = 0xCFC + a.offset.toNat % 4)
    {k : Nat} (hk : a.offset.toNat % 4 + k < 4) :
    (b.latched a.bdf a.offset).dataLane port k = a.lane k := by
  rw [b.latched_dataLane a.bdf a.offset_lt hport hk, CfgAccess.lane]
  refine congrArg some (Prod.ext rfl ?_)
  dsimp only
  omega

theorem CfgAccess.ecamLane_eq (hbase : b.ecamBase.toNat % 2 ^ 28 = 0) {k : Nat}
    (hk : a.offset.toNat % 4 + k < 4) :
    b.ecamLane (mmcfgOffToAddress b.ecamBase a.bdf a.offset).toNat k = a.lane k :=
  b.window_ecamLane hbase a.bdf a.offset_lt (by omega)

/-- The widths, and what alignment means for them. -/
theorem CfgAccess.width_cases :
    a.bytes = 1#32 ∨ (a.bytes = 2#32 ∧ a.offset.toNat % 2 = 0) ∨
      (a.bytes = 4#32 ∧ a.offset.toNat % 4 = 0) := by
  have halign := a.aligned
  rcases a.bytes_cases with h | h | h <;> rw [h] at halign
  · exact Or.inl h
  · exact Or.inr (Or.inl ⟨h, halign⟩)
  · exact Or.inr (Or.inr ⟨h, halign⟩)

/-- The lanes of an aligned access stay in one dword. -/
theorem CfgAccess.lane_lt {k : Nat} (hk : k < lanesOf a.bytes) : a.offset.toNat % 4 + k < 4 := by
  unfold lanesOf at hk
  rcases a.width_cases with h | ⟨h, halign⟩ | ⟨h, halign⟩ <;> rw [h] at hk
  · rw [if_pos rfl] at hk
    omega
  · rw [if_neg (by decide), if_pos rfl] at hk
    omega
  · rw [if_neg (by decide), if_neg (by decide)] at hk
    omega

def dataPort (offset bytes : BitVec 32) : BitVec 16 :=
  if bytes = 1#32 then PCI_CONFIG_DATA + (offset.setWidth 16 &&& 3#16)
  else if bytes = 2#32 then PCI_CONFIG_DATA + (offset.setWidth 16 &&& 2#16)
  else PCI_CONFIG_DATA

theorem CfgAccess.toNat_dataPort :
    (dataPort a.offset a.bytes).toNat = 0xCFC + a.offset.toNat % 4 := by
  have hadd : ∀ {x : BitVec 16}, x.toNat = a.offset.toNat % 4 →
      (PCI_CONFIG_DATA + x).toNat = 0xCFC + a.offset.toNat % 4 := by
    intro x hx
    rw [PCI_CONFIG_DATA, BitVec.toNat_add, BitVec.toNat_ofNat]
    omega
  unfold dataPort
  rcases a.width_cases with h | ⟨h, halign⟩ | ⟨h, halign⟩ <;> rw [h]
  · exact hadd (toNat_and_three a.offset)
  · exact hadd (toNat_and_two halign)
  · rw [if_neg (by decide), if_neg (by decide), halign]
    rfl

/-- Both paths read the bytes of the access, and change nothing. -/
theorem CfgAccess.readCfgPio_eq :
    (pciPdevReadCfgPio b a.bdf a.offset a.bytes).2 = readWidth b.regs a.lane a.bytes ∧
      (pciPdevReadCfgPio b a.bdf a.offset a.bytes).1.regs = b.regs := by
  unfold pciPdevReadCfgPio
  rw [pioWrite32_address]
  refine ⟨?_, rfl⟩
  calc _ = readWidth b.regs ((b.latched a.bdf a.offset).dataLane (dataPort a.offset a.bytes))
          a.bytes := by
        rw [← switch_readLanes]
        unfold dataPort
        split
        · rfl
        · split <;> rfl
    _ = readWidth b.regs a.lane a.bytes :=
        readWidth_congr fun k hk => a.dataLane_eq b a.toNat_dataPort (a.lane_lt hk)

theorem CfgAccess.readCfgMmio_eq (hbase : b.ecamBase.toNat % 2 ^ 28 = 0) :
    (pciPdevReadCfgMmio b.ecamBase b a.bdf a.offset a.bytes).2 = readWidth b.regs a.lane a.bytes ∧
      (pciPdevReadCfgMmio b.ecamBase b a.bdf a.offset a.bytes).1.regs = b.regs := by
  refine ⟨(switch_readLanes b.regs _ a.bytes).trans ?_, rfl⟩
  exact readWidth_congr fun k hk => a.ecamLane_eq b hbase (a.lane_lt hk)

/-- Both paths write the bytes of the access. -/
theorem CfgAccess.writeCfgPio_eq (val : BitVec 32) :
    (pciPdevWriteCfgPio b a.bdf a.offset a.bytes val).1.regs
      = writeWidth b.regs a.lane a.bytes val := by
  unfold pciPdevWriteCfgPio
  rw [pioWrite32_address]
  calc _ = writeWidth b.regs ((b.latched a.bdf a.offset).dataLane (dataPort a.offset a.bytes))
          a.bytes val := by
        rw [← switch_writeLanes]
        unfold dataPort
        dsimp only
        split
        · exact HostBridge.portOut_regs _ _ (Or.inr (by decide))
        · split
          · exact HostBridge.portOut_regs _ _ (Or.inr (by decide))
          · exact HostBridge.portOut_regs _ _ (Or.inl (by decide))
    _ = writeWidth b.regs a.lane a.bytes val :=
        writeLanes_congr (fun k hk => a.dataLane_eq b a.toNat_dataPort (a.lane_lt hk)) _

theorem CfgAccess.writeCfgMmio_eq (hbase : b.ecamBase.toNat % 2 ^ 28 = 0) (val : BitVec 32) :
    (pciPdevWriteCfgMmio b.ecamBase b a.bdf a.offset a.bytes val).1.regs
      = writeWidth b.regs a.lane a.bytes val := by
  calc _ = writeWidth b.regs
          (b.ecamLane (mmcfgOffToAddress b.ecamBase a.bdf a.offset).toNat) a.bytes val := by
        rw [← switch_writeLanes]
        unfold pciPdevWriteCfgMmio
        dsimp only
        split
        · rfl
        · split <;> rfl
    _ = writeWidth b.regs a.lane a.bytes val :=
        writeLanes_congr (fun k hk => a.ecamLane_eq b hbase (a.lane_lt hk)) _

/-! ### The two paths agree -/

/-- The window address that the library knows is none or that of the bridge. -/
structure WindowKnown (mmcfgAddr : BitVec 32) (b : HostBridge) : Prop where
  aligned : b.ecamBase.toNat % 2 ^ 28 = 0
  known : mmcfgAddr = 0#32 ∨ mmcfgAddr = b.ecamBase

variable {mmcfgAddr : BitVec 32} {b}

theorem CfgAccess.readCfg_eq (h : WindowKnown mmcfgAddr b) :
    (pciPdevReadCfg mmcfgAddr b a.bdf a.offset a.bytes).2 = readWidth b.regs a.lane a.bytes ∧
      (pciPdevReadCfg mmcfgAddr b a.bdf a.offset a.bytes).1.regs = b.regs := by
  unfold pciPdevReadCfg
  split
  · next hne =>
      rw [h.known.resolve_left hne]
      exact a.readCfgMmio_eq b h.aligned
  · exact a.readCfgPio_eq b

theorem CfgAccess.writeCfg_eq (h : WindowKnown mmcfgAddr b) (val : BitVec 32) :
    (pciPdevWriteCfg mmcfgAddr b a.bdf a.offset a.bytes val).1.regs
        = writeWidth b.regs a.lane a.bytes val ∧
      (pciPdevWriteCfg mmcfgAddr b a.bdf a.offset a.bytes val).2 = OK := by
  unfold pciPdevWriteCfg
  split
  · next hne =>
      rw [h.known.resolve_left hne]
      exact ⟨a.writeCfgMmio_eq b h.aligned val, rfl⟩
  · exact ⟨a.writeCfgPio_eq b val, rfl⟩

theorem WindowKnown.congr {mmcfgAddr : BitVec 32} {b b' : HostBridge} (h : WindowKnown mmcfgAddr b)
    (hbase : b'.ecamBase = b.ecamBase) : WindowKnown mmcfgAddr b' :=
  ⟨hbase ▸ h.aligned, hbase ▸ h.known⟩

theorem portOut_ecamBase {w : Nat} (b : HostBridge) (value : BitVec w)
    (port : BitVec 16) (n : Nat) :
    (b.portOut value port n).ecamBase = b.ecamBase := by
  unfold HostBridge.portOut
  split <;> rfl

theorem pciPdevReadCfg_ecamBase (mmcfgAddr : BitVec 32) (b : HostBridge) (bdf : BitVec 16)
    (offset bytes : BitVec 32) :
    (pciPdevReadCfg mmcfgAddr b bdf offset bytes).1.ecamBase = b.ecamBase := by
  unfold pciPdevReadCfg
  split
  · rfl
  · exact portOut_ecamBase ..

theorem pciPdevWriteCfg_ecamBase (mmcfgAddr : BitVec 32) (b : HostBridge) (bdf : BitVec 16)
    (offset bytes val : BitVec 32) :
    (pciPdevWriteCfg mmcfgAddr b bdf offset bytes val).1.ecamBase = b.ecamBase := by
  unfold pciPdevWriteCfg
  split
  · unfold pciPdevWriteCfgMmio
    dsimp only
    split_ifs <;> rfl
  · unfold pciPdevWriteCfgPio
    dsimp only
    split_ifs <;> exact (portOut_ecamBase ..).trans (portOut_ecamBase ..)

/-- Reading changes no register, at any offset and in any width. -/
theorem pciPdevReadCfg_regs (mmcfgAddr : BitVec 32) (b : HostBridge) (bdf : BitVec 16)
    (offset bytes : BitVec 32) : (pciPdevReadCfg mmcfgAddr b bdf offset bytes).1.regs = b.regs := by
  unfold pciPdevReadCfg
  split
  · rfl
  · unfold pciPdevReadCfgPio
    rw [pioWrite32_address]
    rfl

/-- The first register of a dword that is read at `offset`, aligned or not: the ports drop the two
    low bits. -/
def dwordReg (mmcfgAddr : BitVec 32) (offset : Nat) : Nat :=
  if mmcfgAddr = 0#32 then offset / 4 * 4 else offset

theorem dwordReg_of_aligned {offset : Nat} (mmcfgAddr : BitVec 32) (h : offset % 4 = 0) :
    dwordReg mmcfgAddr offset = offset := by
  unfold dwordReg
  split <;> omega

/-- A dword that is read at any offset. -/
theorem pciPdevReadCfg_dword (h : WindowKnown mmcfgAddr b) (bdf : BitVec 16) {offset : BitVec 32}
    (hoffset : offset.toNat < 256) :
    (pciPdevReadCfg mmcfgAddr b bdf offset 4#32).2
      = readWidth b.regs (fun k => some (bdf.toNat, dwordReg mmcfgAddr offset.toNat + k)) 4#32 := by
  rw [readWidth_dword]
  unfold pciPdevReadCfg dwordReg
  by_cases hports : mmcfgAddr = 0#32
  · rw [if_neg (not_not.mpr hports), if_pos hports, pciPdevReadCfgPio, pioWrite32_address]
    dsimp only
    rw [if_neg (by decide), if_neg (by decide)]
    refine readLanes_congr fun k hk => ?_
    rw [b.latched_dataLane (i := 0) bdf hoffset rfl (by omega), Nat.zero_add]
    rfl
  · rw [if_pos hports, if_neg hports, h.known.resolve_left hports, pciPdevReadCfgMmio]
    dsimp only
    rw [if_neg (by decide), if_neg (by decide)]
    refine readLanes_congr fun k hk => ?_
    rw [b.window_ecamLane h.aligned bdf hoffset hk]

/-- An access touches a byte if some write to it changes the byte, or some read of it depends on the
    byte. -/
def CfgAccess.Touches (a : CfgAccess) (mmcfgAddr ecamBase : BitVec 32) (c : CfgByte) : Prop :=
  (∃ b : HostBridge, ∃ val, b.ecamBase = ecamBase ∧
    (pciPdevWriteCfg mmcfgAddr b a.bdf a.offset a.bytes val).1.regs c ≠ b.regs c) ∨
  (∃ b : HostBridge, ∃ v, b.ecamBase = ecamBase ∧
    (pciPdevReadCfg mmcfgAddr { b with regs := Function.update b.regs c v }
      a.bdf a.offset a.bytes).2 ≠ (pciPdevReadCfg mmcfgAddr b a.bdf a.offset a.bytes).2)

def CfgAccess.Names (a : CfgAccess) (c : CfgByte) : Prop :=
  ∃ k, k < lanesOf a.bytes ∧ c = (a.bdf.toNat, a.offset.toNat + k)

theorem CfgAccess.names_of_touches {ecamBase : BitVec 32} (haligned : ecamBase.toNat % 2 ^ 28 = 0)
    (hknown : mmcfgAddr = 0#32 ∨ mmcfgAddr = ecamBase) {c : CfgByte}
    (h : a.Touches mmcfgAddr ecamBase c) : a.Names c := by
  by_contra hnot
  have hlane : ∀ k, k < lanesOf a.bytes → a.lane k ≠ some c := by
    intro k hk heq
    exact hnot ⟨k, hk, (Option.some.inj heq).symm⟩
  rcases h with ⟨b, val, rfl, hne⟩ | ⟨b, v, rfl, hne⟩
  · apply hne
    rw [(a.writeCfg_eq ⟨haligned, hknown⟩ val).1]
    exact writeLanes_of_not_reached hlane _
  · apply hne
    have hsame : WindowKnown mmcfgAddr { b with regs := Function.update b.regs c v } :=
      ⟨haligned, hknown⟩
    rw [(a.readCfg_eq hsame).1, (a.readCfg_eq ⟨haligned, hknown⟩).1]
    refine congrArg (BitVec.setWidth 32) (readLanes_congr fun k hk => ?_)
    exact Function.update_of_ne (fun heq => hlane k hk (congrArg some heq)) ..

/-- With a standard host bridge, the ports and the memory window read the same values and write the
    same bytes, for every aligned access, and accesses that name different bytes touch different
    ones, whichever paths they take. -/
theorem pci_cfg_paths_agree {b : HostBridge} (haligned : b.ecamBase.toNat % 2 ^ 28 = 0)
    (hbase : b.ecamBase ≠ 0#32) (a : CfgAccess) (val : BitVec 32) :
    pciPdevReadCfg 0#32 b a.bdf a.offset a.bytes = pciPdevReadCfgPio b a.bdf a.offset a.bytes ∧
    pciPdevReadCfg b.ecamBase b a.bdf a.offset a.bytes
      = pciPdevReadCfgMmio b.ecamBase b a.bdf a.offset a.bytes ∧
    (pciPdevReadCfg 0#32 b a.bdf a.offset a.bytes).2
      = (pciPdevReadCfg b.ecamBase b a.bdf a.offset a.bytes).2 ∧
    (pciPdevReadCfg 0#32 b a.bdf a.offset a.bytes).1.regs = b.regs ∧
    (pciPdevReadCfg b.ecamBase b a.bdf a.offset a.bytes).1.regs = b.regs ∧
    pciPdevWriteCfg 0#32 b a.bdf a.offset a.bytes val
      = pciPdevWriteCfgPio b a.bdf a.offset a.bytes val ∧
    pciPdevWriteCfg b.ecamBase b a.bdf a.offset a.bytes val
      = pciPdevWriteCfgMmio b.ecamBase b a.bdf a.offset a.bytes val ∧
    (pciPdevWriteCfg 0#32 b a.bdf a.offset a.bytes val).2
      = (pciPdevWriteCfg b.ecamBase b a.bdf a.offset a.bytes val).2 ∧
    (pciPdevWriteCfg 0#32 b a.bdf a.offset a.bytes val).1.regs
      = (pciPdevWriteCfg b.ecamBase b a.bdf a.offset a.bytes val).1.regs ∧
    (pciPdevWriteCfg 0#32 b a.bdf a.offset a.bytes val).1.regs
      = writeWidth b.regs a.lane a.bytes val ∧
    ∀ (a' : CfgAccess) (addr addr' : BitVec 32), (addr = 0#32 ∨ addr = b.ecamBase) →
      (addr' = 0#32 ∨ addr' = b.ecamBase) → (∀ c, a.Names c → ¬a'.Names c) →
      ∀ c, ¬(a.Touches addr b.ecamBase c ∧ a'.Touches addr' b.ecamBase c) := by
  have hports : WindowKnown 0#32 b := ⟨haligned, Or.inl rfl⟩
  have hwindow : WindowKnown b.ecamBase b := ⟨haligned, Or.inr rfl⟩
  refine ⟨if_neg (not_not_intro rfl), if_pos hbase, ?_, (a.readCfg_eq hports).2,
    (a.readCfg_eq hwindow).2, if_neg (not_not_intro rfl), if_pos hbase, ?_, ?_,
    (a.writeCfg_eq hports val).1, ?_⟩
  · rw [(a.readCfg_eq hports).1, (a.readCfg_eq hwindow).1]
  · rw [(a.writeCfg_eq hports val).2, (a.writeCfg_eq hwindow val).2]
  · rw [(a.writeCfg_eq hports val).1, (a.writeCfg_eq hwindow val).1]
  · rintro a' addr addr' hknown hknown' hdistinct c ⟨htouch, htouch'⟩
    exact hdistinct c (a.names_of_touches haligned hknown htouch)
      (a'.names_of_touches haligned hknown' htouch')

/-- A bridge with its window at 3.5 GiB, whose registers hold their own numbers. -/
def numberedBridge : HostBridge := ⟨0#32, 0xE0000000#32, fun c => BitVec.ofNat 8 c.2⟩

/-- The word at register 2 of function 8 is read and written. -/
theorem pci_cfg_paths_agree_word :
    (pciPdevReadCfg 0#32 numberedBridge 8#16 2#32 2#32).2
        = (pciPdevReadCfg 0xE0000000#32 numberedBridge 8#16 2#32 2#32).2 ∧
      (pciPdevWriteCfg 0#32 numberedBridge 8#16 2#32 2#32 0xABCD#32).1.regs
        = (pciPdevWriteCfg 0xE0000000#32 numberedBridge 8#16 2#32 2#32 0xABCD#32).1.regs ∧
      (pciPdevWriteCfg 0#32 numberedBridge 8#16 2#32 2#32 0xABCD#32).1.regs (8, 3) = 0xAB#8 := by
  obtain ⟨-, -, hread, -, -, -, -, -, hwrite, hregs, -⟩ := pci_cfg_paths_agree
    (by decide : numberedBridge.ecamBase.toNat % 2 ^ 28 = 0) (by decide)
    ⟨8#16, 2#32, 2#32, by decide, by decide, by decide⟩ 0xABCD#32
  exact ⟨hread, hwrite, (congrFun hregs (8, 3)).trans (by decide)⟩

/-! ### The port accessors of `lib/x86/asm/pci.h` -/

def PCI_CONF1_ADDRESS (dev : BitVec 16) (reg : BitVec 8) : BitVec 32 :=
  (1#32 <<< 31) ||| (dev.setWidth 32 <<< 8) ||| reg.setWidth 32

def pciConfigReadb (b : HostBridge) (dev : BitVec 16) (reg : BitVec 8) : HostBridge × BitVec 8 :=
  let b := b.portOut (PCI_CONF1_ADDRESS dev reg) 0xCF8#16 4
  (b, b.portIn 8 0xCFC#16 1)

def pciConfigReadw (b : HostBridge) (dev : BitVec 16) (reg : BitVec 8) : HostBridge × BitVec 16 :=
  let b := b.portOut (PCI_CONF1_ADDRESS dev reg) 0xCF8#16 4
  (b, b.portIn 16 0xCFC#16 2)

def pciConfigReadl (b : HostBridge) (dev : BitVec 16) (reg : BitVec 8) : HostBridge × BitVec 32 :=
  let b := b.portOut (PCI_CONF1_ADDRESS dev reg) 0xCF8#16 4
  (b, b.portIn 32 0xCFC#16 4)

def pciConfigWriteb (b : HostBridge) (dev : BitVec 16) (reg : BitVec 8) (val : BitVec 8) :
    HostBridge :=
  let b := b.portOut (PCI_CONF1_ADDRESS dev reg) 0xCF8#16 4
  b.portOut val 0xCFC#16 1

def pciConfigWritew (b : HostBridge) (dev : BitVec 16) (reg : BitVec 8) (val : BitVec 16) :
    HostBridge :=
  let b := b.portOut (PCI_CONF1_ADDRESS dev reg) 0xCF8#16 4
  b.portOut val 0xCFC#16 2

def pciConfigWritel (b : HostBridge) (dev : BitVec 16) (reg : BitVec 8) (val : BitVec 32) :
    HostBridge :=
  let b := b.portOut (PCI_CONF1_ADDRESS dev reg) 0xCF8#16 4
  b.portOut val 0xCFC#16 4

/-- What the accessor for the width of an access returns. -/
def CfgAccess.configRead (a : CfgAccess) (b : HostBridge) : BitVec 32 :=
  if a.bytes = 1#32 then (pciConfigReadb b a.bdf (a.offset.setWidth 8)).2.setWidth 32
  else if a.bytes = 2#32 then (pciConfigReadw b a.bdf (a.offset.setWidth 8)).2.setWidth 32
  else (pciConfigReadl b a.bdf (a.offset.setWidth 8)).2

/-- What the accessor for the width of an access leaves in the registers. -/
def CfgAccess.configWrite (a : CfgAccess) (b : HostBridge) (val : BitVec 32) : CfgRegs :=
  if a.bytes = 1#32 then
    (pciConfigWriteb b a.bdf (a.offset.setWidth 8) (val.setWidth 8)).regs
  else if a.bytes = 2#32 then
    (pciConfigWritew b a.bdf (a.offset.setWidth 8) (val.setWidth 16)).regs
  else (pciConfigWritel b a.bdf (a.offset.setWidth 8) val).regs

/-- The bytes that these accessors reach: from the start of the dword on. -/
def CfgAccess.dwordLane (a : CfgAccess) (k : Nat) : Option CfgByte :=
  some (a.bdf.toNat, a.offset.toNat / 4 * 4 + k)

variable (b)

/-- Both layers latch the same address. -/
theorem CfgAccess.portOut_conf1_address :
    b.portOut (PCI_CONF1_ADDRESS a.bdf (a.offset.setWidth 8)) 0xCF8#16 4
      = b.latched a.bdf a.offset := by
  have hoffset : (a.offset.setWidth 8).setWidth 32 = a.offset := by
    apply BitVec.eq_of_toNat_eq
    have hlt := a.offset_lt
    simp only [BitVec.toNat_setWidth]
    omega
  have haddress : PCI_CONF1_ADDRESS a.bdf (a.offset.setWidth 8)
      = pciPdevCalcAddress a.bdf a.offset := by
    unfold PCI_CONF1_ADDRESS pciPdevCalcAddress
    rw [hoffset, BitVec.or_assoc, BitVec.or_comm (1#32 <<< 31), BitVec.or_assoc]
    rfl
  rw [haddress]
  exact pioWrite32_address b a.bdf a.offset

theorem CfgAccess.dwordLane_eq {k : Nat} (hk : k < lanesOf a.bytes) :
    (b.latched a.bdf a.offset).dataLane 0xCFC#16 k = a.dwordLane k := by
  have hle := lanesOf_le a.bytes
  rw [b.latched_dataLane (i := 0) a.bdf a.offset_lt rfl (by omega), Nat.zero_add]
  rfl

theorem CfgAccess.configRead_eq : a.configRead b = readWidth b.regs a.dwordLane a.bytes := by
  have hswitch : a.configRead b
      = readWidth b.regs ((b.latched a.bdf a.offset).dataLane 0xCFC#16) a.bytes := by
    rw [← switch_readLanes]
    unfold CfgAccess.configRead pciConfigReadb pciConfigReadw pciConfigReadl
    simp only [a.portOut_conf1_address b]
    rfl
  rw [hswitch]
  exact readWidth_congr fun k hk => a.dwordLane_eq b hk

theorem CfgAccess.configWrite_eq (val : BitVec 32) :
    a.configWrite b val = writeWidth b.regs a.dwordLane a.bytes val := by
  have hswitch : a.configWrite b val
      = writeWidth b.regs ((b.latched a.bdf a.offset).dataLane 0xCFC#16) a.bytes val := by
    rw [← switch_writeLanes]
    unfold CfgAccess.configWrite pciConfigWriteb pciConfigWritew pciConfigWritel
    simp only [a.portOut_conf1_address b,
      HostBridge.portOut_regs _ _ (Or.inl (by decide : 0xCFC#16 ≠ 0xCF8#16))]
    rfl
  rw [hswitch]
  exact writeLanes_congr (fun k hk => a.dwordLane_eq b hk) _

/-- For a register at the start of its dword the lanes are those of the access. -/
theorem CfgAccess.dwordLane_of_dvd (h : a.offset.toNat % 4 = 0) : a.dwordLane = a.lane := by
  funext k
  have hstart : a.offset.toNat / 4 * 4 = a.offset.toNat := by omega
  rw [CfgAccess.dwordLane, CfgAccess.lane, hstart]

/-- Otherwise they miss its first byte. -/
theorem CfgAccess.dwordLane_ne (h : a.offset.toNat % 4 ≠ 0) {k : Nat} (hk : k < lanesOf a.bytes) :
    a.dwordLane k ≠ a.lane 0 := by
  intro heq
  have hoffset : a.offset.toNat / 4 * 4 + k = a.offset.toNat :=
    congrArg Prod.snd (Option.some.inj heq)
  unfold lanesOf at hk
  rcases a.width_cases with hw | ⟨hw, halign⟩ | ⟨-, halign⟩
  · rw [hw, if_pos rfl] at hk
    omega
  · rw [hw, if_neg (by decide), if_pos rfl] at hk
    omega
  · exact h halign

theorem lanesOf_pos (bytes : BitVec 32) : 0 < lanesOf bytes := by
  rcases lanesOf_cases bytes with ⟨-, h⟩ | ⟨-, -, h⟩ | ⟨-, -, h⟩ <;> omega

def CfgAccess.marked (a : CfgAccess) (c : CfgByte) : BitVec 8 :=
  if some c = a.lane 0 then 1#8 else 0#8

theorem CfgAccess.marked_lane : (a.lane 0).elim 0xFF#8 a.marked = 1#8 := if_pos rfl

theorem CfgAccess.marked_dwordLane (h : a.offset.toNat % 4 ≠ 0) :
    (a.dwordLane 0).elim 0xFF#8 a.marked = 0#8 :=
  if_neg (a.dwordLane_ne h (lanesOf_pos a.bytes))

theorem setWidth_readWidth (regs : CfgRegs) (lane : Nat → Option CfgByte) (bytes : BitVec 32) :
    (readWidth regs lane bytes).setWidth 8 = (lane 0).elim 0xFF#8 regs := by
  have hpos := lanesOf_pos bytes
  rw [readWidth, BitVec.setWidth_setWidth_of_le _ (by decide), setWidth_readLanes (by omega) hpos]

theorem CfgAccess.writeWidth_lane (regs : CfgRegs) (val : BitVec 32) {k : Nat}
    (hk : k < lanesOf a.bytes) :
    writeWidth regs a.lane a.bytes val (a.bdf.toNat, a.offset.toNat + k)
      = (val >>> (8 * k)).setWidth 8 := by
  have hothers : ∀ j, j < lanesOf a.bytes → j ≠ k →
      a.lane j ≠ some (a.bdf.toNat, a.offset.toNat + k) := by
    intro j _ hne heq
    have hoffset : a.offset.toNat + j = a.offset.toNat + k :=
      congrArg Prod.snd (Option.some.inj heq)
    omega
  rw [writeWidth, writeLanes_lane hk rfl hothers]
  ext i hi
  have hlow : 8 * k + i < 8 * lanesOf a.bytes := by omega
  simp [hlow]

/-- The accessors of the two layers agree, for every content of the registers, exactly on registers
    at the start of a dword: the second layer always uses the first data port. -/
theorem pci_config_agrees_iff (a : CfgAccess) :
    ((∀ b, a.configRead b = (pciPdevReadCfgPio b a.bdf a.offset a.bytes).2) ↔
      a.offset.toNat % 4 = 0) ∧
    ((∀ b val, a.configWrite b val = (pciPdevWriteCfgPio b a.bdf a.offset a.bytes val).1.regs) ↔
      a.offset.toNat % 4 = 0) := by
  refine ⟨⟨fun hagree => ?_, fun h b => ?_⟩, ⟨fun hagree => ?_, fun h b val => ?_⟩⟩
  · by_contra h
    have hread := hagree ⟨0#32, 0#32, a.marked⟩
    rw [a.configRead_eq, (a.readCfgPio_eq _).1] at hread
    have hlow := congrArg (BitVec.setWidth 8) hread
    rw [setWidth_readWidth, setWidth_readWidth, a.marked_lane, a.marked_dwordLane h] at hlow
    revert hlow
    decide
  · rw [a.configRead_eq, (a.readCfgPio_eq b).1, a.dwordLane_of_dvd h]
  · by_contra h
    -- a write of one reaches the first byte of the access by one path only
    have hmiss : writeWidth (fun _ => 0#8) a.dwordLane a.bytes 1#32 (a.bdf.toNat, a.offset.toNat)
        = 0#8 := writeLanes_of_not_reached (fun k hk => a.dwordLane_ne h hk) _
    have hhit : writeWidth (fun _ => 0#8) a.lane a.bytes 1#32 (a.bdf.toNat, a.offset.toNat)
        = (1#32 >>> (8 * 0)).setWidth 8 := a.writeWidth_lane _ 1#32 (lanesOf_pos a.bytes)
    have hwrite := congrFun (hagree ⟨0#32, 0#32, fun _ => 0#8⟩ 1#32) (a.bdf.toNat, a.offset.toNat)
    rw [a.configWrite_eq, a.writeCfgPio_eq, hmiss, hhit] at hwrite
    revert hwrite
    decide
  · rw [a.configWrite_eq, a.writeCfgPio_eq, a.dwordLane_of_dvd h]

/-- `pci_config_readb` of register 1 returns register 0. -/
theorem pci_config_readb_reads_register_zero :
    ((pciConfigReadb ⟨0#32, 0#32, fun c => BitVec.ofNat 8 (c.2 + 1)⟩ 0#16 1#8).2 = 1#8 ∧
      (pciPdevReadCfgPio ⟨0#32, 0#32, fun c => BitVec.ofNat 8 (c.2 + 1)⟩ 0#16 1#32 1#32).2 = 2#32) ∧
    (pciConfigWriteb ⟨0#32, 0#32, fun _ => 0#8⟩ 0#16 1#8 5#8).regs (0, 0) = 5#8 ∧
      (pciPdevWriteCfgPio ⟨0#32, 0#32, fun _ => 0#8⟩ 0#16 1#32 1#32 5#32).1.regs (0, 0) = 0#8 := by
  decide

end AcrnGuest
