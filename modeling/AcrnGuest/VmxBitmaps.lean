import Mathlib.Data.Nat.Bitwise
import AcrnGuest.ByteBitmap

/-!
# The I/O and MSR bitmaps of a VMCS (`set_io_bitmap`, `set_msr_bitmap`)

The processor reads both bitmaps as maps of bits: one bit for each of the 65536 I/O
ports, in two pages that follow each other, and four maps of 8192 bits in one page for
reads and writes of the low and the high MSRs.

`set_io_bitmap` puts the mask of an access into the byte of its first port. An access
that reaches into the next byte is longer than what is left of this one, and the
ports there keep their bits. The callers use ports that are a multiple of eight.
-/

namespace AcrnGuest

def BIT_TYPE_CLEAR : BitVec 32 := 0#32
def BIT_TYPE_SET : BitVec 32 := 1#32

/-- The branch on `is_bit_set` that all functions of this file share. -/
def changeBits (bitmap : ByteBitmap) (index : BitVec 32) (mask isBitSet : BitVec 32) : ByteBitmap :=
  if isBitSet = BIT_TYPE_SET then
    bitmap.setBits index.toNat mask
  else
    bitmap.clearBits index.toNat mask

theorem changeBits_eq (bitmap : ByteBitmap) (index mask isBitSet : BitVec 32) :
    changeBits bitmap index mask isBitSet
      = bitmap.putBits index.toNat mask (decide (isBitSet = BIT_TYPE_SET)) := by
  rw [changeBits, ByteBitmap.putBits]
  simp only [decide_eq_true_eq]

/-! ### I/O ports -/

/-- The indices of `io_bitmap_size`. -/
inductive IoBytes
  | io_byte1
  | io_byte2
  | io_byte4
deriving DecidableEq

def ioBitmapSize : IoBytes → BitVec 8
  | .io_byte1 => 0x1#8
  | .io_byte2 => 0x3#8
  | .io_byte4 => 0xf#8

def setIoBitmap (ioBitmap : ByteBitmap) (portIo isBitSet : BitVec 32) (bytes : IoBytes) :
    ByteBitmap :=
  let ioIndex := portIo / 8#32
  let ioBit := (portIo % 8#32).setWidth 8
  changeBits ioBitmap ioIndex ((ioBitmapSize bytes).setWidth 32 <<< ioBit.toNat) isBitSet

def IoBytes.width : IoBytes → Nat
  | .io_byte1 => 1
  | .io_byte2 => 2
  | .io_byte4 => 4

theorem getLsbD_ioBitmapSize (bytes : IoBytes) (i : Nat) :
    ((ioBitmapSize bytes).setWidth 32).getLsbD i = decide (i < bytes.width) := by
  by_cases hi : i < 8
  · cases bytes <;> revert i <;> decide
  · have hwidth : ¬ i < bytes.width := by cases bytes <;> simp only [IoBytes.width] <;> omega
    rw [BitVec.getLsbD_setWidth, BitVec.getLsbD_of_ge _ i (by omega), decide_eq_false hwidth,
      Bool.and_false]

/-- The ports of the access that share the byte of the first one are given the value. -/
theorem bit_setIoBitmap (ioBitmap : ByteBitmap) (portIo isBitSet : BitVec 32) (bytes : IoBytes)
    (i : Nat) :
    (setIoBitmap ioBitmap portIo isBitSet bytes).bit i
      = if portIo.toNat ≤ i ∧ i < portIo.toNat + bytes.width ∧ i / 8 = portIo.toNat / 8 then
          decide (isBitSet = BIT_TYPE_SET)
        else
          ioBitmap.bit i := by
  have hindex : (portIo / 8#32).toNat = portIo.toNat / 8 := BitVec.toNat_udiv
  have hbit : ((portIo % 8#32).setWidth 8).toNat = portIo.toNat % 8 := by
    rw [BitVec.toNat_setWidth, BitVec.toNat_umod]
    change portIo.toNat % 8 % 2 ^ 8 = portIo.toNat % 8
    omega
  rw [setIoBitmap, changeBits_eq, ByteBitmap.bit_putBits]
  refine if_congr ?_ rfl rfl
  rw [hindex, hbit, BitVec.getLsbD_shiftLeft, getLsbD_ioBitmapSize]
  simp only [Bool.and_eq_true, decide_eq_true_eq, Bool.not_eq_true', decide_eq_false_iff_not]
  omega

/-- The bits of the accessed ports are given the value and no other bit changes, exactly if the
    access stays in the byte of its first port, or if the ports beyond it had the value before. -/
theorem setIoBitmap_exact_iff (ioBitmap : ByteBitmap) (portIo isBitSet : BitVec 32)
    (bytes : IoBytes) :
    (∀ i, (setIoBitmap ioBitmap portIo isBitSet bytes).bit i
      = if portIo.toNat ≤ i ∧ i < portIo.toNat + bytes.width then
          decide (isBitSet = BIT_TYPE_SET)
        else
          ioBitmap.bit i)
      ↔ portIo.toNat % 8 + bytes.width ≤ 8
        ∨ ∀ i, portIo.toNat / 8 < i / 8 → i < portIo.toNat + bytes.width →
            ioBitmap.bit i = decide (isBitSet = BIT_TYPE_SET) := by
  constructor
  · intro h
    right
    intro i hbyte hi
    have hbit := h i
    rw [bit_setIoBitmap, if_neg (by omega), if_pos (by omega)] at hbit
    exact hbit
  · intro h i
    rw [bit_setIoBitmap]
    by_cases hin : portIo.toNat ≤ i ∧ i < portIo.toNat + bytes.width
    · by_cases hbyte : i / 8 = portIo.toNat / 8
      · rw [if_pos ⟨hin.1, hin.2, hbyte⟩, if_pos hin]
      · rw [if_neg fun h => hbyte h.2.2, if_pos hin]
        rcases h with h | h
        · omega
        · exact h i (by omega) hin.2
    · rw [if_neg fun h => hin ⟨h.1, h.2.1⟩, if_neg hin]

/-- The second port of a two-byte access to port 7 is left out. -/
theorem setIoBitmap_loses_port :
    7 + IoBytes.io_byte2.width ≤ 65536
      ∧ ¬ ∀ i, (setIoBitmap (fun _ => 0#8) 7#32 BIT_TYPE_SET .io_byte2).bit i
          = if 7 ≤ i ∧ i < 7 + IoBytes.io_byte2.width then
              decide (BIT_TYPE_SET = BIT_TYPE_SET)
            else
              ByteBitmap.bit (fun _ => 0#8) i := by
  refine ⟨by decide, fun h => ?_⟩
  have hbit := h 8
  revert hbit
  decide

/-! ### MSRs -/

def HIGH_MSR_START_ADDR : BitVec 32 := 0xc0000000#32
def MSR_WRITE_BITMAP_OFFSET : BitVec 32 := 2048#32

inductive MsrAccess
  | MSR_READ
  | MSR_WRITE
  | MSR_READ_WRITE
  | MSR_BUTT
deriving DecidableEq

def msrOffset (msr : BitVec 32) : BitVec 32 := msr &&& 0x1FFF#32

def testMsrIndex (msr : BitVec 32) : BitVec 32 :=
  if HIGH_MSR_START_ADDR &&& msr ≠ 0#32 then
    msrOffset msr / 8#32 + 1024#32
  else
    msrOffset msr / 8#32

def testMsrBit (msrOffset : BitVec 32) : BitVec 8 := (msrOffset % 8#32).setWidth 8

def setMsrBitmap (msrBitmap : ByteBitmap) (msr isBitSet : BitVec 32) (isRdWt : MsrAccess) :
    ByteBitmap :=
  let mask := 1#32 <<< (testMsrBit (msrOffset msr)).toNat
  let msrBitmap :=
    if isRdWt = .MSR_READ ∨ isRdWt = .MSR_READ_WRITE then
      changeBits msrBitmap (testMsrIndex msr) mask isBitSet
    else msrBitmap
  if isRdWt = .MSR_WRITE ∨ isRdWt = .MSR_READ_WRITE then
    changeBits msrBitmap (testMsrIndex msr + MSR_WRITE_BITMAP_OFFSET) mask isBitSet
  else msrBitmap

def setRdmsrLowMsrBitmap (msrBitmap : ByteBitmap) (msr isBitSet : BitVec 32) : ByteBitmap :=
  changeBits msrBitmap (msr / 8#32) (1#32 <<< (testMsrBit msr).toNat) isBitSet

def LowMsr (msr : BitVec 32) : Prop := msr.toNat ≤ 0x1FFF

def HighMsr (msr : BitVec 32) : Prop := 0xC0000000 ≤ msr.toNat ∧ msr.toNat ≤ 0xC0001FFF

/-- The bit that controls reads of the MSR: low MSRs come first, then the high ones. -/
def msrReadBit (msr : BitVec 32) : Nat :=
  if msr.toNat ≤ 0x1FFF then msr.toNat else 8 * 1024 + (msr.toNat - 0xC0000000)

/-- The maps for writes are in the second half of the page. -/
def msrWriteBit (msr : BitVec 32) : Nat := 8 * 2048 + msrReadBit msr

/-- The bits that control an access of this kind. -/
def MsrAccess.Controls (access : MsrAccess) (msr : BitVec 32) (i : Nat) : Prop :=
  match access with
  | .MSR_READ => i = msrReadBit msr
  | .MSR_WRITE => i = msrWriteBit msr
  | .MSR_READ_WRITE => i = msrReadBit msr ∨ i = msrWriteBit msr
  | .MSR_BUTT => False

instance (access : MsrAccess) (msr : BitVec 32) (i : Nat) : Decidable (access.Controls msr i) :=
  match access with
  | .MSR_READ => inferInstanceAs (Decidable (i = msrReadBit msr))
  | .MSR_WRITE => inferInstanceAs (Decidable (i = msrWriteBit msr))
  | .MSR_READ_WRITE => inferInstanceAs (Decidable (i = msrReadBit msr ∨ i = msrWriteBit msr))
  | .MSR_BUTT => inferInstanceAs (Decidable False)

theorem toNat_msrOffset (msr : BitVec 32) : (msrOffset msr).toNat = msr.toNat % 8192 := by
  rw [msrOffset, BitVec.toNat_and]
  exact Nat.and_two_pow_sub_one_eq_mod msr.toNat 13

theorem msrOffset_of_low {msr : BitVec 32} (h : LowMsr msr) : msrOffset msr = msr := by
  rw [← BitVec.toNat_inj, toNat_msrOffset]
  exact Nat.mod_eq_of_lt (Nat.lt_succ_of_le h)

theorem toNat_testMsrBit (offset : BitVec 32) : (testMsrBit offset).toNat = offset.toNat % 8 := by
  rw [testMsrBit, BitVec.toNat_setWidth, BitVec.toNat_umod]
  change offset.toNat % 8 % 2 ^ 8 = offset.toNat % 8
  omega

theorem toNat_HIGH_and (msr : BitVec 32) :
    (HIGH_MSR_START_ADDR &&& msr).toNat = msr.toNat / 2 ^ 30 * 2 ^ 30 := by
  apply Nat.eq_of_testBit_eq
  intro i
  have hhigh : HIGH_MSR_START_ADDR.getLsbD i = (decide (30 ≤ i) && decide (i < 32)) := by
    by_cases hi : i < 32
    · revert i
      decide
    · rw [BitVec.getLsbD_of_ge _ i (by omega), decide_eq_false hi, Bool.and_false]
  rw [BitVec.testBit_toNat, BitVec.getLsbD_and, hhigh, Nat.testBit_mul_two_pow,
    Nat.testBit_div_two_pow, BitVec.testBit_toNat]
  by_cases hlow : 30 ≤ i
  · by_cases hi : i < 32
    · simp [hlow, hi]
    · simp [hlow, hi, BitVec.getLsbD_of_ge msr i (by omega)]
  · simp [hlow]

theorem toNat_testMsrIndex_of_low {msr : BitVec 32} (h : LowMsr msr) :
    (testMsrIndex msr).toNat = msr.toNat / 8 := by
  have hzero : HIGH_MSR_START_ADDR &&& msr = 0#32 := by
    rw [← BitVec.toNat_inj, toNat_HIGH_and]
    have : msr.toNat ≤ 0x1FFF := h
    change _ = 0
    omega
  rw [testMsrIndex, if_neg (not_not.mpr hzero), msrOffset_of_low h]
  exact BitVec.toNat_udiv

theorem toNat_testMsrIndex_of_high {msr : BitVec 32} (h : HighMsr msr) :
    (testMsrIndex msr).toNat = 1024 + msr.toNat % 8192 / 8 := by
  obtain ⟨hlow, hhigh⟩ := h
  have hne : HIGH_MSR_START_ADDR &&& msr ≠ 0#32 := by
    rw [← BitVec.toNat_inj.ne, toNat_HIGH_and]
    change _ ≠ 0
    omega
  rw [testMsrIndex, if_pos hne, BitVec.toNat_add, BitVec.toNat_udiv, toNat_msrOffset]
  change (msr.toNat % 8192 / 8 + 1024) % 2 ^ 32 = _
  omega

/-- The byte and the bit the function computes are those of the architecture. -/
theorem msrReadBit_eq {msr : BitVec 32} (h : LowMsr msr ∨ HighMsr msr) :
    8 * (testMsrIndex msr).toNat + (testMsrBit (msrOffset msr)).toNat = msrReadBit msr := by
  rw [toNat_testMsrBit, toNat_msrOffset, msrReadBit]
  rcases h with h | h
  · have hle : msr.toNat ≤ 0x1FFF := h
    rw [toNat_testMsrIndex_of_low h, if_pos hle]
    omega
  · obtain ⟨hlow, hhigh⟩ := h
    rw [toNat_testMsrIndex_of_high ⟨hlow, hhigh⟩, if_neg (by omega)]
    omega

theorem toNat_writeIndex {msr : BitVec 32} (h : LowMsr msr ∨ HighMsr msr) :
    (testMsrIndex msr + MSR_WRITE_BITMAP_OFFSET).toNat = (testMsrIndex msr).toNat + 2048 := by
  rw [BitVec.toNat_add]
  change ((testMsrIndex msr).toNat + 2048) % 2 ^ 32 = _
  rcases h with h | h
  · rw [toNat_testMsrIndex_of_low h]
    omega
  · rw [toNat_testMsrIndex_of_high h]
    omega

section

variable (msrBitmap : ByteBitmap) {msr : BitVec 32} (isBitSet : BitVec 32)

theorem bit_changeBits_read (h : LowMsr msr ∨ HighMsr msr) (i : Nat) :
    (changeBits msrBitmap (testMsrIndex msr)
      (1#32 <<< (testMsrBit (msrOffset msr)).toNat) isBitSet).bit i
      = if i = msrReadBit msr then decide (isBitSet = BIT_TYPE_SET) else msrBitmap.bit i := by
  have hbit : (testMsrBit (msrOffset msr)).toNat < 8 := by rw [toNat_testMsrBit]; omega
  rw [changeBits_eq, ByteBitmap.bit_putBits_one _ _ hbit, msrReadBit_eq h]

theorem bit_changeBits_write (h : LowMsr msr ∨ HighMsr msr) (i : Nat) :
    (changeBits msrBitmap (testMsrIndex msr + MSR_WRITE_BITMAP_OFFSET)
        (1#32 <<< (testMsrBit (msrOffset msr)).toNat) isBitSet).bit i
      = if i = msrWriteBit msr then decide (isBitSet = BIT_TYPE_SET) else msrBitmap.bit i := by
  have hbit : (testMsrBit (msrOffset msr)).toNat < 8 := by rw [toNat_testMsrBit]; omega
  rw [changeBits_eq, ByteBitmap.bit_putBits_one _ _ hbit, toNat_writeIndex h, msrWriteBit,
    ← msrReadBit_eq h, Nat.mul_add, Nat.add_comm (8 * _) (8 * 2048), Nat.add_assoc]

theorem bit_setMsrBitmap (h : LowMsr msr ∨ HighMsr msr) (isRdWt : MsrAccess) (i : Nat) :
    (setMsrBitmap msrBitmap msr isBitSet isRdWt).bit i
      = if isRdWt.Controls msr i then decide (isBitSet = BIT_TYPE_SET) else msrBitmap.bit i := by
  cases isRdWt with
  | MSR_READ => exact bit_changeBits_read msrBitmap isBitSet h i
  | MSR_WRITE => exact bit_changeBits_write msrBitmap isBitSet h i
  | MSR_READ_WRITE =>
      refine (bit_changeBits_write _ isBitSet h i).trans ?_
      rw [if_pos (Or.inr rfl), bit_changeBits_read msrBitmap isBitSet h i]
      by_cases hwrite : i = msrWriteBit msr
      · rw [if_pos hwrite]
        exact (if_pos (Or.inr hwrite)).symm
      · rw [if_neg hwrite]
        exact if_congr (or_iff_left hwrite).symm rfl rfl
  | MSR_BUTT => rfl

/-- For a read of a low MSR the two functions compute the same byte and bit. -/
theorem setMsrBitmap_read_of_low (h : LowMsr msr) :
    setMsrBitmap msrBitmap msr isBitSet .MSR_READ =
      setRdmsrLowMsrBitmap msrBitmap msr isBitSet := by
  have hindex : testMsrIndex msr = msr / 8#32 := by
    rw [← BitVec.toNat_inj, toNat_testMsrIndex_of_low h, BitVec.toNat_udiv]
    rfl
  change changeBits msrBitmap (testMsrIndex msr) _ isBitSet = _
  rw [hindex, msrOffset_of_low h]
  rfl

end

/-- Exactly the architectural bits of the access are given the value, all of them inside the page,
    and reads of low MSRs are treated as `set_rdmsr_low_msr_bitmap` treats them. -/
theorem setMsrBitmap_exact (msrBitmap : ByteBitmap) {msr : BitVec 32} (isBitSet : BitVec 32)
    (isRdWt : MsrAccess) (h : LowMsr msr ∨ HighMsr msr) :
    (∀ i, (setMsrBitmap msrBitmap msr isBitSet isRdWt).bit i
        = if isRdWt.Controls msr i then decide (isBitSet = BIT_TYPE_SET) else msrBitmap.bit i)
      ∧ (∀ i, isRdWt.Controls msr i → i < 8 * 4096)
      ∧ (LowMsr msr → setMsrBitmap msrBitmap msr isBitSet .MSR_READ
          = setRdmsrLowMsrBitmap msrBitmap msr isBitSet) := by
  refine ⟨bit_setMsrBitmap msrBitmap isBitSet h isRdWt, fun i hi => ?_,
    setMsrBitmap_read_of_low msrBitmap isBitSet⟩
  have hread : msrReadBit msr < 8 * 2048 := by
    unfold msrReadBit
    unfold LowMsr HighMsr at h
    split <;> omega
  cases isRdWt <;> simp only [MsrAccess.Controls, msrWriteBit] at hi <;> omega

/-- Both accesses to a low MSR, in an empty map. -/
theorem setMsrBitmap_exact_low_both :
    (∀ i, (setMsrBitmap (fun _ => 0#8) 0x830#32 BIT_TYPE_SET .MSR_READ_WRITE).bit i
        = if MsrAccess.MSR_READ_WRITE.Controls 0x830#32 i then decide (BIT_TYPE_SET = BIT_TYPE_SET)
          else ByteBitmap.bit (fun _ => 0#8) i)
      ∧ (∀ i, MsrAccess.MSR_READ_WRITE.Controls 0x830#32 i → i < 8 * 4096)
      ∧ (LowMsr 0x830#32 → setMsrBitmap (fun _ => 0#8) 0x830#32 BIT_TYPE_SET .MSR_READ
          = setRdmsrLowMsrBitmap (fun _ => 0#8) 0x830#32 BIT_TYPE_SET) :=
  setMsrBitmap_exact (fun _ => 0#8) BIT_TYPE_SET .MSR_READ_WRITE
    (Or.inl (by unfold LowMsr; decide))

end AcrnGuest
