import AcrnGuest.Crc32
import AcrnGuest.FeedbackRegister

/-!
# What `Crc32_ComputeBuf` computes

The specification feeds the bits of a buffer, the lowest bit of each byte first, into a
register of 32 bits with the reflected polynomial `0xEDB88320`; the register is inverted
before and after. The function of `x86/crc32.c` works on bytes, with a table, and in a
variable of 64 bits whose upper half stays zero.
-/

namespace AcrnGuest

open FeedbackRegister

/-- The reflected polynomial of the CRC-32. -/
def crcPolynomial : BitVec 32 := 0xEDB88320#32

/-- The CRC-32 of a sequence of bytes, bit by bit. -/
def crc32Bitwise (inCrc32 : BitVec 32) (bytes : List (BitVec 8)) : BitVec 32 :=
  ~~~ bytes.foldl (fun s b => feedBits crcPolynomial s b 8) (~~~ inCrc32)

def bufBytes (m : Bytes) (buf : Word) (len : Nat) : List (BitVec 8) := (bufAddrs buf len).map m

/-! ### One byte -/

theorem crcTable_eq :
    crcTable = (List.range 256).map fun i =>
      (turn crcPolynomial 8 (BitVec.ofNat 32 i)).setWidth 64 := by
  decide +kernel

theorem crcTable_getD {i : Nat} (hi : i < 256) :
    crcTable.getD i 0#64 = (turn crcPolynomial 8 (BitVec.ofNat 32 i)).setWidth 64 := by
  rw [crcTable_eq, List.getD_eq_getElem _ _ (by simpa using hi)]
  simp

/-- The bits of a byte can be added to the register at once. -/
theorem feedBits_byte (s : BitVec 32) (b : BitVec 8) :
    feedBits crcPolynomial s b 8 = turn crcPolynomial 8 (s ^^^ b.setWidth 32) := by
  have hbits : feedBits crcPolynomial s b 8 = feedBits crcPolynomial s (b.setWidth 32) 8 := by
    apply List.foldl_ext
    intro t i hi
    have hlt : i < 32 := Nat.lt_trans (List.mem_range.mp hi) (by decide)
    simp [hlt]
  have hnone : b.setWidth 32 >>> 8 = 0#32 := by
    apply BitVec.eq_of_getLsbD_eq
    intro i _
    simp
  rw [hbits, feedBits_eq, hnone, BitVec.xor_zero]

theorem crcPick_eq_setWidth (s : BitVec 32) (b : BitVec 8) :
    (crcPick (s.setWidth 64) b).toNat = ((s ^^^ b.setWidth 32).setWidth 8).toNat := by
  have hmask : (0xFF#64).toNat = 2 ^ 8 - 1 := rfl
  have hs : s.toNat % 2 ^ 64 = s.toNat := Nat.mod_eq_of_lt (Nat.lt_trans s.isLt (by decide))
  have hb : b.toNat % 2 ^ 64 = b.toNat := Nat.mod_eq_of_lt (Nat.lt_trans b.isLt (by decide))
  have hb' : b.toNat % 2 ^ 32 = b.toNat := Nat.mod_eq_of_lt (Nat.lt_trans b.isLt (by decide))
  rw [crcPick, BitVec.toNat_and, hmask, Nat.and_two_pow_sub_one_eq_mod]
  simp only [BitVec.toNat_xor, BitVec.toNat_setWidth, hs, hb, hb']

/-- **One byte of the loop** feeds the bits of the byte. -/
theorem crcStep_eq (s : BitVec 32) (b : BitVec 8) :
    crcStep (s.setWidth 64) b = (feedBits crcPolynomial s b 8).setWidth 64 := by
  have hlow : ((s ^^^ b.setWidth 32).setWidth 8).setWidth 32 =
      BitVec.ofNat 32 ((s ^^^ b.setWidth 32).setWidth 8).toNat := (BitVec.ofNat_toNat ..).symm
  have hrest : (s ^^^ b.setWidth 32) >>> 8 = s >>> 8 := by
    apply BitVec.eq_of_getLsbD_eq
    intro i _
    simp
  have hword := crcTable_getD ((s ^^^ b.setWidth 32).setWidth 8).isLt
  rw [feedBits_byte, turn_split, hrest, hlow, BitVec.setWidth_xor, ← hword, ← crcPick_eq_setWidth]
  rw [crcStep, ← crcPick, BitVec.setWidth_ushiftRight (by decide)]

/-! ### The whole buffer -/

theorem foldl_crcStep_eq (bytes : List (BitVec 8)) (s : BitVec 32) :
    bytes.foldl crcStep (s.setWidth 64) =
      (bytes.foldl (fun s b => feedBits crcPolynomial s b 8) s).setWidth 64 := by
  induction bytes generalizing s with
  | nil => rfl
  | cons b bytes ih => simp only [List.foldl_cons, crcStep_eq, ih]

/-- In the lower half, the complement of the source is the one of 32 bits. -/
theorem xor_ones_eq (s : BitVec 32) : s.setWidth 64 ^^^ 0xFFFFFFFF#64 = (~~~ s).setWidth 64 := by
  have hones : 0xFFFFFFFF#64 = (BitVec.allOnes 32).setWidth 64 := by decide
  rw [hones, ← BitVec.setWidth_xor, BitVec.xor_allOnes]

theorem crc32ComputeBuf_eq_bitwise (inCrc32 : BitVec 32) (m : Bytes) (buf : Word) (len : Nat) :
    crc32ComputeBuf (inCrc32.setWidth 64) m buf len =
      (crc32Bitwise inCrc32 (bufBytes m buf len)).setWidth 64 := by
  rw [crc32ComputeBuf, crcLoop_eq_foldl, xor_ones_eq, foldl_crcStep_eq, xor_ones_eq]
  rfl

-- the check value of the CRC-32, over the characters `123456789`
example : crc32Bitwise 0#32 [0x31#8, 0x32#8, 0x33#8, 0x34#8, 0x35#8, 0x36#8, 0x37#8,
    0x38#8, 0x39#8] =
    0xCBF43926#32 := by
  decide +kernel

theorem crc32Bitwise_append (inCrc32 : BitVec 32) (front back : List (BitVec 8)) :
    crc32Bitwise inCrc32 (front ++ back) = crc32Bitwise (crc32Bitwise inCrc32 front) back := by
  simp [crc32Bitwise]

/-- `Crc32_ComputeBuf` is the CRC-32 of the bytes of the buffer, and where a buffer holds what two
    others hold, one behind the other, the computation over it is the two in a row. -/
theorem crc32ComputeBuf_bitwise_and_chains (inCrc32 : BitVec 32) :
    (∀ m buf len, crc32ComputeBuf (inCrc32.setWidth 64) m buf len =
      (crc32Bitwise inCrc32 (bufBytes m buf len)).setWidth 64) ∧
    ∀ m buf len m₁ buf₁ len₁ m₂ buf₂ len₂,
      bufBytes m buf len = bufBytes m₁ buf₁ len₁ ++ bufBytes m₂ buf₂ len₂ →
      crc32ComputeBuf (inCrc32.setWidth 64) m buf len =
        crc32ComputeBuf (crc32ComputeBuf (inCrc32.setWidth 64) m₁ buf₁ len₁) m₂ buf₂ len₂ := by
  refine ⟨crc32ComputeBuf_eq_bitwise inCrc32, ?_⟩
  intro m buf len m₁ buf₁ len₁ m₂ buf₂ len₂ hbytes
  simp only [crc32ComputeBuf_eq_bitwise, hbytes, crc32Bitwise_append]

end AcrnGuest
