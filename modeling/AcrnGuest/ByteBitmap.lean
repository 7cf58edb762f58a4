import Mathlib.Logic.Function.Basic
import Mathlib.Tactic.Common

/-!
# Bit maps stored in bytes

A map of bits is kept in an array of bytes, eight to a byte with the lowest bit first.
A program changes it a byte at a time: it combines one byte with a mask, computed in a
32-bit integer and truncated to the byte when it is stored. `bit_putBits` says
what this does to the bit map: the bits of the mask that do not fit the byte are lost.
-/

namespace AcrnGuest

abbrev ByteBitmap := Nat → BitVec 8

namespace ByteBitmap

variable {m : ByteBitmap} {k i : Nat} {mask : BitVec 32}

def bit (m : ByteBitmap) (i : Nat) : Bool := (m (i / 8)).getLsbD (i % 8)

def setBits (m : ByteBitmap) (k : Nat) (mask : BitVec 32) : ByteBitmap :=
  Function.update m k (((m k).setWidth 32 ||| mask).setWidth 8)

def clearBits (m : ByteBitmap) (k : Nat) (mask : BitVec 32) : ByteBitmap :=
  Function.update m k (((m k).setWidth 32 &&& ~~~ mask).setWidth 8)

/-- The bits of `mask` are given the value `on`, in byte `k`. -/
def putBits (m : ByteBitmap) (k : Nat) (mask : BitVec 32) (on : Bool) : ByteBitmap :=
  if on then m.setBits k mask else m.clearBits k mask

theorem bit_update_self (b : BitVec 8) (h : i / 8 = k) :
    bit (Function.update m k b) i = b.getLsbD (i % 8) := by
  rw [bit, h, Function.update_self]

theorem bit_update_of_ne (b : BitVec 8) (h : i / 8 ≠ k) :
    bit (Function.update m k b) i = m.bit i := by
  rw [bit, Function.update_of_ne h]
  rfl

theorem bit_putBits (m : ByteBitmap) (k : Nat) (mask : BitVec 32) (on : Bool) (i : Nat) :
    (m.putBits k mask on).bit i
      = if i / 8 = k ∧ mask.getLsbD (i % 8) = true then on else m.bit i := by
  by_cases hk : i / 8 = k
  · have hi : i % 8 < 8 := Nat.mod_lt i (by decide)
    have hi32 : i % 8 < 32 := by omega
    have hold : m.bit i = (m k).getLsbD (i % 8) := by rw [bit, hk]
    rw [hold]
    cases on with
    | true =>
        simp only [putBits, setBits, if_true, bit_update_self _ hk, BitVec.getLsbD_setWidth,
          BitVec.getLsbD_or, hi, hi32, hk, true_and, decide_true, Bool.true_and]
        cases mask.getLsbD (i % 8) <;> simp
    | false =>
        simp only [putBits, clearBits, Bool.false_eq_true, if_false, bit_update_self _ hk,
          BitVec.getLsbD_setWidth, BitVec.getLsbD_and, BitVec.getLsbD_not, hi, hi32, hk, true_and,
          decide_true, Bool.true_and]
        cases mask.getLsbD (i % 8) <;> simp
  · rw [if_neg fun h => hk h.1]
    cases on with
    | true => exact bit_update_of_ne _ hk
    | false => exact bit_update_of_ne _ hk

/-- A mask of one bit changes one bit of the map. -/
theorem bit_putBits_one (m : ByteBitmap) (k : Nat) {b : Nat} (hb : b < 8) (on : Bool) (i : Nat) :
    (m.putBits k (1#32 <<< b) on).bit i = if i = 8 * k + b then on else m.bit i := by
  rw [bit_putBits]
  refine if_congr ?_ rfl rfl
  rw [BitVec.getLsbD_shiftLeft, BitVec.getLsbD_one]
  simp only [Bool.and_eq_true, decide_eq_true_eq, Bool.not_eq_true', decide_eq_false_iff_not]
  omega

end ByteBitmap

end AcrnGuest
