import AcrnGuest.Memory
import Mathlib.Tactic.SplitIfs

/-!
# Bit-fields of packed structures

A packed structure of a C program occupies consecutive words, and a bit-field is a
range of bits in one of them. Reading and assigning a field is all a program does
with such a structure, so the lemmas say how an assignment acts on every field and
on the memory around the structure.
-/

namespace AcrnGuest

/-- A bit-field: the word of the structure that holds it and its bits there. -/
structure BitField where
  quad : Nat
  pos : Nat
  width : Nat
  fits : quad < 2 ^ 32 ∧ 0 < width ∧ pos + width ≤ 64 := by decide

namespace BitField

variable {f g : BitField} {m m' : Mem} {base v w : Word}

def mask (f : BitField) : Word := GENMASK_ULL (f.pos + f.width - 1) f.pos

def extract (f : BitField) (w : Word) : Word := (w &&& f.mask) >>> f.pos

def insert (f : BitField) (w v : Word) : Word := (w &&& ~~~ f.mask) ||| ((v <<< f.pos) &&& f.mask)

def addr (f : BitField) (base : Word) : Word := base + 8#64 * BitVec.ofNat 64 f.quad

def get (f : BitField) (m : Mem) (base : Word) : Word := f.extract (m (f.addr base))

def set (f : BitField) (m : Mem) (base v : Word) : Mem :=
  Function.update m (f.addr base) (f.insert (m (f.addr base)) v)

/-- Fields in different words, or in different bits of one word. -/
def Apart (f g : BitField) : Prop :=
  f.quad ≠ g.quad ∨ f.pos + f.width ≤ g.pos ∨ g.pos + g.width ≤ f.pos

instance : Decidable (Apart f g) :=
  inferInstanceAs (Decidable (f.quad ≠ g.quad ∨ f.pos + f.width ≤ g.pos ∨ g.pos + g.width ≤ f.pos))

/-! ### Words -/

theorem getLsbD_mask (f : BitField) (i : Nat) :
    f.mask.getLsbD i = (decide (f.pos ≤ i) && decide (i < f.pos + f.width)) := by
  obtain ⟨-, hwidth, hfits⟩ := f.fits
  rw [mask, getLsbD_GENMASK_ULL (by omega)]
  congr 1
  exact decide_eq_decide.mpr (by omega)

theorem getLsbD_extract (f : BitField) (w : Word) (i : Nat) :
    (f.extract w).getLsbD i = (w.getLsbD (f.pos + i) && decide (i < f.width)) := by
  rw [extract, BitVec.getLsbD_ushiftRight, BitVec.getLsbD_and, getLsbD_mask]
  congr 1
  simp

theorem getLsbD_insert (f : BitField) (w v : Word) {i : Nat} (hi : i < 64) :
    (f.insert w v).getLsbD i =
      if f.pos ≤ i ∧ i < f.pos + f.width then v.getLsbD (i - f.pos) else w.getLsbD i := by
  simp only [insert, BitVec.getLsbD_or, BitVec.getLsbD_and, BitVec.getLsbD_not, getLsbD_mask,
    BitVec.getLsbD_shiftLeft]
  split_ifs with hin
  · simp [hin.1, hin.2, hi, Nat.not_lt.mpr hin.1]
  · have hout : (decide (f.pos ≤ i) && decide (i < f.pos + f.width)) = false := by
      simp only [Bool.and_eq_false_iff, decide_eq_false_iff_not]
      omega
    simp [hout, hi]

theorem extract_insert (f : BitField) (w v : Word) :
    f.extract (f.insert w v) = v &&& GENMASK_ULL (f.width - 1) 0 := by
  obtain ⟨-, hwidth, hfits⟩ := f.fits
  apply BitVec.eq_of_getLsbD_eq
  intro i hi
  rw [getLsbD_extract, BitVec.getLsbD_and, getLsbD_GENMASK_ULL (by omega)]
  by_cases hin : i < f.width
  · rw [getLsbD_insert f w v (by omega), if_pos (by omega), Nat.add_sub_cancel_left]
    simp only [hin, decide_true, Bool.and_true, Nat.zero_le, Bool.true_and]
    rw [decide_eq_true (by omega : i ≤ f.width - 1), Bool.and_true]
  · simp only [hin, decide_false, Bool.and_false, Nat.zero_le, decide_true, Bool.true_and]
    rw [decide_eq_false (by omega : ¬ i ≤ f.width - 1), Bool.and_false]

theorem extract_insert_of_apart (h : f.pos + f.width ≤ g.pos ∨ g.pos + g.width ≤ f.pos)
    (w v : Word) :
    g.extract (f.insert w v) = g.extract w := by
  obtain ⟨-, -, hfits⟩ := g.fits
  apply BitVec.eq_of_getLsbD_eq
  intro i hi
  rw [getLsbD_extract, getLsbD_extract]
  by_cases hin : i < g.width
  · rw [getLsbD_insert f w v (by omega), if_neg (by omega)]
  · simp only [hin, decide_false, Bool.and_false]

theorem extract_zero (f : BitField) : f.extract 0#64 = 0#64 := by
  rw [extract, BitVec.zero_and]
  exact BitVec.zero_ushiftRight

/-! ### Structures in memory -/

theorem set_of_ne {a : Word} (f : BitField) (m : Mem) (v : Word) (h : a ≠ f.addr base) :
    f.set m base v a = m a := Function.update_of_ne h _ _

theorem get_congr (h : m' (f.addr base) = m (f.addr base)) : f.get m' base = f.get m base :=
  congrArg f.extract h

theorem get_of_zero (h : m (f.addr base) = 0#64) : f.get m base = 0#64 := by
  rw [get, h, extract_zero]

theorem get_set_self (f : BitField) (m : Mem) (base v : Word) :
    f.get (f.set m base v) base = v &&& GENMASK_ULL (f.width - 1) 0 := by
  rw [get, set, Function.update_self, extract_insert]

theorem addr_ne (h : f.quad ≠ g.quad) : g.addr base ≠ f.addr base := by
  obtain ⟨hf, -, -⟩ := f.fits
  obtain ⟨hg, -, -⟩ := g.fits
  intro heq
  have hsame : 8#64 * BitVec.ofNat 64 g.quad = 8#64 * BitVec.ofNat 64 f.quad :=
    (BitVec.add_right_inj base).mp heq
  have hnat := congrArg BitVec.toNat hsame
  simp only [BitVec.toNat_mul, BitVec.toNat_ofNat] at hnat
  omega

/-- An assignment keeps the other fields. -/
theorem get_set_of_apart (h : Apart f g) (m : Mem) (base v : Word) :
    g.get (f.set m base v) base = g.get m base := by
  by_cases hquad : f.quad = g.quad
  · have haddr : g.addr base = f.addr base := by rw [addr, addr, hquad]
    rw [get, get, set, haddr, Function.update_self]
    exact extract_insert_of_apart (h.resolve_left (not_not.mpr hquad)) _ _
  · exact get_congr (set_of_ne f m v (addr_ne hquad))

end BitField

end AcrnGuest
