import Mathlib.Data.Fin.VecNotation
import AcrnGuest.MemIsolation

/-!
# Placing and checking the windows (`x86/safety_analysis.h`)

`gen_start_addr` places one window behind the start of the region, one in its middle and one
before its end, and asserts that three windows are smaller than the region. The first and the
last window keep a distance that the assertion does not count: the first is never below
`RSVD_START_MEM`, and `RSVE_END_MEM` bytes stay free behind the last. In a small region the
windows can lie outside of it or on one another, and then `check_data_from` does not find
what `write_mem_data_ex` wrote.
-/

namespace AcrnGuest

/-! ### The source -/

def Bytes.load32 (m : Bytes) (a : Word) : BitVec 32 :=
  m (a + 3#64) ++ m (a + 2#64) ++ m (a + 1#64) ++ m a

/-- One iteration of the loop of `check_data_from`; the counter `i` has 32 bits. -/
def checkDataFromStep (m : Bytes) (start count data : Word) (i : BitVec 32) : BitVec 32 ⊕ Bool :=
  if i.toNat < count.toNat then
    if (m.load32 (start + 4#64 * i.setWidth 64)).setWidth 64 ≠
      data + i.setWidth 64 * 4#64 then .inr false
    else .inl (i + 1#32)
  else .inr true

def checkDataFrom (m : Bytes) (start count data : Word) : Option Bool :=
  Loop.run (checkDataFromStep m start count data) LOOP_BOUND 0#32

/-! ### What the windows should be -/

/-- The address `a` is in one of the `count` words from `base` on. -/
def InWindow (base count a : Word) : Prop := (a - base).toNat < 4 * count.toNat

instance (base count a : Word) : Decidable (InWindow base count a) :=
  inferInstanceAs (Decidable (_ < _))

/-- The windows lie in the region and on different addresses, and what is written to them is found
there. -/
structure WindowsHold (start end_ count : Word) (base : Fin 3 → Word) : Prop where
  inside : ∀ w a, InWindow (base w) count a → start.toNat ≤ a.toNat ∧ a.toNat < end_.toNat
  disjoint : ∀ w w', w ≠ w' → ∀ a, InWindow (base w) count a → ¬ InWindow (base w') count a
  found : ∀ m data, (∀ i, i < 3 * count.toNat → data.toNat + 4 * i < 2 ^ 32) →
    ∃ m', writeMemDataEx m start end_ count data = some m' ∧
      ∀ w : Fin 3, checkDataFrom m' (base w) count (data + BitVec.ofNat 64 w.val * (count * 4#64)) =
        some true

def Apart (n a b : Nat) : Prop := a + n ≤ b ∨ b + n ≤ a

/-- The region has room for the windows with their distances. The assertion of `gen_start_addr`
keeps the middle window behind a first one that is not moved up to `0x1000`. In a region of up to
`0x200` bytes the last window is before the middle one, and it is before the first one only if
that was moved. -/
structure Roomy (start end_ count : Word) : Prop where
  sum_lt : start.toNat + end_.toNat < 2 ^ 64
  first : max start.toNat 0x1000 + 4 * count.toNat ≤ end_.toNat
  last : start.toNat + 0x100 + 4 * count.toNat ≤ end_.toNat
  first_middle : start.toNat < 0x1000 →
    Apart (4 * count.toNat) 0x1000 ((start.toNat + end_.toNat) / 2)
  middle_last : end_.toNat ≤ start.toNat + 0x200 ∨
    (start.toNat + end_.toNat) / 2 + 0x100 + 8 * count.toNat ≤ end_.toNat
  first_last : start.toNat < 0x1000 ∧ end_.toNat ≤ 0x1100 ∨
    max start.toNat 0x1000 + 0x100 + 8 * count.toNat ≤ end_.toNat

/-! ### Reading the words of a fill -/

section Fill

variable {m : Bytes} {base data a : Word} {n i : Nat}

theorem filled_of_outside (h : ¬ (a - base).toNat < 4 * n) :
    filled m base data n a = m a := if_neg h

theorem load32_eq {v : BitVec 32} (h : ∀ k, k < 4 →
    m (a + BitVec.ofNat 64 k) = (v >>> (8 * k)).setWidth 8) :
    m.load32 a = v := by
  have h0 : m a = (v >>> 0).setWidth 8 := by
    have := h 0 (by decide)
    rwa [BitVec.add_zero] at this
  rw [Bytes.load32, h0, h 1 (by decide), h 2 (by decide), h 3 (by decide)]
  simp only [BitVec.setWidth_ushiftRight_eq_extractLsb]
  exact append_bytes v

/-- The word `i` of a memory that is filled as far as the bytes of the word go. -/
theorem load32_of_filled {m' : Bytes} (hn : n ≤ 2 ^ 32) (hi : i < n)
    (hbytes : ∀ a, (a - base).toNat < 4 * n → m' a = filled m base data n a) :
    m'.load32 (base + BitVec.ofNat 64 (4 * i)) = (data + BitVec.ofNat 64 (4 * i)).setWidth 32 := by
  apply load32_eq
  intro k hk
  have hoffset : (base + BitVec.ofNat 64 (4 * i) + BitVec.ofNat 64 k - base).toNat = 4 * i + k := by
    rw [BitVec.add_assoc, BitVec.add_comm, BitVec.add_sub_cancel, ← BitVec.ofNat_add,
      BitVec.toNat_ofNat]
    omega
  have hindex : (4 * i + k) / 4 = i := by omega
  have hbyte : (4 * i + k) % 4 = k := by omega
  rw [hbytes _ (by omega), filled, hoffset, if_pos (by omega), hindex, hbyte]

/-- The check goes through if each word has its value. -/
theorem checkDataFrom_eq_true {count : Word} (hcount : count.toNat < 2 ^ 32)
    (hwords : ∀ i, i < count.toNat →
      (m.load32 (base + BitVec.ofNat 64 (4 * i))).setWidth 64 = data + BitVec.ofNat 64 (4 * i)) :
    checkDataFrom m base count data = some true := by
  have hrun : ∃ result, Loop.run (checkDataFromStep m base count data) LOOP_BOUND 0#32 =
      some result ∧
      result = true := by
    refine Loop.run_total _ (fun i => i.toNat ≤ count.toNat)
      (fun i => count.toNat - i.toNat) _ ?_ ?_
      (Nat.zero_le _) ?_
    · intro i next hle hstep
      unfold checkDataFromStep at hstep
      split_ifs at hstep with hlt
      rw [Sum.inl.injEq] at hstep
      subst hstep
      rw [toNat_counter_succ hlt hcount]
      omega
    · intro i result hle hstep
      unfold checkDataFromStep at hstep
      rw [(counter_word i).1, (counter_word i).2] at hstep
      split_ifs at hstep with hlt hne
      · exact absurd (hwords i.toNat hlt) hne
      · exact (Sum.inr.inj hstep).symm
    · dsimp only [LOOP_BOUND]
      omega
  obtain ⟨result, hresult, rfl⟩ := hrun
  exact hresult

end Fill

/-! ### The windows as ranges -/

section Ranges

variable {start end_ count base base' a : Word}

theorem inWindow_iff (hfits : base.toNat + 4 * count.toNat ≤ 2 ^ 64) :
    InWindow base count a ↔ base.toNat ≤ a.toNat ∧ a.toNat < base.toNat + 4 * count.toNat := by
  have ha := a.isLt
  unfold InWindow
  rw [BitVec.toNat_sub]
  omega

theorem inWindow_base (hpos : 0 < count.toNat) : InWindow base count base := by
  unfold InWindow
  rw [BitVec.sub_self]
  exact Nat.mul_pos (by decide) hpos

/-- A window in the region does not wrap, as the end of the region is not in it. -/
theorem inside_iff (hpos : 0 < count.toNat) :
    (∀ a, InWindow base count a → start.toNat ≤ a.toNat ∧ a.toNat < end_.toNat) ↔
      start.toNat ≤ base.toNat ∧ base.toNat + 4 * count.toNat ≤ end_.toNat := by
  have hend := end_.isLt
  constructor
  · intro hinside
    obtain ⟨hlow, hhigh⟩ := hinside base (inWindow_base hpos)
    refine ⟨hlow, ?_⟩
    by_contra hover
    have hmem : InWindow base count end_ := by
      unfold InWindow
      rw [BitVec.toNat_sub]
      omega
    exact Nat.lt_irrefl _ (hinside end_ hmem).2
  · rintro ⟨hlow, hhigh⟩ a ha
    rw [inWindow_iff (by omega)] at ha
    omega

theorem disjoint_iff_apart (hpos : 0 < count.toNat) (hfits : base.toNat + 4 * count.toNat ≤ 2 ^ 64)
    (hfits' : base'.toNat + 4 * count.toNat ≤ 2 ^ 64) :
    (∀ a, InWindow base count a → ¬ InWindow base' count a) ↔
      Apart (4 * count.toNat) base.toNat base'.toNat := by
  unfold Apart
  constructor
  · intro hdisjoint
    by_contra hover
    rcases Nat.le_total base.toNat base'.toNat with hle | hle
    · exact hdisjoint base' ((inWindow_iff hfits).mpr (by omega)) (inWindow_base hpos)
    · exact hdisjoint base (inWindow_base hpos) ((inWindow_iff hfits').mpr (by omega))
  · intro hapart a ha ha'
    rw [inWindow_iff hfits] at ha
    rw [inWindow_iff hfits'] at ha'
    omega

end Ranges

/-! ### What is found -/

section Found

variable {start end_ count data : Word} {base : Fin 3 → Word}

theorem count_lt_of_values (hvalues : ∀ i, i < 3 * count.toNat → data.toNat + 4 * i < 2 ^ 32) :
    count.toNat < 2 ^ 32 := by
  by_contra hlarge
  have := hvalues (3 * count.toNat - 1) (by omega)
  omega

/-- A window that nothing overwrites is found with its own values. -/
theorem checkDataFrom_of_filled (hvalues : ∀ i, i < 3 * count.toNat → data.toNat + 4 * i < 2 ^ 32)
    (w : Fin 3) {m m' : Bytes} {b : Word}
    (hbytes : ∀ a, InWindow b count a →
      m' a = filled m b (data + BitVec.ofNat 64 w.val * (count * 4#64)) count.toNat a) :
    checkDataFrom m' b count (data + BitVec.ofNat 64 w.val * (count * 4#64)) = some true := by
  have hcount : count.toNat < 2 ^ 32 := count_lt_of_values hvalues
  have hw : w.val < 3 := w.isLt
  apply checkDataFrom_eq_true hcount
  intro i hi
  rw [load32_of_filled (Nat.le_of_lt hcount) hi hbytes]
  -- the value fits in 32 bits, so nothing is cut off
  have hvalue : (data + BitVec.ofNat 64 w.val * (count * 4#64) + BitVec.ofNat 64 (4 * i)).toNat <
      2 ^ 32 := by
    have hoffset : BitVec.ofNat 64 w.val * (count * 4#64) + BitVec.ofNat 64 (4 * i) =
        BitVec.ofNat 64 (4 * (w.val * count.toNat + i)) := by
      have hmul : count * 4#64 = BitVec.ofNat 64 (4 * count.toNat) := by
        rw [BitVec.ofNat_mul, BitVec.ofNat_toNat, BitVec.setWidth_eq, BitVec.mul_comm]
      rw [hmul, ← BitVec.ofNat_mul, ← BitVec.ofNat_add]
      congr 1
      rw [Nat.mul_add, Nat.mul_left_comm]
    have hindex : w.val * count.toNat + i < 3 * count.toNat := by
      have hle : w.val * count.toNat ≤ 2 * count.toNat := Nat.mul_le_mul_right _ (by omega)
      omega
    have hlt := hvalues _ hindex
    rw [BitVec.add_assoc, hoffset, BitVec.toNat_add, BitVec.toNat_ofNat]
    omega
  apply BitVec.eq_of_toNat_eq
  rw [BitVec.toNat_setWidth, BitVec.toNat_setWidth]
  omega

/-- **Windows on different addresses are found as they were written.** -/
theorem found_of_disjoint (hbase : ∀ w : Fin 3, genStartAddr w.val start end_ count = some (base w))
    (hdisjoint : ∀ w w', w ≠ w' → ∀ a, InWindow (base w) count a → ¬ InWindow (base w') count a)
    (m : Bytes) (hvalues : ∀ i, i < 3 * count.toNat → data.toNat + 4 * i < 2 ^ 32) :
    ∃ m', writeMemDataEx m start end_ count data = some m' ∧
      ∀ w : Fin 3, checkDataFrom m' (base w) count (data + BitVec.ofNat 64 w.val * (count * 4#64)) =
        some true := by
  have hcount : count.toNat < 2 ^ 32 := count_lt_of_values hvalues
  have h0 : genStartAddr 0 start end_ count = some (base 0) := hbase 0
  have h1 : genStartAddr 1 start end_ count = some (base 1) := hbase 1
  have h2 : genStartAddr 2 start end_ count = some (base 2) := hbase 2
  have hdata0 : data + BitVec.ofNat 64 (0 : Fin 3).val * (count * 4#64) = data := by
    rw [show BitVec.ofNat 64 (0 : Fin 3).val = 0#64 from rfl, BitVec.zero_mul, BitVec.add_zero]
  have hdata1 : data + BitVec.ofNat 64 (1 : Fin 3).val * (count * 4#64) = data + count * 4#64 := by
    rw [show BitVec.ofNat 64 (1 : Fin 3).val = 1#64 from rfl, BitVec.one_mul]
  have hdata2 : data + BitVec.ofNat 64 (2 : Fin 3).val * (count * 4#64) =
      data + count * 4#64 + count * 4#64 := by
    rw [show BitVec.ofNat 64 (2 : Fin 3).val = 1#64 + 1#64 from rfl, BitVec.add_mul, BitVec.one_mul,
      BitVec.add_assoc]
  have hwrite : writeMemDataEx m start end_ count data =
      some
        (filled (filled (filled m (base 0) data count.toNat) (base 1)
          (data + count * 4#64) count.toNat)
        (base 2) (data + count * 4#64 + count * 4#64) count.toNat) := by
    simp only [writeMemDataEx, h0, h1, h2, Option.bind_eq_bind, Option.bind_some,
      writeMemData_eq hcount]
  refine ⟨_, hwrite, fun w => ?_⟩
  -- the later fills leave the window alone
  rcases (by omega : w = 0 ∨ w = 1 ∨ w = 2) with rfl | rfl | rfl
  · apply checkDataFrom_of_filled hvalues 0
    intro a ha
    rw [filled_of_outside (hdisjoint 0 2 (by decide) a ha),
      filled_of_outside (hdisjoint 0 1 (by decide) a ha), hdata0]
  · apply checkDataFrom_of_filled hvalues 1
    intro a ha
    rw [filled_of_outside (hdisjoint 1 2 (by decide) a ha), hdata1]
  · apply checkDataFrom_of_filled hvalues 2
    intro a ha
    rw [hdata2]

end Found

/-! ### When the windows hold -/

section Placement

variable {start end_ count : Word} {base : Fin 3 → Word}

/-- The assertion, and where it lets the windows be. -/
theorem genStartAddr_toNat (hbase : ∀ w : Fin 3,
    genStartAddr w.val start end_ count = some (base w)) :
    4 * count.toNat % 2 ^ 64 < (end_ - start).toNat / 3 ∧
      (base 0).toNat = max start.toNat 0x1000 ∧
      (base 1).toNat = (start.toNat + end_.toNat) % 2 ^ 64 / 2 ∧
      (base 2).toNat =
        (2 ^ 64 - 4 * count.toNat % 2 ^ 64 + (2 ^ 64 - 0x100 + end_.toNat) % 2 ^ 64) % 2 ^ 64 := by
  have h0 : genStartAddr 0 start end_ count = some (base 0) := hbase 0
  have h1 : genStartAddr 1 start end_ count = some (base 1) := hbase 1
  have h2 : genStartAddr 2 start end_ count = some (base 2) := hbase 2
  have hassert : count * 4#64 < (end_ - start) / 3#64 := by
    by_contra hfails
    simp [genStartAddr, hfails] at h0
  simp only [genStartAddr, if_pos hassert, Option.some.injEq] at h0 h1 h2
  refine ⟨?_, ?_, ?_, ?_⟩
  · rw [BitVec.lt_def, BitVec.toNat_udiv, BitVec.toNat_mul, Nat.mul_comm] at hassert
    exact hassert
  · rw [← h0]
    by_cases hlow : start < RSVD_START_MEM
    · rw [if_pos hlow]
      rw [BitVec.lt_def] at hlow
      exact (Nat.max_eq_right (Nat.le_of_lt hlow)).symm
    · rw [if_neg hlow]
      rw [BitVec.lt_def] at hlow
      exact (Nat.max_eq_left (Nat.le_of_not_lt hlow)).symm
  · rw [← h1, BitVec.toNat_ushiftRight, BitVec.toNat_add, Nat.shiftRight_eq_div_pow]
  · rw [← h2, BitVec.toNat_sub, BitVec.toNat_sub, BitVec.toNat_mul, Nat.mul_comm count.toNat]
    rfl

/-- The windows hold if and only if, as ranges of numbers, they are in the region and apart. -/
theorem windowsHold_iff_ranges (hpos : 0 < count.toNat)
    (hbase : ∀ w : Fin 3, genStartAddr w.val start end_ count = some (base w)) :
    WindowsHold start end_ count base ↔
      (∀ w, start.toNat ≤ (base w).toNat ∧ (base w).toNat + 4 * count.toNat ≤ end_.toNat) ∧
        ∀ w w', w ≠ w' → Apart (4 * count.toNat) (base w).toNat (base w').toNat := by
  have hend := end_.isLt
  constructor
  · intro hhold
    have hin := fun w => (inside_iff hpos).mp (hhold.inside w)
    have hfits : ∀ w, (base w).toNat + 4 * count.toNat ≤ 2 ^ 64 :=
      fun w => (hin w).2.trans (Nat.le_of_lt hend)
    exact ⟨hin, fun w w' hne => (disjoint_iff_apart hpos (hfits w) (hfits w')).mp
      (hhold.disjoint w w' hne)⟩
  · rintro ⟨hin, hapart⟩
    have hfits : ∀ w, (base w).toNat + 4 * count.toNat ≤ 2 ^ 64 :=
      fun w => (hin w).2.trans (Nat.le_of_lt hend)
    have hdisjoint := fun w w' hne =>
      (disjoint_iff_apart hpos (hfits w) (hfits w')).mpr (hapart w w' hne)
    exact ⟨fun w => (inside_iff hpos).mpr (hin w), hdisjoint, fun m _ =>
      found_of_disjoint hbase hdisjoint m⟩

theorem Apart.symm {n a b : Nat} (h : Apart n a b) : Apart n b a := Or.symm h

theorem forall_apart_iff {n : Nat} (a : Fin 3 → Nat) :
    (∀ w w', w ≠ w' → Apart n (a w) (a w')) ↔
      Apart n (a 0) (a 1) ∧ Apart n (a 1) (a 2) ∧ Apart n (a 0) (a 2) := by
  constructor
  · intro h
    exact ⟨h 0 1 (by decide), h 1 2 (by decide), h 0 2 (by decide)⟩
  · rintro ⟨h01, h12, h02⟩
    have hordered : ∀ w w', w < w' → Apart n (a w) (a w') := by
      intro w w' hlt
      rcases (by omega : w = 0 ∧ w' = 1 ∨ w = 1 ∧ w' = 2 ∨ w = 0 ∧ w' = 2) with
        ⟨rfl, rfl⟩ | ⟨rfl, rfl⟩ | ⟨rfl, rfl⟩
      · exact h01
      · exact h12
      · exact h02
    intro w w' hne
    rcases lt_or_gt_of_ne hne with hlt | hgt
    · exact hordered w w' hlt
    · exact (hordered w' w hgt).symm

theorem sum_lt_of_middle {s e : Nat} (he : e < 2 ^ 64) (h : s ≤ (s + e) % 2 ^ 64 / 2) :
    s + e < 2 ^ 64 := by
  omega

theorem last_eq {e n : Nat} (he : e < 2 ^ 64) (hfits : 0x100 + n ≤ e) :
    (2 ^ 64 - n % 2 ^ 64 + (2 ^ 64 - 0x100 + e) % 2 ^ 64) % 2 ^ 64 = e - 0x100 - n := by
  omega

theorem fits_of_last {e n : Nat} (hn : n ≤ e)
    (h : (2 ^ 64 - n % 2 ^ 64 + (2 ^ 64 - 0x100 + e) % 2 ^ 64) % 2 ^ 64 + n ≤ e) :
    0x100 + n ≤ e := by
  omega

section Distances

variable {s e n : Nat}

theorem apart_first_middle_iff (hlt : s < e) (hassert : n < (e - s) / 3) :
    Apart n (max s 0x1000) ((s + e) / 2) ↔ (s < 0x1000 → Apart n 0x1000 ((s + e) / 2)) := by
  unfold Apart
  omega

theorem apart_middle_last_iff (hlast : s + 0x100 + n ≤ e) :
    Apart n ((s + e) / 2) (e - 0x100 - n) ↔
      e ≤ s + 0x200 ∨ (s + e) / 2 + 0x100 + 2 * n ≤ e := by
  unfold Apart
  omega

theorem apart_first_last_iff (hpos : 0 < n) (hlast : s + 0x100 + n ≤ e) :
    Apart n (max s 0x1000) (e - 0x100 - n) ↔
      s < 0x1000 ∧ e ≤ 0x1100 ∨ max s 0x1000 + 0x100 + 2 * n ≤ e := by
  unfold Apart
  omega

end Distances

/-- **The windows hold exactly if the region has room**, or there is nothing to write. -/
theorem windowsHold_iff (hlt : start.toNat < end_.toNat)
    (hbase : ∀ w : Fin 3, genStartAddr w.val start end_ count = some (base w)) :
    WindowsHold start end_ count base ↔ count = 0#64 ∨ Roomy start end_ count := by
  obtain ⟨hassert, hbase0, hbase1, hbase2⟩ := genStartAddr_toNat hbase
  have hend := end_.isLt
  rcases Nat.eq_zero_or_pos count.toNat with hzero | hpos
  · have hempty : ∀ w a, ¬ InWindow (base w) count a := by
      intro w a ha
      unfold InWindow at ha
      omega
    have hcount : count = 0#64 := BitVec.eq_of_toNat_eq hzero
    refine iff_of_true ⟨fun w a ha => absurd ha (hempty w a), fun _ w' _ a _ => hempty w' a, ?_⟩
      (Or.inl hcount)
    intro m data
    exact found_of_disjoint hbase (fun _ w' _ a _ => hempty w' a) m
  have hne : count ≠ 0#64 := by
    rintro rfl
    exact absurd hpos (by decide)
  rw [or_iff_right hne, windowsHold_iff_ranges hpos hbase, forall_apart_iff, hbase0, hbase1, hbase2]
  have hsize : (end_ - start).toNat = end_.toNat - start.toNat :=
    BitVec.toNat_sub_of_le (Nat.le_of_lt hlt)
  have hdouble : 8 * count.toNat = 2 * (4 * count.toNat) := by omega
  constructor
  · rintro ⟨hin, hapart⟩
    have hsum : start.toNat + end_.toNat < 2 ^ 64 := sum_lt_of_middle hend (hbase1 ▸ (hin 1).1)
    have hfirst : max start.toNat 0x1000 + 4 * count.toNat ≤ end_.toNat := hbase0 ▸ (hin 0).2
    have hfits : 0x100 + 4 * count.toNat ≤ end_.toNat :=
      fits_of_last (Nat.le_of_add_left_le (hin 2).2) (hbase2 ▸ (hin 2).2)
    have hbefore : start.toNat + 0x100 + 4 * count.toNat ≤ end_.toNat := by
      have hlow := (hin 2).1
      rw [hbase2, last_eq hend hfits] at hlow
      omega
    rw [hsize, Nat.mod_eq_of_lt (by omega : 4 * count.toNat < 2 ^ 64)] at hassert
    rw [Nat.mod_eq_of_lt hsum, last_eq hend hfits, apart_first_middle_iff hlt hassert,
      apart_middle_last_iff hbefore, apart_first_last_iff (by omega) hbefore, ← hdouble] at hapart
    exact ⟨hsum, hfirst, hbefore, hapart.1, hapart.2.1, hapart.2.2⟩
  · rintro ⟨hsum, hfirst, hbefore, hfirstMiddle, hmiddleLast, hfirstLast⟩
    have hlast := last_eq hend (by omega : 0x100 + 4 * count.toNat ≤ end_.toNat)
    rw [hsize, Nat.mod_eq_of_lt (by omega : 4 * count.toNat < 2 ^ 64)] at hassert
    rw [Nat.mod_eq_of_lt hsum, hlast, apart_first_middle_iff hlt hassert,
      apart_middle_last_iff hbefore, apart_first_last_iff (by omega) hbefore, ← hdouble]
    refine ⟨fun w => ?_, hfirstMiddle, hmiddleLast, hfirstLast⟩
    rcases (by omega : w = 0 ∨ w = 1 ∨ w = 2) with rfl | rfl | rfl
    · rw [hbase0]
      omega
    · rw [hbase1, Nat.mod_eq_of_lt hsum]
      omega
    · rw [hbase2, hlast]
      omega

/-- In a region above the first page with some bytes more than its windows need, everything
holds. -/
theorem roomy_of_large (hlow : 0x1000 ≤ start.toNat) (hsum : start.toNat + end_.toNat < 2 ^ 64)
    (hlarge : start.toNat + 0x200 + 16 * count.toNat + 1 ≤ end_.toNat) :
    Roomy start end_ count where
  sum_lt := hsum
  first := by omega
  last := by omega
  first_middle := by omega
  middle_last := Or.inr (by omega)
  first_last := Or.inr (by omega)

theorem windowsHold_page :
    WindowsHold 0x1000#64 0x2000#64 64#64 ![0x1000#64, 0x1800#64, 0x1E00#64] :=
  (windowsHold_iff (by decide) (by decide)).mpr
  (Or.inr (roomy_of_large (by decide) (by decide) (by decide)))

/-- **The slip**: in a region of 260 bytes the last window is the first one. Its word overwrites the
    first word, and the check of the first window fails. -/
theorem windows_overlap :
    (∀ w : Fin 3, genStartAddr w.val 0x1000#64 0x1104#64 1#64 =
      some (![0x1000#64, 0x1082#64, 0x1000#64] w)) ∧
      ¬ WindowsHold 0x1000#64 0x1104#64 1#64 ![0x1000#64, 0x1082#64, 0x1000#64] ∧
      (writeMemDataEx (fun _ => 0#8) 0x1000#64 0x1104#64 1#64 0#64).bind
        (fun m' => checkDataFrom m' 0x1000#64 1#64 0#64) = some false := by
  refine ⟨by decide, fun hhold => ?_, by decide +kernel⟩
  exact hhold.disjoint 0 2 (by decide) 0x1000#64 (by decide) (by decide)

end Placement

end AcrnGuest
