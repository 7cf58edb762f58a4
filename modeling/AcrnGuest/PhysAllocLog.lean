import AcrnGuest.PhysAlloc

/-!
# The log of the early allocator (`lib/alloc_phys.c`)

`phys_alloc_aligned_safe` and `phys_alloc_get_unused` write the log through one counter, but only
the first of them looks whether the table has an entry left. Over any run of `early_memalign` the
table holds the regions handed out, the first 256 of them, in their order. After 256 regions the
entry for the rest of the memory is written behind the table.
-/

namespace AcrnGuest

/-- The runs from `start` in which every call returns, with any alignments and sizes. -/
inductive EarlyCalls (start : PhysAlloc) : List EarlyCall → PhysAlloc → Prop where
  | nil : EarlyCalls start [] start
  | step {calls : List EarlyCall} {a a' : PhysAlloc} {alignment size result : Word}
      (previous : EarlyCalls start calls a)
      (exec : earlyMemalign a alignment size = some (result, a')) :
      EarlyCalls start (calls ++ [⟨alignment, size, a, result, a'⟩]) a'

def EarlyCall.entry (c : EarlyCall) : PhysAllocRegion := ⟨c.result, c.size⟩

/-- The table holds the regions handed out, as many as it has entries, in their order. -/
def HoldsFirst (calls : List EarlyCall) (regions : Vector PhysAllocRegion PHYS_ALLOC_NR_REGIONS) :
    Prop :=
  ∀ i, i < min PHYS_ALLOC_NR_REGIONS (handedOut calls).length →
    regions[i]? = (handedOut calls)[i]?.map EarlyCall.entry

structure Logged (calls : List EarlyCall) (a : PhysAlloc) : Prop where
  count : a.nrRegions = min PHYS_ALLOC_NR_REGIONS (handedOut calls).length
  entries : HoldsFirst calls a.regions

/-! ### One call -/

/-- A number without a bit in common with its predecessor is a power of two. -/
theorem exists_two_pow_of_and_sub_one {x : Word} (hne : x ≠ 0#64) (hand : x &&& (x - 1#64) = 0#64) :
    ∃ k, k < 64 ∧ x = BitVec.ofNat 64 (2 ^ k) := by
  have hpos : x.toNat ≠ 0 := fun hzero => hne (BitVec.eq_of_toNat_eq hzero)
  have hlow := Nat.log2_self_le hpos
  have hhigh : x.toNat < 2 ^ (x.toNat.log2 + 1) := Nat.lt_log2_self
  have hk : x.toNat.log2 < 64 := (Nat.log2_lt hpos).mpr x.isLt
  refine ⟨x.toNat.log2, hk, BitVec.eq_of_toNat_eq ?_⟩
  rw [toNat_two_pow hk]
  by_contra hmore
  -- the predecessor would have the highest bit as well
  have hpred : (x - 1#64).toNat = x.toNat - 1 := by bv_omega
  have hbit := congrArg (fun y : Word => y.toNat.testBit x.toNat.log2) hand
  rw [BitVec.toNat_and, hpred, Nat.testBit_and, Nat.testBit_log2 hpos,
    Nat.testBit_of_two_pow_le_and_two_pow_add_one_gt (by omega) (by omega)] at hbit
  exact absurd hbit (by simp)

/-- A call that returns has an alignment that the assertion lets pass. -/
theorem alignment_of_earlyMemalign {a a' : PhysAlloc} {alignment size result : Word}
    (hcall : earlyMemalign a alignment size = some (result, a')) :
    ∃ k, k < 64 ∧ alignment = BitVec.ofNat 64 (2 ^ k) := by
  rw [earlyMemalign] at hcall
  obtain ⟨hpass, -⟩ := Option.ite_none_left_eq_some.mp hcall
  obtain ⟨hne, hand⟩ := not_not.mp hpass
  exact exists_two_pow_of_and_sub_one hne hand

/-- What a call does: nothing, or it moves the base and logs its region if there is an entry for
it. -/
theorem earlyMemalign_cases {a a' : PhysAlloc} {alignment size result : Word}
    (hcall : earlyMemalign a alignment size = some (result, a')) :
    (EarlyCall.Failed ⟨alignment, size, a, result, a'⟩ ∧ a' = a) ∨
      (¬ EarlyCall.Failed ⟨alignment, size, a, result, a'⟩ ∧
        ∃ base, a' = (logRegion { a with base := base } ⟨result, size⟩).getD
          { a with base := base }) := by
  obtain ⟨k, hk, rfl⟩ := alignment_of_earlyMemalign hcall
  have hbelow := base_lt_top_of_earlyMemalign hcall
  rw [earlyMemalign_eq hk hbelow] at hcall
  rw [EarlyCall.Failed, failed_iff hk hbelow]
  dsimp only at hcall
  by_cases hroom : a.top - a.base < size + (ALIGN a.base (BitVec.ofNat 64 (2 ^ k)) - a.base)
  · rw [if_pos hroom] at hcall
    obtain ⟨-, rfl⟩ := Prod.mk.inj (Option.some.inj hcall)
    exact Or.inl ⟨hroom, rfl⟩
  · rw [if_neg hroom] at hcall
    obtain ⟨rfl, rfl⟩ := Prod.mk.inj (Option.some.inj hcall)
    exact Or.inr ⟨hroom, _, rfl⟩

/-! ### Whole runs -/

section Runs

variable {start a : PhysAlloc} {calls : List EarlyCall}

theorem Logged.failed (h : Logged calls a) {c : EarlyCall} (hfailed : c.Failed) :
    Logged (calls ++ [c]) a := by
  have hsame := (handedOut_append calls c).trans (if_pos hfailed)
  exact ⟨by rw [hsame]; exact h.count, by rw [HoldsFirst, hsame]; exact h.entries⟩

theorem Logged.granted (h : Logged calls a) {c : EarlyCall} (hgranted : ¬ c.Failed) {base : Word}
    (hafter : c.after = (logRegion { a with base := base } c.entry).getD { a with base := base }) :
    Logged (calls ++ [c]) c.after := by
  have hmore := (handedOut_append calls c).trans (if_neg hgranted)
  have hlength : (handedOut (calls ++ [c])).length = (handedOut calls).length + 1 := by
    rw [hmore, List.length_append]
    rfl
  have hold : ∀ i, i < (handedOut calls).length →
      (handedOut (calls ++ [c]))[i]?.map EarlyCall.entry =
        (handedOut calls)[i]?.map EarlyCall.entry := by
    intro i hi
    rw [hmore, List.getElem?_append_left hi]
  have hcount := h.count
  by_cases hroom : a.nrRegions < PHYS_ALLOC_NR_REGIONS
  · have hlast : a.nrRegions = (handedOut calls).length := by omega
    rw [logRegion, dif_pos hroom] at hafter
    rw [hafter]
    refine ⟨?_, fun i hi => ?_⟩
    · show a.nrRegions + 1 = _
      rw [hlength]
      omega
    · show (a.regions.set a.nrRegions c.entry hroom)[i]? = _
      rw [Vector.getElem?_set]
      split
      · next heq =>
          rw [← heq, hlast, hmore, List.getElem?_append_right (Nat.le_refl _), Nat.sub_self]
          rfl
      · next hne =>
          rw [hlength] at hi
          rw [hold i (by omega), h.entries i (by omega)]
  · rw [logRegion, dif_neg hroom] at hafter
    rw [hafter]
    refine ⟨?_, fun i hi => ?_⟩
    · show a.nrRegions = _
      rw [hlength]
      omega
    · show a.regions[i]? = _
      rw [hold i (by omega), h.entries i (by omega)]

theorem EarlyCalls.logged {a₀ : PhysAlloc} {base size : Word}
    (h : EarlyCalls (physAllocInit a₀ base size) calls a) : Logged calls a := by
  induction h with
  | nil => exact ⟨rfl, fun i hi => absurd hi (by simp [handedOut])⟩
  | step _ hexec ih =>
      rcases earlyMemalign_cases hexec with ⟨hfailed, rfl⟩ | ⟨hgranted, base', hafter⟩
      · exact ih.failed hfailed
      · exact ih.granted hgranted hafter

/-- The entry for the rest of the memory stands behind those of the regions. -/
theorem Logged.getUnused (h : Logged calls a) {rest : Word × Word} {a' : PhysAlloc}
    (hcall : physAllocGetUnused a = some (rest, a')) : HoldsFirst calls a'.regions := by
  rw [physAllocGetUnused] at hcall
  split at hcall
  · obtain ⟨-, rfl⟩ := Prod.mk.inj (Option.some.inj hcall)
    exact h.entries
  · obtain ⟨logged, hlogged, heq⟩ := Option.map_eq_some_iff.mp hcall
    obtain ⟨-, rfl⟩ := Prod.mk.inj heq
    unfold logRegion at hlogged
    split at hlogged
    · next hslot =>
        obtain rfl := Option.some.inj hlogged
        intro i hi
        show (a.regions.set a.nrRegions ⟨a.base, a.top - a.base⟩ hslot)[i]? = _
        rw [Vector.getElem?_set_ne _ (by rw [h.count]; omega), h.entries i hi]
    · cases hlogged

/-- **The log**: no entry is written behind the table and the first regions handed out stand in it,
exactly if there were less than 256 of them or nothing is left for `phys_alloc_get_unused`. -/
theorem early_log_iff {a₀ : PhysAlloc} {base size : Word}
    (hrun : EarlyCalls (physAllocInit a₀ base size) calls a) :
    (∃ rest a', physAllocGetUnused a = some (rest, a') ∧ HoldsFirst calls a'.regions) ↔
      (handedOut calls).length < PHYS_ALLOC_NR_REGIONS ∨ a.base = a.top := by
  have hlogged := hrun.logged
  have hcount := hlogged.count
  constructor
  · rintro ⟨rest, a', hcall, -⟩
    by_contra hfull
    obtain ⟨hfull, hne⟩ := not_or.mp hfull
    rw [physAllocGetUnused_eq_none (by omega) hne] at hcall
    cases hcall
  · intro hroom
    obtain ⟨a', hcall, -⟩ := physAllocGetUnused_spec (a := a) (hroom.imp_left fun hlt => by omega)
    exact ⟨_, a', hcall, hlogged.getUnused hcall⟩

theorem EarlyRun.earlyCalls (h : EarlyRun start calls a) : EarlyCalls start calls a := by
  induction h with
  | nil => exact .nil
  | step _ _ _ hexec ih => exact ih.step hexec

theorem exists_earlyCalls_32 {n : Nat} (hn : n ≤ 256) :
    ∃ calls a, EarlyCalls bootRegion calls a ∧ (handedOut calls).length = n ∧
      a.base = BitVec.ofNat 64 (0x1000 + 32 * n) ∧ a.top = 0x11000#64 := by
  obtain ⟨calls, a, hrun, hlength, hbase, htop, hcount⟩ := exists_earlyRun_32 hn
  have hsize : PHYS_ALLOC_NR_REGIONS = 256 := rfl
  have hlogged := hrun.earlyCalls.logged.count
  have hle : (handedOut calls).length ≤ calls.length := List.length_filter_le _ _
  exact ⟨calls, a, hrun.earlyCalls, by omega, hbase, htop⟩

/-- Two requests and the rest of the memory are logged. -/
theorem early_log_after_two :
    ∃ calls a, EarlyCalls bootRegion calls a ∧ (handedOut calls).length = 2 ∧
      ∃ rest a', physAllocGetUnused a = some (rest, a') ∧ HoldsFirst calls a'.regions := by
  obtain ⟨calls, a, hrun, htwo, -, -⟩ := exists_earlyCalls_32 (n := 2) (by decide)
  have hroom : (handedOut calls).length < PHYS_ALLOC_NR_REGIONS := by
    rw [htwo]
    decide
  exact ⟨calls, a, hrun, htwo, (early_log_iff hrun).mpr (Or.inl hroom)⟩

/-- After 256 requests of 32 bytes the entry for the rest is written behind the table. -/
theorem early_log_after_256 :
    ∃ calls a, EarlyCalls bootRegion calls a ∧ (handedOut calls).length = 256 ∧ a.base ≠ a.top ∧
      a.nrRegions = PHYS_ALLOC_NR_REGIONS ∧ physAllocGetUnused a = none := by
  obtain ⟨calls, a, hrun, hall, hbase, htop⟩ := exists_earlyCalls_32 (Nat.le_refl 256)
  have hne : a.base ≠ a.top := by
    rw [hbase, htop]
    decide
  have hcount : a.nrRegions = PHYS_ALLOC_NR_REGIONS := by
    rw [hrun.logged.count, hall]
    rfl
  refine ⟨calls, a, hrun, hall, hne, hcount, physAllocGetUnused_eq_none ?_ hne⟩
  rw [hcount]
  exact Nat.lt_irrefl _

end Runs

end AcrnGuest
