import AcrnGuest.SmpRecords

/-!
# An id that no processor has (`x86/hypercall.c`)

`get_invalid_lapicid` goes through `lapicid_map` with a guess that grows by one at each entry
that is not above it, and returns the guess at the first entry that is above it. This entry
and the ones before it are not the guess. The ones behind it may be: the map has the ids in
the order in which the processors came up, and the search takes it for ascending.
-/

namespace AcrnGuest

/-! ### The source -/

/-- The loop of `get_invalid_lapicid`, with `left` entries to go from index `i` on. -/
def getInvalidLapicidLoop (size : Nat) (lapicidMap : Nat → BitVec 8) :
    Nat → Nat → BitVec 8 → BitVec 8
  | 0, _, id => id
  | left + 1, i, id =>
      if getLapicidMap size lapicidMap (BitVec.ofNat 8 i) ≤ id then
        getInvalidLapicidLoop size lapicidMap left (i + 1) (id + 1#8)
      else id

/-- `get_invalid_lapicid` on a system with `size` cores. -/
def getInvalidLapicid (size : Nat) (lapicidMap : Nat → BitVec 8) : BitVec 8 :=
  let id := if getLapicidMap size lapicidMap 0#8 = 0#8 then 0#8 else 1#8
  getInvalidLapicidLoop size lapicidMap size 0 id

/-! ### Where the search stops -/

def firstGuess (lapicidMap : Nat → BitVec 8) : Nat := if lapicidMap 0 = 0#8 then 0 else 1

/-- Entry `j` is the first one above the guess. -/
structure FirstAbove (lapicidMap : Nat → BitVec 8) (j : Nat) : Prop where
  before : ∀ i, i < j → (lapicidMap i).toNat ≤ firstGuess lapicidMap + i
  above : firstGuess lapicidMap + j < (lapicidMap j).toNat

section Search

variable {size : Nat} {lapicidMap : Nat → BitVec 8}

theorem getLapicidMap_ofNat (hsize : size < 256) {i : Nat} (hi : i < size) :
    getLapicidMap size lapicidMap (BitVec.ofNat 8 i) = lapicidMap i := by
  have htoNat : (BitVec.ofNat 8 i).toNat = i := by
    rw [BitVec.toNat_ofNat]
    omega
  simp [getLapicidMap, htoNat, hi]

/-- The loop returns the guess at the first entry above it, or behind the last entry. -/
theorem getInvalidLapicidLoop_eq (hsize : size < 255) {left i : Nat} {id : BitVec 8}
    (hleft : i + left = size) (hid : id.toNat = firstGuess lapicidMap + i)
    (hbefore : ∀ k, k < i → (lapicidMap k).toNat ≤ firstGuess lapicidMap + k) :
    ∃ j, j ≤ size ∧ (getInvalidLapicidLoop size lapicidMap left i id).toNat =
      firstGuess lapicidMap + j ∧
      (∀ k, k < j → (lapicidMap k).toNat ≤ firstGuess lapicidMap + k) ∧
      (j < size → firstGuess lapicidMap + j < (lapicidMap j).toNat) := by
  induction left generalizing i id with
  | zero => exact ⟨i, by omega, hid, hbefore, fun hlt => absurd hlt (by omega)⟩
  | succ left ih =>
      have hentry : getLapicidMap size lapicidMap (BitVec.ofNat 8 i) = lapicidMap i :=
        getLapicidMap_ofNat (by omega) (by omega)
      have hguess : firstGuess lapicidMap ≤ 1 := by
        unfold firstGuess
        split <;> omega
      rw [getInvalidLapicidLoop, hentry]
      by_cases hle : lapicidMap i ≤ id
      · rw [if_pos hle]
        rw [BitVec.le_def] at hle
        apply ih
        · omega
        · -- fewer than 255 entries, so the guess stays a byte
          rw [BitVec.toNat_add, hid, show (1#8).toNat = 1 from rfl]
          omega
        · intro k hk
          rcases Nat.lt_succ_iff_lt_or_eq.mp hk with hlt | rfl
          · exact hbefore k hlt
          · omega
      · rw [if_neg hle]
        rw [BitVec.le_def] at hle
        exact ⟨i, by omega, hid, hbefore, fun _ => by omega⟩

/-- The search returns an id that is not in the map unless it stops before an entry that is the
guess. -/
theorem getInvalidLapicid_notMem_iff (hpos : 0 < size) (hsize : size < 255) :
    (∀ i, i < size → getInvalidLapicid size lapicidMap ≠ lapicidMap i) ↔
      ∀ j, FirstAbove lapicidMap j → ∀ i, j < i → i < size →
        (lapicidMap i).toNat ≠ firstGuess lapicidMap + j := by
  have hstart : getInvalidLapicid size lapicidMap =
      getInvalidLapicidLoop size lapicidMap size 0 (BitVec.ofNat 8 (firstGuess lapicidMap)) := by
    have hzero : getLapicidMap size lapicidMap 0#8 = lapicidMap 0 :=
      getLapicidMap_ofNat (by omega) hpos
    unfold getInvalidLapicid firstGuess
    rw [hzero]
    split <;> rfl
  have hguess : (BitVec.ofNat 8 (firstGuess lapicidMap)).toNat = firstGuess lapicidMap + 0 := by
    unfold firstGuess
    split <;> rfl
  obtain ⟨j, hj, hresult, hbefore, habove⟩ :=
    getInvalidLapicidLoop_eq hsize (Nat.zero_add size) hguess fun k hk =>
      absurd hk (Nat.not_lt_zero k)
  rw [← hstart] at hresult
  constructor
  · intro habsent j' hj' i hi hisize heq
    -- the first entry above the guess is where the search stopped
    have hsame : j' = j := by
      rcases Nat.lt_trichotomy j' j with hlt | heq' | hgt
      · have := hbefore j' hlt
        have := hj'.above
        omega
      · exact heq'
      · have := hj'.before j hgt
        have := habove (by omega)
        omega
    apply habsent i hisize
    apply BitVec.eq_of_toNat_eq
    rw [hresult, heq, hsame]
  · intro hclear i hi heq
    have heq' : (lapicidMap i).toNat = firstGuess lapicidMap + j := by rw [← heq, hresult]
    rcases Nat.lt_trichotomy i j with hlt | rfl | hgt
    · have := hbefore i hlt
      omega
    · have := habove hi
      omega
    · exact hclear j ⟨hbefore, habove (by omega)⟩ i hgt hi heq'

/-- In ascending order no later entry is the guess. -/
theorem getInvalidLapicid_notMem_of_ascending (hpos : 0 < size) (hsize : size < 255)
    (hascending : ∀ i j, i < j → j < size → (lapicidMap i).toNat < (lapicidMap j).toNat) :
    ∀ i, i < size → getInvalidLapicid size lapicidMap ≠ lapicidMap i := by
  apply (getInvalidLapicid_notMem_iff hpos hsize).mpr
  intro j hj i hji hi heq
  have := hascending j i hji hi
  have := hj.above
  omega

end Search

/-! ### After the processors have come up -/

section Boot

variable {m : Nat}

def Cpus.Present (cpus : Cpus m) (lapicId : BitVec 8) : Prop :=
  lapicId = cpus.bspId ∨ ∃ k, lapicId = cpus.apId k

theorem MapComplete.present_iff {cpus : Cpus m} {lapicidMap : Nat → BitVec 8}
    (h : MapComplete cpus lapicidMap) (lapicId : BitVec 8) : cpus.Present lapicId ↔
      ∃ i, i < m + 1 ∧ lapicidMap i = lapicId := by
  constructor
  · intro hpresent
    obtain ⟨i, hi, -, hentry, -⟩ := h.getCpuId hpresent
    exact ⟨i, hi, hentry⟩
  · rintro ⟨i, hi, rfl⟩
    rcases Nat.eq_zero_or_pos i with rfl | hpos
    · exact Or.inl h.1
    · exact Or.inr (h.entry hpos hi)

theorem MapComplete.entry_injective {cpus : Cpus m} {lapicidMap : Nat → BitVec 8}
    (h : MapComplete cpus lapicidMap) {i j : Nat} (hi : i < m + 1) (hj : j < m + 1)
    (heq : lapicidMap i = lapicidMap j) : i = j := by
  obtain ⟨k, -, -, -, hunique⟩ := h.getCpuId ((h.present_iff _).mpr ⟨j, hj, rfl⟩)
  exact (hunique i hi heq).trans (hunique j hj rfl).symm

/-- The orders of the processors that the search can cope with. -/
structure Cpus.RecordedInOrder (cpus : Cpus m) (lapicidMap : Nat → BitVec 8) : Prop where
  /-- Up to the smallest id that is missing the processors are recorded by id. -/
  boot_zero : cpus.bspId = 0#8 → ∀ n, n < m + 1 →
    (∀ id, id ≤ n → cpus.Present (BitVec.ofNat 8 id)) → (lapicidMap n).toNat = n
  /-- The processor 0 comes later, so one id at a time may be overdue. If the one that is due
      is there and none was recorded more than a place early so far, the next one is not either. -/
  boot_one : cpus.bspId = 1#8 → ∀ n, n < m + 1 → cpus.Present (BitVec.ofNat 8 (n + 1)) →
    (∀ i, i < n → (lapicidMap i).toNat ≤ i + 1) → (lapicidMap n).toNat ≤ n + 1
  boot_above : 1#8 < cpus.bspId → ¬ cpus.Present 1#8

section Orders

variable {cpus : Cpus m} {lapicidMap : Nat → BitVec 8}

/-- What the search needs: no entry behind the first one above the guess is the guess. -/
def GuessPassed (m : Nat) (lapicidMap : Nat → BitVec 8) : Prop :=
  ∀ j, FirstAbove lapicidMap j → ∀ i, j < i → i < m + 1 →
    (lapicidMap i).toNat ≠ firstGuess lapicidMap + j

theorem toNat_ofNat_of_lt {n : Nat} (h : n < 256) : (BitVec.ofNat 8 n).toNat = n := by
  rw [BitVec.toNat_ofNat]
  omega

theorem MapComplete.present_ofNat_iff (h : MapComplete cpus lapicidMap) {n : Nat} (hn : n < 256) :
    cpus.Present (BitVec.ofNat 8 n) ↔ ∃ i, i < m + 1 ∧ (lapicidMap i).toNat = n := by
  rw [h.present_iff]
  refine exists_congr fun i => and_congr_right fun _ => ?_
  rw [← BitVec.toNat_inj, toNat_ofNat_of_lt hn]

/-- Entries that are at most their index are their index. -/
theorem MapComplete.toNat_eq_of_le (h : MapComplete cpus lapicidMap) {n : Nat} (hn : n ≤ m + 1)
    (hle : ∀ i, i < n → (lapicidMap i).toNat ≤ i) {i : Nat} (hi : i < n) :
    (lapicidMap i).toNat = i := by
  induction i using Nat.strongRecOn with
  | ind i ih =>
      refine Nat.le_antisymm (hle i hi) (Nat.le_of_not_lt fun hlt => ?_)
      have hsame := h.entry_injective (by omega) (by omega)
        (BitVec.eq_of_toNat_eq (ih (lapicidMap i).toNat hlt (by omega)))
      omega

theorem MapComplete.guessPassed_zero_iff (h : MapComplete cpus lapicidMap)
    (hboot : cpus.bspId = 0#8) (hcount : m + 1 < 255) :
    GuessPassed m lapicidMap ↔ ∀ n, n < m + 1 →
      (∀ id, id ≤ n → cpus.Present (BitVec.ofNat 8 id)) → (lapicidMap n).toNat = n := by
  have hguess : firstGuess lapicidMap = 0 := if_pos (h.1.trans hboot)
  constructor
  · intro hpassed n
    -- with the smaller ids in their places, the search stops at index `n` unless it has the id `n`
    induction n using Nat.strongRecOn with
    | ind n ih =>
        intro hn hpresent
        have hplaces : ∀ i, i < n → (lapicidMap i).toNat = i := fun i hi =>
          ih i hi (by omega) fun id hid => hpresent id (by omega)
        obtain ⟨k, hk, hentry⟩ := (h.present_ofNat_iff (by omega)).mp (hpresent n le_rfl)
        by_contra hne
        have hkn : n < k := by
          refine Nat.lt_of_not_le fun hle => ?_
          rcases Nat.lt_or_eq_of_le hle with hlt | rfl
          · have := hplaces k hlt
            omega
          · exact hne hentry
        have habove : n < (lapicidMap n).toNat := by
          refine Nat.lt_of_le_of_ne (Nat.le_of_not_lt fun hlt => ?_) (Ne.symm hne)
          have hsame := h.entry_injective (by omega) hn
            (BitVec.eq_of_toNat_eq (hplaces (lapicidMap n).toNat hlt))
          omega
        refine hpassed n ⟨fun i hi => ?_, by omega⟩ k hkn hk (by omega)
        have := hplaces i hi
        omega
  · intro hplaces j hj i hji hi heq
    have hbefore : ∀ k, k < j → (lapicidMap k).toNat = k := fun k hk =>
      h.toNat_eq_of_le (by omega)
        (fun k hk => Nat.le_trans (hj.before k hk) (by omega)) hk
    have hplace := hplaces j (by omega) fun id hid => by
      rw [h.present_ofNat_iff (by omega)]
      rcases Nat.lt_or_eq_of_le hid with hlt | rfl
      · exact ⟨id, by omega, hbefore id hlt⟩
      · exact ⟨i, hi, by omega⟩
    have := hj.above
    omega

theorem MapComplete.guessPassed_one_iff (h : MapComplete cpus lapicidMap)
    (hboot : cpus.bspId = 1#8) (hcount : m + 1 < 255) :
    GuessPassed m lapicidMap ↔ ∀ n, n < m + 1 → cpus.Present (BitVec.ofNat 8 (n + 1)) →
      (∀ i, i < n → (lapicidMap i).toNat ≤ i + 1) → (lapicidMap n).toNat ≤ n + 1 := by
  have hguess : firstGuess lapicidMap = 1 := if_neg (by rw [h.1, hboot]; decide)
  constructor
  · intro hpassed n hn hpresent hbefore
    obtain ⟨k, hk, hentry⟩ := (h.present_ofNat_iff (by omega)).mp hpresent
    by_contra hlt
    have hkn : n < k := by
      refine Nat.lt_of_not_le fun hle => ?_
      rcases Nat.lt_or_eq_of_le hle with hlt' | rfl
      · have := hbefore k hlt'
        omega
      · omega
    refine hpassed n ⟨fun i hi => ?_, by omega⟩ k hkn hk (by omega)
    have := hbefore i hi
    omega
  · intro hnext j hj i hji hi heq
    have hpresent := (h.present_ofNat_iff (by omega)).mpr ⟨i, hi, heq.trans (by omega : _ = j + 1)⟩
    have hle := hnext j (by omega) hpresent fun k hk => Nat.le_trans (hj.before k hk) (by omega)
    have := hj.above
    omega

/-- The search stops at the boot processor. -/
theorem MapComplete.guessPassed_above_iff (h : MapComplete cpus lapicidMap)
    (hboot : 1#8 < cpus.bspId) : GuessPassed m lapicidMap ↔ ¬ cpus.Present 1#8 := by
  have hfirst : 1 < (lapicidMap 0).toNat := by
    rw [h.1]
    exact BitVec.lt_def.mp hboot
  have hguess : firstGuess lapicidMap = 1 := by
    refine if_neg fun hzero => ?_
    rw [hzero] at hfirst
    exact absurd hfirst (by decide)
  rw [show (1#8 : BitVec 8) = BitVec.ofNat 8 1 from rfl, h.present_ofNat_iff (by decide)]
  constructor
  · rintro hpassed ⟨i, hi, hentry⟩
    have hpos : 0 < i := by
      refine Nat.pos_of_ne_zero fun hzero => ?_
      rw [hzero] at hentry
      omega
    exact hpassed 0 ⟨fun k hk => absurd hk (Nat.not_lt_zero k), by omega⟩ i hpos hi (by omega)
  · intro habsent j hj i hji hi heq
    have hj0 : j = 0 := by
      by_contra hpos
      have := hj.before 0 (by omega)
      omega
    exact habsent ⟨i, hi, by omega⟩

theorem MapComplete.guessPassed_iff (h : MapComplete cpus lapicidMap) (hcount : m + 1 < 255) :
    GuessPassed m lapicidMap ↔ cpus.RecordedInOrder lapicidMap := by
  have hkinds : cpus.bspId = 0#8 ∨ cpus.bspId = 1#8 ∨ 1#8 < cpus.bspId := by
    rw [BitVec.lt_def, ← BitVec.toNat_inj, ← BitVec.toNat_inj]
    change _ = 0 ∨ _ = 1 ∨ 1 < _
    omega
  constructor
  · intro hpassed
    exact ⟨fun hboot => (h.guessPassed_zero_iff hboot hcount).mp hpassed,
      fun hboot => (h.guessPassed_one_iff hboot hcount).mp hpassed,
      fun hboot => (h.guessPassed_above_iff hboot).mp hpassed⟩
  · intro horder
    rcases hkinds with hboot | hboot | hboot
    · exact (h.guessPassed_zero_iff hboot hcount).mpr (horder.boot_zero hboot)
    · exact (h.guessPassed_one_iff hboot hcount).mpr (horder.boot_one hboot)
    · exact (h.guessPassed_above_iff hboot).mpr (horder.boot_above hboot)

end Orders

end Boot

end AcrnGuest
