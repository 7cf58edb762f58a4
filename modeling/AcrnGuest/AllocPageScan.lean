import AcrnGuest.AllocPage

/-!
# Which runs `alloc_pages` finds

A request for `2 ^ order` pages is met by cutting a naturally aligned run of
consecutive pages out of the freelist. The traversal gives up a run at the node that
breaks it and does not try that node as the start of the next run. `Passed`
describes what it leaves behind, so a run is found exactly if some aligned run of
the list stands behind a passed front.
-/

namespace AcrnGuest

/-! ### Runs in a list -/

theorem getElem?_pageRange_append {p : Word} {n i : Nat} (hi : i < n) (rest : List Word) :
    (pageRange p n ++ rest)[i]? = some (p + BitVec.ofNat 64 (4096 * i)) := by
  induction n generalizing p i with
  | zero => omega
  | succ n ih =>
      cases i with
      | zero => simp [pageRange]
      | succ i =>
          have hshift : p + PAGE_SIZE + BitVec.ofNat 64 (4096 * i) =
              p + BitVec.ofNat 64 (4096 * (i + 1)) := by
            rw [PAGE_SIZE_eq]
            bv_omega
          rw [pageRange, List.cons_append, List.getElem?_cons_succ, ih (by omega), hshift]

theorem getElem?_pageRange_append_cons (p q : Word) (k : Nat) (rest : List Word) :
    (pageRange p k ++ q :: rest)[k]? = some q := by
  rw [List.getElem?_append_right (by rw [length_pageRange]), length_pageRange, Nat.sub_self]
  rfl

section Exhausted

variable {n : Nat} {alignMask p : Word} {pages : List Word}

theorem Exhausted.of_unaligned (h : Exhausted n alignMask (p :: pages))
    (hp : p &&& alignMask ≠ 0#64) : Exhausted n alignMask pages := by
  obtain ⟨front, start, k, hsplit, hk, haligned, hpassed⟩ := h
  cases hpassed with
  | nil =>
      cases k with
      | zero => simp [pageRange] at hsplit
      | succ k =>
          obtain ⟨rfl, -⟩ := List.cons.inj hsplit
          exact (hp (haligned (by omega))).elim
  | @skip first front _ hrest =>
      obtain ⟨-, htail⟩ := List.cons.inj hsplit
      exact ⟨front, start, k, htail, hk, haligned, hrest⟩
  | @broken first q j front hfirst hpos =>
      obtain ⟨j, rfl⟩ := Nat.exists_eq_succ_of_ne_zero hpos
      obtain ⟨rfl, -⟩ := List.cons.inj hsplit
      exact (hp hfirst).elim

/-- An aligned page at the front starts a run, which either lasts to the end of the list or is
    broken off by a node behind which the traversal starts again. -/
theorem Exhausted.of_aligned (h : Exhausted n alignMask (p :: pages))
    (hp : p &&& alignMask = 0#64) :
    (∃ k < n, p :: pages = pageRange p k) ∨
      ∃ j q rest, j ≠ 0 ∧ j < n ∧ q ≠ p + BitVec.ofNat 64 (4096 * j) ∧
        p :: pages = pageRange p j ++ q :: rest ∧ Exhausted n alignMask rest := by
  obtain ⟨front, start, k, hsplit, hk, haligned, hpassed⟩ := h
  cases hpassed with
  | nil =>
      cases k with
      | zero => simp [pageRange] at hsplit
      | succ k =>
          obtain ⟨rfl, -⟩ := List.cons.inj hsplit
          exact Or.inl ⟨k + 1, hk, hsplit⟩
  | skip hunaligned =>
      obtain ⟨rfl, -⟩ := List.cons.inj hsplit
      exact (hunaligned hp).elim
  | @broken first q j front _ hpos hshort hbreaks hrest =>
      have hfirst : first = p := by
        obtain ⟨j, rfl⟩ := Nat.exists_eq_succ_of_ne_zero hpos
        exact (List.cons.inj hsplit).1.symm
      subst hfirst
      rw [List.append_assoc, List.cons_append] at hsplit
      exact Or.inr ⟨j, q, front ++ pageRange start k, hpos, hshort, hbreaks, hsplit,
        front, start, k, rfl, hk, haligned, hrest⟩

/-- A whole run at the front would have been taken. -/
theorem not_exhausted_pageRange (hn : n ≠ 0) (hp : p &&& alignMask = 0#64) (rest : List Word) :
    ¬ Exhausted n alignMask (pageRange p n ++ rest) := by
  intro h
  obtain ⟨m, rfl⟩ := Nat.exists_eq_succ_of_ne_zero hn
  rcases Exhausted.of_aligned h hp with ⟨k, hk, hall⟩ | ⟨j, q, back, -, hj, hq, hall, -⟩
  · have hlength : (pageRange p (m + 1) ++ rest).length = (pageRange p k).length :=
      congrArg List.length hall
    rw [List.length_append, length_pageRange, length_pageRange] at hlength
    omega
  · -- the breaking node stands where the run has a page of its own
    have hget := congrArg (·[j]?) hall
    have hown := getElem?_pageRange_append (p := p) hj rest
    simp only [getElem?_pageRange_append_cons] at hget
    exact hq (Option.some.inj (hget.symm.trans hown))

theorem Exhausted.of_broken {q : Word} {k : Nat} (hk : k ≠ 0) (hp : p &&& alignMask = 0#64)
    (hq : q ≠ p + BitVec.ofNat 64 (4096 * k))
    (h : Exhausted n alignMask (pageRange p k ++ q :: pages)) : Exhausted n alignMask pages := by
  have hget : (pageRange p k ++ q :: pages)[k]? = some q :=
    getElem?_pageRange_append_cons p q k pages
  have hlist : pageRange p k ++ q :: pages =
      p :: (pageRange (p + PAGE_SIZE) (k - 1) ++ q :: pages) := by
    obtain ⟨k, rfl⟩ := Nat.exists_eq_succ_of_ne_zero hk
    rfl
  rw [hlist] at h
  rcases h.of_aligned hp with ⟨m, -, hall⟩ | ⟨j, q', back, -, -, hq', hall, hback⟩
  · have hlength := congrArg List.length (hlist.trans hall)
    simp only [List.length_cons, List.length_append, length_pageRange] at hlength
    rw [hlist, hall] at hget
    have hown := getElem?_pageRange_append (p := p) (n := m) (i := k) (by omega) []
    rw [List.append_nil] at hown
    exact (hq (Option.some.inj (hget.symm.trans hown))).elim
  · rw [← hlist] at hall
    have hget' : (pageRange p j ++ q' :: back)[j]? = some q' :=
      getElem?_pageRange_append_cons p q' j back
    rcases Nat.lt_trichotomy j k with hjk | rfl | hkj
    · rw [← hall, getElem?_pageRange_append hjk] at hget'
      exact (hq' (Option.some.inj hget').symm).elim
    · obtain ⟨-, hrest⟩ := List.cons.inj (List.append_cancel_left hall)
      rwa [hrest]
    · rw [hall, getElem?_pageRange_append hkj] at hget
      exact (hq (Option.some.inj hget).symm).elim

/-- The traversal does not pass an aligned run that stands behind a passed front. -/
theorem Passed.not_exhausted {front : List Word} (hfront : Passed n alignMask front) (hn : n ≠ 0)
    (hp : p &&& alignMask = 0#64) (rest : List Word) :
    ¬ Exhausted n alignMask (front ++ (pageRange p n ++ rest)) := by
  induction hfront with
  | nil => exact not_exhausted_pageRange hn hp rest
  | skip hunaligned _ ih => exact fun h => ih (Exhausted.of_unaligned h hunaligned)
  | broken haligned hpos _ hbreaks _ ih =>
      intro h
      rw [List.append_assoc, List.cons_append] at h
      exact ih (Exhausted.of_broken hpos haligned hbreaks h)

end Exhausted

/-! ### The results of `alloc_pages` -/

/-- A naturally aligned run of `n` consecutive pages stands in the list behind `front`. -/
def RunBehind (n : Nat) (front pages : List Word) : Prop :=
  ∃ p rest, p.toNat % (n * 4096) = 0 ∧ pages = front ++ pageRange p n ++ rest

/-- Both the address of an aligned run and the end of the address space are multiples of its
size. -/
theorem aligned_run_fits {p : Word} {order : Nat} (horder : order < 52)
    (haligned : p.toNat % (2 ^ order * 4096) = 0) : p.toNat + 2 ^ order * 4096 ≤ 2 ^ 64 := by
  have hdvd : 2 ^ order * 4096 ∣ 2 ^ 64 := by
    have hsize : 2 ^ order * 4096 = 2 ^ (order + 12) := by rw [Nat.pow_add]
    rw [hsize]
    exact Nat.pow_dvd_pow 2 (by omega)
  obtain ⟨a, ha⟩ := Nat.dvd_of_mod_eq_zero haligned
  obtain ⟨b, hb⟩ := hdvd
  have hab : a < b := by
    have hlt := p.isLt
    rw [ha, hb] at hlt
    exact Nat.lt_of_mul_lt_mul_left hlt
  calc p.toNat + 2 ^ order * 4096
      = 2 ^ order * 4096 * (a + 1) := by rw [ha, Nat.mul_add_one (2 ^ order * 4096)]
    _ ≤ 2 ^ order * 4096 * b := Nat.mul_le_mul_left _ hab
    _ = 2 ^ 64 := hb.symm

section AllocPages

variable {s : Machine} {pages : List Word} {order : Word}

/-- **Runs are cut out whole.** The pages that `alloc_pages` returns are consecutive, aligned to
    their total size and stood one behind the other in the freelist. The rest of the freelist
    keeps its order. -/
theorem allocPages_cuts_out_run (h : FreeList s pages) (horder : order.toNat < 52) :
    ∃ result s', allocPages s order = some (result, s') ∧
      (result = 0#64 → s' = s) ∧
      (result ≠ 0#64 →
        result.toNat % (2 ^ order.toNat * 4096) = 0 ∧
        result.toNat + 2 ^ order.toNat * 4096 ≤ 2 ^ 64 ∧
        ∃ before after, pages = before ++ pageRange result (2 ^ order.toNat) ++ after ∧
          FreeList s' (before ++ after)) := by
  obtain ⟨result, s', hrun, hresult⟩ := allocPages_spec h (by omega : order.toNat < 64)
  refine ⟨result, s', hrun, ?_, ?_⟩
  · intro hnull
    rcases hresult with ⟨-, hsame⟩ | ⟨-, -, before, after, hsplit, -⟩
    · exact hsame
    · obtain ⟨k, hk⟩ := Nat.exists_eq_succ_of_ne_zero (Nat.two_pow_pos order.toNat).ne'
      rw [hk] at hsplit
      exact (h.zero_notMem (by simp [hsplit, pageRange, hnull])).elim
  · intro hne
    rcases hresult with ⟨hnull, -⟩ | ⟨-, haligned, before, after, hsplit, hlist, -⟩
    · exact (hne hnull).elim
    · exact ⟨haligned, aligned_run_fits horder haligned, before, after, hsplit, hlist⟩

/-- A freelist of three pages, made by three calls of `free_page`. -/
def threePages : Machine :=
  freePage (freePage (freePage ⟨fun _ => 0#64, 0#64⟩ 0x5000#64) 0x4000#64) 0x2000#64

theorem freeList_threePages : FreeList threePages [0x2000#64, 0x4000#64, 0x5000#64] := by
  have hnil : FreeList ⟨fun _ => 0#64, 0#64⟩ [] := ⟨rfl, List.nodup_nil, by simp⟩
  have hone := freePage_spec (p := 0x5000#64) hnil (by decide) (by decide) (by decide)
  have htwo := freePage_spec (p := 0x4000#64) hone (by decide) (by decide) (by decide)
  exact freePage_spec (p := 0x2000#64) htwo (by decide) (by decide) (by decide)

/-- A run of two pages behind a page that is not aligned for it. -/
def runBehindOddPage : Machine :=
  freePage (freePage (freePage (freePage ⟨fun _ => 0#64, 0#64⟩ 0x8000#64) 0x5000#64) 0x4000#64)
    0x3000#64

theorem freeList_runBehindOddPage :
    FreeList runBehindOddPage [0x3000#64, 0x4000#64, 0x5000#64, 0x8000#64] := by
  have hnil : FreeList ⟨fun _ => 0#64, 0#64⟩ [] := ⟨rfl, List.nodup_nil, by simp⟩
  have hone := freePage_spec (p := 0x8000#64) hnil (by decide) (by decide) (by decide)
  have htwo := freePage_spec (p := 0x5000#64) hone (by decide) (by decide) (by decide)
  have hthree := freePage_spec (p := 0x4000#64) htwo (by decide) (by decide) (by decide)
  exact freePage_spec (p := 0x3000#64) hthree (by decide) (by decide) (by decide)

theorem allocPages_cuts_out_two_pages :
    ∃ s', allocPages runBehindOddPage 1#64 = some (0x4000#64, s') ∧
      FreeList s' [0x3000#64, 0x8000#64] := by
  obtain ⟨result, s', hrun, -, hcut⟩ :=
    allocPages_cuts_out_run freeList_runBehindOddPage (by decide : (1#64).toNat < 52)
  have hresult : (allocPages runBehindOddPage 1#64).map Prod.fst = some 0x4000#64 := by rfl
  rw [hrun] at hresult
  obtain rfl : result = 0x4000#64 := Option.some.inj hresult
  obtain ⟨-, -, before, after, hsplit, hlist⟩ := hcut (by decide)
  -- the list has the page `0x4000` once, so there is one way to split it
  rcases before with _ | ⟨first, _ | ⟨second, before⟩⟩
  · exact absurd (List.cons.inj hsplit).1 (by decide)
  · obtain ⟨rfl, htail⟩ := List.cons.inj hsplit
    obtain ⟨-, htail⟩ := List.cons.inj htail
    obtain ⟨-, rfl⟩ := List.cons.inj htail
    exact ⟨s', hrun, hlist⟩
  · obtain ⟨-, htail⟩ := List.cons.inj hsplit
    obtain ⟨-, htail⟩ := List.cons.inj htail
    have hmem : 0x4000#64 ∈ [0x5000#64, 0x8000#64] := by
      rw [htail]
      simp [pageRange]
    exact absurd hmem (by decide)

/-- Null is returned exactly if every aligned run stands behind a front that is not passed. -/
theorem allocPages_eq_null_iff (h : FreeList s pages) (horder : order.toNat < 52) :
    ∃ result s', allocPages s order = some (result, s') ∧
      (result = 0#64 ↔ ∀ front, RunBehind (2 ^ order.toNat) front pages →
        ¬ Passed (2 ^ order.toNat) (alignMaskOf order) front) := by
  have hpos : 2 ^ order.toNat ≠ 0 := (Nat.two_pow_pos order.toNat).ne'
  obtain ⟨result, s', hrun, hresult⟩ := allocPages_scan h (by omega : order.toNat < 64)
  refine ⟨result, s', hrun, ?_⟩
  rcases hresult with ⟨rfl, -, hexhausted⟩ | ⟨before, after, hsplit, haligned, hpassed, -⟩
  · refine ⟨fun _ front => ?_, fun _ => rfl⟩
    rintro ⟨p, rest, hp, rfl⟩ hpassed
    rw [List.append_assoc] at hexhausted
    exact hpassed.not_exhausted hpos ((and_alignMask_eq_zero_iff horder).mpr hp) rest hexhausted
  · constructor
    · intro hnull
      obtain ⟨k, hk⟩ := Nat.exists_eq_succ_of_ne_zero hpos
      rw [hk] at hsplit
      exact (h.zero_notMem (by simp [hsplit, pageRange, hnull])).elim
    · intro hnone
      have hbehind : RunBehind (2 ^ order.toNat) before pages :=
        ⟨result, after, (and_alignMask_eq_zero_iff horder).mp haligned, hsplit⟩
      exact (hnone before hbehind hpassed).elim

/-- **Completeness of the search.** Null means that the freelist has no aligned run, exactly for
    those freelists in which, if they have an aligned run at all, one stands behind a front that
    the traversal passes. -/
theorem allocPages_complete_iff (h : FreeList s pages) (horder : order.toNat < 52) :
    ∃ result s', allocPages s order = some (result, s') ∧
      ((result = 0#64 → ∀ front, ¬ RunBehind (2 ^ order.toNat) front pages) ↔
        ((∃ front, RunBehind (2 ^ order.toNat) front pages) →
          ∃ front, RunBehind (2 ^ order.toNat) front pages ∧
            Passed (2 ^ order.toNat) (alignMaskOf order) front)) := by
  obtain ⟨result, s', hrun, hnull⟩ := allocPages_eq_null_iff h horder
  refine ⟨result, s', hrun, ?_, ?_⟩
  · rintro hcomplete ⟨front, hfront⟩
    by_contra hnone
    have hzero : result = 0#64 :=
      hnull.mpr fun front hfront hpassed => hnone ⟨front, hfront, hpassed⟩
    exact hcomplete hzero front hfront
  · intro hvisible hzero front hfront
    obtain ⟨front', hfront', hpassed⟩ := hvisible ⟨front, hfront⟩
    exact hnull.mp hzero front' hfront' hpassed

/-- The page at `0x4000` breaks the run at `0x2000`, and the run of two pages that starts
    there is not found. -/
theorem allocPages_misses_run :
    FreeList threePages [0x2000#64, 0x4000#64, 0x5000#64] ∧
      (allocPages threePages 1#64).map Prod.fst = some 0#64 ∧
      RunBehind (2 ^ (1#64).toNat) [0x2000#64] [0x2000#64, 0x4000#64, 0x5000#64] :=
  ⟨freeList_threePages, rfl, 0x4000#64, [], by decide, by decide⟩

/-- The search passes the page `0x3000` and finds the run behind it. -/
theorem allocPages_complete_runBehindOddPage :
    ∃ result s', allocPages runBehindOddPage 1#64 = some (result, s') ∧
      (result = 0#64 → ∀ front, ¬ RunBehind (2 ^ (1#64).toNat) front
        [0x3000#64, 0x4000#64, 0x5000#64, 0x8000#64]) := by
  obtain ⟨result, s', hrun, hiff⟩ :=
    allocPages_complete_iff freeList_runBehindOddPage (by decide : (1#64).toNat < 52)
  refine ⟨result, s', hrun, hiff.mpr fun _ => ⟨[0x3000#64], ?_, .skip (by decide) .nil⟩⟩
  exact ⟨0x4000#64, [0x8000#64], by decide, by decide⟩

end AllocPages

end AcrnGuest
