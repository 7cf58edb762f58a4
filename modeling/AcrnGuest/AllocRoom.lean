import AcrnGuest.AllocBackends

/-!
# Which requests the malloc layer answers

`memalign` does not look at what the backend returns, so a null pointer of the
backend becomes the address of a block that does not exist, and no sum or product
is tested for overflow. A request is answered properly exactly if everything that the
code computes modulo `2 ^ 64` fits and the backend has the room. The conditions
here are stated over the integers.
-/

namespace AcrnGuest.Alloc

/-! ### The room that a backend sets aside -/

def earlyRoom (_total p : Word) (s : EarlyMachine) : Nat := s.phys.base.toNat - p.toNat

def pageRoom (total _p : Word) (_s : Machine) : Nat := 4096 * 2 ^ (pageOrder total).toNat

/-- The pages that `vm_memalign` has mapped, counted in 32 bits. -/
def vmRoom (total _p : Word) (_v : Vm) : Nat :=
  4096 * ((total / PAGE_SIZE).setWidth 32 : BitVec 32).toNat

/-- The block fits between base and top, and does not start at address `0`. -/
def EarlyFits (m k : Nat) (a : PhysAlloc) (n : Nat) : Prop :=
  0 < roundUp a.base.toNat (max m (max 3 k)) ∧
    roundUp a.base.toNat (max m (max 3 k)) + wholeBlock m k n ≤ a.top.toNat

/-- The block fits into the address space, and the freelist has a run for it that is found. -/
def PageFits (k : Nat) (pages : List Word) (n : Nat) : Prop :=
  wholeBlock 12 k n < 2 ^ 64 ∧
    ∃ front, RunBehind (2 ^ Nat.clog 2 (wholeBlock 12 k n / 4096)) front pages ∧
      Passed (2 ^ Nat.clog 2 (wholeBlock 12 k n / 4096))
        (alignMaskOf (BitVec.ofNat 64 (Nat.clog 2 (wholeBlock 12 k n / 4096)))) front

/-! ### The pointer -/

/-- If the pointer does not lie below the block, it has not wrapped. -/
theorem toNat_blockPtr_of_le {k : Nat} (hk : k < 64) {p : Word} (hne : p ≠ 0#64)
    (hp : p.toNat % 8 = 0) (hlow : p.toNat ≤ (blockPtr (BitVec.ofNat 64 (2 ^ k)) p).toNat) :
    p.toNat + 16 ≤ (blockPtr (BitVec.ofNat 64 (2 ^ k)) p).toNat ∧
      (blockPtr (BitVec.ofNat 64 (2 ^ k)) p).toNat % 2 ^ k = 0 := by
  have hpos : p.toNat ≠ 0 := fun h => hne (BitVec.eq_of_toNat_eq h)
  have hextra : (METADATA_EXTRA : Word).toNat = 16 := by decide
  have hlt := p.isLt
  rw [blockPtr_eq hk, toNat_ALIGN_eq (by omega)] at hlow ⊢
  split_ifs at hlow ⊢ with hround
  · refine ⟨?_, mod_two_pow_of_le (Nat.le_max_right 3 k) (roundUp_mod _ _)⟩
    by_cases hend : p.toNat + 16 < 2 ^ 64
    · rw [toNat_add_METADATA_EXTRA hend]
      exact le_roundUp _ _
    · -- the sum has wrapped, and what is left is rounded up to less than half the address space
      have hsum : (p + METADATA_EXTRA).toNat = p.toNat + 16 - 2 ^ 64 := by
        rw [BitVec.toNat_add, hextra]
        omega
      have hpow : 2 ^ max 3 k ≤ 2 ^ 63 := Nat.pow_le_pow_right (by omega) (by omega)
      have hsmall := roundUp_lt (p + METADATA_EXTRA).toNat (max 3 k)
      omega
  · omega

/-- The gap in front of the pointer is at least the alignment, for an aligned block. -/
theorem padded_le_of_aligned {k n : Nat} {p ptr : Nat} (hp : p % 2 ^ k = 0) (hptr : ptr % 2 ^ k = 0)
    (hlow : p + 16 ≤ ptr) {room : Nat} (hhigh : ptr + n ≤ p + room) :
    paddedSize k n ≤ room + 15 := by
  unfold paddedSize
  by_cases hsmall : k ≤ 3
  · rw [if_pos hsmall]
    omega
  · rw [if_neg hsmall]
    have hgap : 2 ^ k ≤ ptr - p := by
      refine Nat.le_of_dvd (by omega) (Nat.dvd_sub ?_ ?_)
      · exact Nat.dvd_of_mod_eq_zero hptr
      · exact Nat.dvd_of_mod_eq_zero hp
    have hpos := Nat.two_pow_pos k
    omega

theorem le_paddedSize (k n : Nat) : n + 16 ≤ paddedSize k n := by
  unfold paddedSize
  omega

/-! ### The early backend -/

section Early

variable {m k n : Nat} (hm : m < 64) (hk : k < 64) {s : EarlyMachine} {size : Word}
  (hsize : size.toNat = n % 2 ^ 64)
include hm hk hsize

theorem earlyFits_of_roomBehind
    (h : RoomBehind (earlyAllocOps (BitVec.ofNat 64 (2 ^ m))) earlyRoom s
      (BitVec.ofNat 64 (2 ^ k)) size n) :
    EarlyFits m k s.phys n := by
  obtain ⟨p, s₁, hblock, hne, hlow, hhigh⟩ := h
  obtain ⟨⟨result, a⟩, hcall, heq⟩ := Option.map_eq_some_iff.mp hblock
  obtain ⟨rfl, rfl⟩ := Prod.mk.inj heq
  change (blockPtr _ result).toNat + n ≤ result.toNat + (a.base.toNat - result.toNat) at hhigh
  dsimp only at hne hlow
  change earlyMemalign s.phys (blkalign (BitVec.ofNat 64 (2 ^ m)) _)
    (blockBytesFor (BitVec.ofNat 64 (2 ^ m)) _ size) = _ at hcall
  have hroom := wholeBlock_lt_of_room hm hk size
  have htotal := toNat_blockBytesFor_of_lt hm hk size
  rw [blkalign_eq hm hk] at hcall
  generalize blockBytesFor (BitVec.ofNat 64 (2 ^ m)) (BitVec.ofNat 64 (2 ^ k)) size = total at *
  have hbelow := base_lt_top_of_earlyMemalign hcall
  rw [earlyMemalign_eq (by omega) hbelow] at hcall
  dsimp only at hcall
  have hnat : s.phys.base.toNat < s.phys.top.toNat := hbelow
  have haddr := toNat_ALIGN_eq (by omega : max m (max 3 k) < 64) s.phys.base
  generalize ALIGN s.phys.base (BitVec.ofNat 64 (2 ^ max m (max 3 k))) = addr at *
  split_ifs at hcall with hfull
  · exact (hne (Prod.mk.inj (Option.some.inj hcall)).1.symm).elim
  obtain ⟨rfl, rfl⟩ := Prod.mk.inj (Option.some.inj hcall)
  rw [(logRegion_getD_fields _ _).1] at hhigh
  have hstart : addr.toNat = roundUp s.phys.base.toNat (max m (max 3 k)) := by
    split_ifs at haddr
    · exact haddr
    · exact (hne (BitVec.eq_of_toNat_eq haddr)).elim
  have hle := hstart ▸ le_roundUp s.phys.base.toNat (max m (max 3 k))
  have haligned := hstart ▸ roundUp_mod s.phys.base.toNat (max m (max 3 k))
  obtain ⟨hgap, hptr⟩ := toNat_blockPtr_of_le hk hne
    (mod_two_pow_of_le (by omega : 3 ≤ max m (max 3 k)) haligned) hlow
  have hpos : addr.toNat ≠ 0 := fun h => hne (BitVec.eq_of_toNat_eq h)
  have hmoved : (s.phys.base + (total + (addr - s.phys.base))).toNat =
      (addr.toNat + total.toNat) % 2 ^ 64 := by
    have hsum : s.phys.base + (total + (addr - s.phys.base)) = addr + total := by
      rw [BitVec.add_comm, BitVec.add_assoc, BitVec.sub_add_cancel, BitVec.add_comm]
    rw [hsum, BitVec.toNat_add]
  rw [hmoved] at hhigh
  have hlt := addr.isLt
  have htlt := total.isLt
  have hnowrap : addr.toNat + total.toNat < 2 ^ 64 := by omega
  rw [Nat.mod_eq_of_lt hnowrap, Nat.add_sub_cancel_left] at hhigh
  have hn : size.toNat = n := by omega
  have hpadded := padded_le_of_aligned
    (mod_two_pow_of_le (by omega : k ≤ max m (max 3 k)) haligned) hptr hgap hhigh
  rw [hn] at hroom htotal
  have hwhole := htotal (hroom hpadded)
  have hfree : (s.phys.top - s.phys.base).toNat = s.phys.top.toNat - s.phys.base.toNat :=
    BitVec.toNat_sub_of_le (Nat.le_of_lt hnat)
  have hneed : (total + (addr - s.phys.base)).toNat =
      total.toNat + (addr.toNat - s.phys.base.toNat) := by
    rw [BitVec.toNat_add, BitVec.toNat_sub_of_le hle, Nat.mod_eq_of_lt (by omega)]
  rw [BitVec.lt_def, hfree, hneed] at hfull
  rw [EarlyFits, ← hstart, ← hwhole]
  omega

theorem roomBehind_of_earlyFits (h : EarlyFits m k s.phys n) :
    RoomBehind (earlyAllocOps (BitVec.ofNat 64 (2 ^ m))) earlyRoom s
      (BitVec.ofNat 64 (2 ^ k)) size n := by
  obtain ⟨hpos, hfits⟩ := h
  have htop := s.phys.top.isLt
  have hpadded := le_wholeBlock m k n
  have hlarge := le_paddedSize k n
  have hbase := le_roundUp s.phys.base.toNat (max m (max 3 k))
  have hn : size.toNat = n := by omega
  subst hn
  have htotal := toNat_blockBytesFor_of_lt hm hk size (by omega)
  have hbelow : s.phys.base < s.phys.top := by
    rw [BitVec.lt_def]
    omega
  have hwhole := htotal ▸ hfits
  obtain ⟨p, a, hcall, hp, hend⟩ :=
    earlyMemalign_of_fits (by omega : max m (max 3 k) < 64) hbelow hwhole
  have haligned := hp ▸ roundUp_mod s.phys.base.toNat (max m (max 3 k))
  have hlaid := laidOut_blockPtr hk
    (mod_two_pow_of_le (by omega : 3 ≤ max m (max 3 k)) haligned) (by omega)
    (htotal ▸ hpadded) (by omega)
  have hlow := hlaid.low
  refine ⟨p, { s with phys := a }, ?_, ?_, by omega, ?_⟩
  · change (earlyMemalign s.phys (blkalign (BitVec.ofNat 64 (2 ^ m)) _) _).map _ = _
    rw [blkalign_eq hm hk]
    change (earlyMemalign s.phys _ (blockBytesFor (BitVec.ofNat 64 (2 ^ m)) _ size)).map _ = _
    rw [hcall]
    rfl
  · rintro rfl
    change 0 = _ at hp
    omega
  · change _ ≤ p.toNat + (a.base.toNat - p.toNat)
    rw [hend, Nat.add_sub_cancel_left]
    exact hlaid.user

end Early

/-! ### The page backend -/

section Page

variable {s : Machine} {pages : List Word} (hfree : FreeList s pages)
include hfree

/-- A block of whole pages is found exactly if the freelist has a run for it that is found. -/
theorem pageMemalign_ne_null_iff {total alignment : Word} (hpage : IsPage total)
    (hne : total ≠ 0#64) :
    (∃ p s₁, pageMemalign s alignment total = some (p, s₁) ∧ p ≠ 0#64) ↔
      ∃ front, RunBehind (2 ^ Nat.clog 2 (total.toNat / 4096)) front pages ∧
        Passed (2 ^ Nat.clog 2 (total.toNat / 4096))
          (alignMaskOf (BitVec.ofNat 64 (Nat.clog 2 (total.toNat / 4096)))) front := by
  have horder := toNat_pageOrder hpage hne
  have hword : BitVec.ofNat 64 (Nat.clog 2 (total.toNat / 4096)) = pageOrder total := by
    rw [← horder, BitVec.ofNat_toNat, BitVec.setWidth_eq]
  rw [hword, ← horder]
  unfold pageMemalign
  rw [if_neg hne]
  by_cases hlt : (pageOrder total).toNat < 52
  · obtain ⟨result, s', hcall, hnull⟩ := allocPages_eq_null_iff hfree hlt
    rw [hcall]
    constructor
    · rintro ⟨p, s₁, heq, hp⟩
      obtain ⟨rfl, rfl⟩ := Prod.mk.inj (Option.some.inj heq)
      by_contra hnone
      exact hp (hnull.mpr fun front hrun hpassed => hnone ⟨front, hrun, hpassed⟩)
    · rintro ⟨front, hrun, hpassed⟩
      exact ⟨result, s', rfl, fun hzero => hnull.mp hzero front hrun hpassed⟩
  · -- only address 0 is aligned to the whole address space, and it is not on the list
    have hle : Nat.clog 2 (total.toNat / 4096) ≤ 52 := by
      refine Nat.clog_le_of_le_pow ?_
      have := total.isLt
      omega
    constructor
    · rintro ⟨p, s₁, hcall, hp⟩
      obtain ⟨result, s', hcall', hspec⟩ :=
        allocPages_spec hfree (by omega : (pageOrder total).toNat < 64)
      obtain ⟨rfl, rfl⟩ := Prod.mk.inj (Option.some.inj (hcall'.symm.trans hcall))
      rcases hspec with ⟨hnull, -⟩ | ⟨hlt', -⟩
      · exact (hp hnull).elim
      · exact (hlt hlt').elim
    · rintro ⟨front, ⟨p, rest, haligned, hsplit⟩, -⟩
      have hp : p = 0#64 := by
        have hpow : 2 ^ 52 ≤ 2 ^ (pageOrder total).toNat :=
          Nat.pow_le_pow_right (by omega) (by omega)
        rw [Nat.mod_eq_of_lt (by have := p.isLt; omega)] at haligned
        exact BitVec.eq_of_toNat_eq haligned
      obtain ⟨j, hj⟩ := Nat.exists_eq_succ_of_ne_zero (Nat.two_pow_pos (pageOrder total).toNat).ne'
      rw [hj] at hsplit
      exact (hfree.zero_notMem (by simp [hsplit, pageRange, hp])).elim

theorem pageFits_of_roomBehind {k n : Nat} (hk : k < 64) {size : Word}
    (hsize : size.toNat = n % 2 ^ 64)
    (h : RoomBehind pageAllocOps pageRoom s (BitVec.ofNat 64 (2 ^ k)) size n) :
    PageFits k pages n := by
  have hpage := isPage_blockBytesFor hk size
  have hbytes := toNat_blockBytesFor (m := 12) (by omega) hk size
  rw [← PAGE_SIZE_eq_two_pow] at hbytes
  obtain ⟨p, s₁, hblock, hne, hlow, hhigh⟩ := h
  change pageMemalign s (blkalign PAGE_SIZE (BitVec.ofNat 64 (2 ^ k)))
    (blockBytesFor PAGE_SIZE (BitVec.ofNat 64 (2 ^ k)) size) = _ at hblock
  change _ ≤ p.toNat + pageRoom
    (blockBytesFor PAGE_SIZE (BitVec.ofNat 64 (2 ^ k)) size) p s₁ at hhigh
  generalize blockBytesFor PAGE_SIZE (BitVec.ofNat 64 (2 ^ k)) size = total at *
  obtain ⟨-, -, -, -, hne0, hpPage, -, hend⟩ := page_block hfree hpage hblock hne
  have hfound := (pageMemalign_ne_null_iff hfree hpage hne0).mp ⟨p, s₁, hblock, hne⟩
  rw [pageRoom, toNat_pageOrder hpage hne0] at hhigh
  obtain ⟨hgap, -⟩ := toNat_blockPtr_of_le hk hne (by have := isPage_iff.mp hpPage; omega) hlow
  have hpos : p.toNat ≠ 0 := fun h => hne (BitVec.eq_of_toNat_eq h)
  -- a run is at most half the address space, and so is the gap for the alignment
  have hhalf : 4096 * 2 ^ Nat.clog 2 (total.toNat / 4096) ≤ 2 ^ 63 := by
    have hpow : 4096 * 2 ^ Nat.clog 2 (total.toNat / 4096) =
        2 ^ (12 + Nat.clog 2 (total.toNat / 4096)) := by
      rw [Nat.pow_add]
    have hlt : 2 ^ (12 + Nat.clog 2 (total.toNat / 4096)) < 2 ^ 64 := by omega
    rw [Nat.pow_lt_pow_iff_right (by omega)] at hlt
    rw [hpow]
    exact Nat.pow_le_pow_right (by omega) (by omega)
  have hn : size.toNat = n := by omega
  have hpadded : paddedSize k n < 2 ^ 64 := by
    have hpow : 2 ^ k ≤ 2 ^ 63 := Nat.pow_le_pow_right (by omega) (by omega)
    unfold paddedSize
    split_ifs <;> omega
  rw [hn, Nat.mod_eq_of_lt hpadded] at hbytes
  change total.toNat = if wholeBlock 12 k n < 2 ^ 64 then wholeBlock 12 k n else 0 at hbytes
  have hfits : wholeBlock 12 k n < 2 ^ 64 := by
    by_contra hover
    rw [if_neg hover] at hbytes
    exact hne0 (BitVec.eq_of_toNat_eq hbytes)
  rw [if_pos hfits] at hbytes
  rw [hbytes] at hfound
  exact ⟨hfits, hfound⟩

theorem roomBehind_of_pageFits {k n : Nat} (hk : k < 64) {size : Word}
    (hsize : size.toNat = n % 2 ^ 64) (h : PageFits k pages n) :
    RoomBehind pageAllocOps pageRoom s (BitVec.ofNat 64 (2 ^ k)) size n := by
  obtain ⟨hfits, hfound⟩ := h
  have hpage := isPage_blockBytesFor hk size
  have hpadded := le_wholeBlock 12 k n
  have hlarge := le_paddedSize k n
  have hn : size.toNat = n := by omega
  subst hn
  have htotal := toNat_blockBytesFor_of_lt (m := 12) (by omega) hk size hfits
  rw [← PAGE_SIZE_eq_two_pow] at htotal
  have hne : blockBytesFor PAGE_SIZE (BitVec.ofNat 64 (2 ^ k)) size ≠ 0#64 := by
    intro hzero
    rw [hzero] at htotal
    change 0 = _ at htotal
    omega
  rw [← htotal] at hfound hpadded
  have hexists : ∃ p s₁, pageMemalign s (blkalign PAGE_SIZE (BitVec.ofNat 64 (2 ^ k)))
      (blockBytesFor PAGE_SIZE (BitVec.ofNat 64 (2 ^ k)) size) = some (p, s₁) ∧ p ≠ 0#64 :=
    (pageMemalign_ne_null_iff hfree hpage hne).mpr hfound
  obtain ⟨p, s₁, hblock, hp⟩ := hexists
  obtain ⟨-, -, -, -, -, hpPage, hholds, hend⟩ := page_block hfree hpage hblock hp
  have haligned := isPage_iff.mp hpPage
  have hlt := p.isLt
  have hlaid := laidOut_blockPtr hk (by omega : p.toNat % 8 = 0) (by omega) hpadded (by omega)
  have hlow := hlaid.low
  have huser := hlaid.user
  refine ⟨p, s₁, hblock, hp, by omega, ?_⟩
  change _ ≤ p.toNat + pageRoom (blockBytesFor PAGE_SIZE (BitVec.ofNat 64 (2 ^ k)) size) p s₁
  rw [pageRoom, toNat_pageOrder hpage hne]
  omega

end Page

/-! ### The virtual backend -/

theorem vmRoom_eq {total : Word} (hpage : IsPage total) (hlt : total.toNat < 2 ^ 44)
    (p : Word) (v : Vm) :
    vmRoom total p v = total.toNat := by
  have haligned := isPage_iff.mp hpage
  rw [vmRoom, BitVec.toNat_setWidth, BitVec.toNat_udiv, toNat_PAGE_SIZE]
  omega

theorem vmMemalign_asserts {v v' : Vm} {alignment total p : Word} (htop : IsPage v.vfreeTop)
    (h : vmMemalign v alignment total = some (p, v')) : alignment ≤ PAGE_SIZE ∧ IsPage p := by
  unfold vmMemalign at h
  by_cases hassert : alignment ≤ PAGE_SIZE
  · rw [if_neg (not_not.mpr hassert)] at h
    dsimp only at h
    obtain ⟨rfl, -⟩ := Prod.mk.inj (Option.some.inj h)
    refine ⟨hassert, ?_⟩
    rw [isPage_iff] at htop ⊢
    have hlt := v.vfreeTop.isLt
    rw [allocVpages, BitVec.toNat_sub, BitVec.toNat_mul, toNat_PAGE_SIZE]
    omega
  · rw [if_pos hassert] at h
    exact absurd h (by simp)

/-- An answer of the virtual backend is no larger than what 32 bits of pages hold. -/
theorem lt_of_roomBehind_vmallocOps {H : Heap} {free : List Word}
    (h : H.Consistent free) {k n : Nat} (hk : k < 64) {size : Word}
    (hsize : size.toNat = n % 2 ^ 64)
    (hroom : RoomBehind vmallocOps vmRoom H.vm (BitVec.ofNat 64 (2 ^ k)) size n) :
    k ≤ 12 ∧ wholeBlock 12 k n < 2 ^ 44 := by
  obtain ⟨p, v, hblock, hne, hlow, hhigh⟩ := hroom
  change vmMemalign H.vm (blkalign PAGE_SIZE (BitVec.ofNat 64 (2 ^ k))) _ = _ at hblock
  change _ ≤ p.toNat + vmRoom (blockBytesFor PAGE_SIZE (BitVec.ofNat 64 (2 ^ k)) size) p v at hhigh
  have hbytes := toNat_blockBytesFor_of_lt (m := 12) (by omega) hk size
  rw [← PAGE_SIZE_eq_two_pow] at hbytes
  obtain ⟨hassert, hpPage⟩ := vmMemalign_asserts h.top hblock
  have hk12 : k ≤ 12 := by
    rw [PAGE_SIZE_eq_two_pow, blkalign_eq (by omega) hk, BitVec.le_def, toNat_two_pow (by omega),
      toNat_two_pow (by omega), Nat.pow_le_pow_iff_right (by omega)] at hassert
    omega
  refine ⟨hk12, ?_⟩
  have haligned : p.toNat % 8 = 0 := by
    have := isPage_iff.mp hpPage
    omega
  obtain ⟨hgap, -⟩ := toNat_blockPtr_of_le hk hne haligned hlow
  rw [vmRoom, BitVec.toNat_setWidth, BitVec.toNat_udiv, toNat_PAGE_SIZE] at hhigh
  have hn : size.toNat = n := by omega
  have hpow : 2 ^ k ≤ 2 ^ 12 := Nat.pow_le_pow_right (by omega) hk12
  have hpadded : paddedSize k n ≤ n + 4111 := by
    unfold paddedSize
    split_ifs <;> omega
  have hround := roundUp_lt (paddedSize k n) 12
  change wholeBlock 12 k n < _ at hround
  rw [hn] at hbytes
  rw [hbytes (by omega)] at hhigh
  omega

/-- In a consistent heap with room, a request for fewer than `2 ^ 32` pages has its block. -/
theorem serves_vmallocOps {H : Heap} {free : List Word} (h : H.Consistent free)
    {k : Nat} (hk : k ≤ 12) {size : Word} (hsize : wholeBlock 12 k size.toNat < 2 ^ 44)
    (hroom : H.vm.HasRoom (BitVec.ofNat 64 (2 ^ k)) size)
    {call : Option (Word × (Vm × List Word))}
    (hcall : ∀ p v rest maps, vmMemalign H.vm (blkalign PAGE_SIZE (BitVec.ofNat 64 (2 ^ k)))
        (blockBytesFor PAGE_SIZE (BitVec.ofNat 64 (2 ^ k)) size) = some (p, v) →
      Mapped v rest maps →
      (∃ f, (pageOf (blockPtr (BitVec.ofNat 64 (2 ^ k)) p + OFS_SLACK), f) ∈ maps) →
      (∃ f, (pageOf (blockPtr (BitVec.ofNat 64 (2 ^ k)) p + OFS_SIZE), f) ∈ maps) →
      (∀ i, 8 * i < size.toNat →
        ∃ f, (pageOf (blockPtr (BitVec.ofNat 64 (2 ^ k)) p + BitVec.ofNat 64 (8 * i)), f) ∈ maps) →
      ∃ t, call = some (blockPtr (BitVec.ofNat 64 (2 ^ k)) p, t)) :
    Serves vmallocOps vmRoom H.vm (BitVec.ofNat 64 (2 ^ k)) size size.toNat call := by
  have hpage := isPage_blockBytesFor (by omega : k < 64) size
  have htotal := toNat_blockBytesFor_of_lt (m := 12) (by omega) (by omega : k < 64) size (by omega)
  rw [← PAGE_SIZE_eq_two_pow] at htotal
  obtain ⟨p, v, rest, maps, hblock, hp, hmapped, hlaid, hcovers⟩ := vm_block h hk hsize hroom
  obtain ⟨hslack, hsizeWord, huser⟩ := hlaid.metadata hcovers
  obtain ⟨t, ht⟩ := hcall p v rest maps hblock hmapped hslack hsizeWord huser
  have hlow := hlaid.low
  refine ⟨p, v, _, t, hblock, ht, fun hnull => (hp hnull).elim, Or.inr ⟨hp, by omega, ?_⟩⟩
  change _ ≤ p.toNat + vmRoom (blockBytesFor PAGE_SIZE (BitVec.ofNat 64 (2 ^ k)) size) p v
  rw [vmRoom_eq hpage (by omega)]
  exact hlaid.user

/-! ### The malloc layer -/

/-- **Which requests are answered.** `memalign` (and `malloc`, which is `memalign` with alignment
`8`) and `calloc` return null without a write or a block with room for what was asked for, exactly
if the block fits over the integers and the backend has it. For the virtual heap this is said of
states that have the pages. -/
theorem requests_answered_iff {k : Nat} (hk : k < 64) (nmemb size : Word) :
    (∀ (m : Nat) (s : EarlyMachine), m < 64 →
      (Serves (earlyAllocOps (BitVec.ofNat 64 (2 ^ m))) earlyRoom s (BitVec.ofNat 64 (2 ^ k)) size
          size.toNat (memalign (earlyAllocOps (BitVec.ofNat 64 (2 ^ m))).traced (s, [])
            (BitVec.ofNat 64 (2 ^ k)) size) ↔
        EarlyFits m k s.phys size.toNat)) ∧
    (∀ (m : Nat) (s : EarlyMachine), m < 64 →
      (Serves (earlyAllocOps (BitVec.ofNat 64 (2 ^ m))) earlyRoom s 8#64 (nmemb * size)
          (nmemb.toNat * size.toNat)
          (calloc (earlyAllocOps (BitVec.ofNat 64 (2 ^ m))).traced (s, []) nmemb size) ↔
        EarlyFits m 3 s.phys (nmemb.toNat * size.toNat))) ∧
    (∀ (s : Machine) (pages : List Word), FreeList s pages →
      (Serves pageAllocOps pageRoom s (BitVec.ofNat 64 (2 ^ k)) size size.toNat
          (memalign pageAllocOps.traced (s, []) (BitVec.ofNat 64 (2 ^ k)) size) ↔
        PageFits k pages size.toNat)) ∧
    (∀ (s : Machine) (pages : List Word), FreeList s pages →
      (Serves pageAllocOps pageRoom s 8#64 (nmemb * size) (nmemb.toNat * size.toNat)
          (calloc pageAllocOps.traced (s, []) nmemb size) ↔
        PageFits 3 pages (nmemb.toNat * size.toNat))) ∧
    (∀ (H : Heap) (free : List Word), H.Consistent free →
      H.vm.HasRoom (BitVec.ofNat 64 (2 ^ k)) size →
      (Serves vmallocOps vmRoom H.vm (BitVec.ofNat 64 (2 ^ k)) size size.toNat
          (memalign vmallocOps.traced (H.vm, []) (BitVec.ofNat 64 (2 ^ k)) size) ↔
        k ≤ 12 ∧ wholeBlock 12 k size.toNat < 2 ^ 44)) ∧
    (∀ (H : Heap) (free : List Word), H.Consistent free →
      H.vm.HasRoom 8#64 (nmemb * size) →
      (Serves vmallocOps vmRoom H.vm 8#64 (nmemb * size) (nmemb.toNat * size.toNat)
          (calloc vmallocOps.traced (H.vm, []) nmemb size) ↔
        wholeBlock 12 3 (nmemb.toNat * size.toNat) < 2 ^ 44)) := by
  have hword : size.toNat = size.toNat % 2 ^ 64 := (Nat.mod_eq_of_lt size.isLt).symm
  refine ⟨?_, ?_, ?_, ?_, ?_, ?_⟩
  · intro m s hm
    rw [serves_memalign_iff (accessible_earlyAllocOps _)]
    exact ⟨earlyFits_of_roomBehind hm hk hword, roomBehind_of_earlyFits hm hk hword⟩
  · intro m s hm
    rw [serves_calloc_iff (accessible_earlyAllocOps _)]
    exact ⟨earlyFits_of_roomBehind hm (by omega : 3 < 64) (BitVec.toNat_mul nmemb size),
      roomBehind_of_earlyFits hm (by omega : 3 < 64) (BitVec.toNat_mul nmemb size)⟩
  · intro s pages hfree
    rw [serves_memalign_iff accessible_pageAllocOps]
    exact ⟨pageFits_of_roomBehind hfree hk hword, roomBehind_of_pageFits hfree hk hword⟩
  · intro s pages hfree
    rw [serves_calloc_iff accessible_pageAllocOps]
    exact ⟨pageFits_of_roomBehind hfree (by omega : 3 < 64) (BitVec.toNat_mul nmemb size),
      roomBehind_of_pageFits hfree (by omega : 3 < 64) (BitVec.toNat_mul nmemb size)⟩
  · intro H free hcons hroom
    constructor
    · intro hserves
      exact lt_of_roomBehind_vmallocOps hcons hk hword
        (roomBehind_of_serves hserves fun _ _ _ _ => writes_of_memalign_traced)
    · rintro ⟨hk12, hsize⟩
      refine serves_vmallocOps hcons hk12 hsize hroom
        fun p v rest maps hblock hmapped hslack hmeta _ => ?_
      obtain ⟨t, hcall, -⟩ :=
        memalign_traced (accessible_vmallocOps rest maps) hblock hmapped hslack hmeta
      exact ⟨t, hcall⟩
  · intro H free hcons hroom
    constructor
    · intro hserves
      exact (lt_of_roomBehind_vmallocOps hcons (by omega : 3 < 64) (BitVec.toNat_mul nmemb size)
        (roomBehind_of_serves hserves fun _ _ _ _ => writes_of_calloc_traced)).2
    · intro hsize
      have hpadded := le_wholeBlock 12 3 (nmemb.toNat * size.toNat)
      have hlarge := le_paddedSize 3 (nmemb.toNat * size.toNat)
      have hproduct : (nmemb * size).toNat = nmemb.toNat * size.toNat := by
        rw [BitVec.toNat_mul, Nat.mod_eq_of_lt (by omega)]
      rw [← hproduct] at hsize ⊢
      exact serves_vmallocOps hcons (by omega : 3 ≤ 12) hsize hroom
        fun p v rest maps hblock hmapped hslack hmeta huser =>
          calloc_traced (accessible_vmallocOps rest maps) hblock hmapped hslack hmeta huser

/-- A request for 100 bytes finds a page, and one for `2 ^ 32` members of `2 ^ 32` bytes is not
    answered. -/
theorem requests_answered_three_pages :
    Serves pageAllocOps pageRoom threePages (BitVec.ofNat 64 (2 ^ 3)) 100#64 (100#64).toNat
        (memalign pageAllocOps.traced (threePages, []) (BitVec.ofNat 64 (2 ^ 3)) 100#64) ∧
      ¬ Serves pageAllocOps pageRoom threePages 8#64 (0x100000000#64 * 0x100000000#64)
        ((0x100000000#64).toNat * (0x100000000#64).toNat)
        (calloc pageAllocOps.traced (threePages, []) 0x100000000#64 0x100000000#64) := by
  have hthree : 3 < 64 := by decide
  constructor
  · obtain ⟨-, -, hmemalign, -⟩ := requests_answered_iff hthree 1#64 100#64
    refine (hmemalign _ _ freeList_threePages).mpr ⟨by decide, [], ?_, .nil⟩
    exact ⟨0x2000#64, [0x4000#64, 0x5000#64], by decide, by decide⟩
  · obtain ⟨-, -, -, hcalloc, -⟩ := requests_answered_iff hthree 0x100000000#64 0x100000000#64
    intro hserves
    have hfits := ((hcalloc _ _ freeList_threePages).mp hserves).1
    exact absurd hfits (by decide)

/-- With no free page `page_memalign` returns null. `memalign` writes its metadata at addresses `0`
and `8` and returns `16`. -/
theorem memalign_ignores_null :
    FreeList ⟨fun _ => 0#64, 0#64⟩ [] ∧
      (pageMemalign ⟨fun _ => 0#64, 0#64⟩ PAGE_SIZE 4096#64).map Prod.fst = some 0#64 ∧
      ((memalign pageAllocOps.traced (⟨fun _ => 0#64, 0#64⟩, []) 8#64 8#64).map fun r =>
        (r.1, r.2.2)) =
        some (16#64, [0#64, 8#64]) ∧
      ¬ Serves pageAllocOps pageRoom ⟨fun _ => 0#64, 0#64⟩ 8#64 8#64 8
        (memalign pageAllocOps.traced (⟨fun _ => 0#64, 0#64⟩, []) 8#64 8#64) := by
  refine ⟨⟨rfl, List.nodup_nil, List.forall_mem_nil _⟩, rfl, rfl, ?_⟩
  rintro ⟨p, s₁, ptr, t, hblock, hcall, hnull, -⟩
  have hp : some p = some 0#64 := (congrArg (Option.map Prod.fst) hblock).symm
  have hptr : some ptr = some 16#64 := (congrArg (Option.map Prod.fst) hcall).symm
  have hzero := hnull (Option.some.inj hp)
  rw [Option.some.inj hptr] at hzero
  exact absurd hzero (by decide)

end AcrnGuest.Alloc
