import AcrnGuest.Alloc
import AcrnGuest.AllocPageScan
import AcrnGuest.PhysAlloc
import Mathlib.Data.Nat.Log

/-!
# The three backends of the malloc layer

`early_alloc_ops` moves the base of the early allocator, `page_alloc_ops` takes a
power of two of pages from the freelist, and `vmalloc_ops` maps pages at the top of the
address space. The first two work on physical memory; the early one has no `free`.
-/

namespace AcrnGuest.Alloc

/-! ### The source -/

structure EarlyMachine where
  mem : Mem
  phys : PhysAlloc

def DEFAULT_MINIMUM_ALIGNMENT : Word := 32#64

/-- `early_alloc_ops`, with the value of its field `align_min`. -/
def earlyAllocOps (alignMin : Word) : AllocOps EarlyMachine where
  memalign s alignment size :=
    (earlyMemalign s.phys alignment size).map fun r => (r.1, { s with phys := r.2 })
  free := none
  alignMin := alignMin
  load s a := some (s.mem a)
  store s a value := some { s with mem := Function.update s.mem a value }

def physAllocSetMinimumAlignment (align : Word) : Option (AllocOps EarlyMachine) :=
  if ¬ (align ≠ 0#64 ∧ align &&& (align - 1#64) = 0#64) then none else some (earlyAllocOps align)

def isPowerOf2 (n : Word) : Bool := n ≠ 0#64 ∧ n &&& (n - 1#64) = 0#64

/-- `__builtin_clzl`, the leading zero bits of a word that is not `0`. -/
def builtinClzl (word : Word) : Word := BitVec.ofNat 64 (63 - word.toNat.log2)

def fls (word : Word) : Word := 64#64 - builtinClzl word - 1#64

/-- The order of the run that `page_memalign` asks for. -/
def pageOrder (size : Word) : Word :=
  let n := ALIGN size PAGE_SIZE >>> PAGE_SHIFT
  if isPowerOf2 n then fls n else fls n + 1#64

/-- `page_memalign`. The alignment is not used. -/
def pageMemalign (s : Machine) (_alignment size : Word) : Option (Word × Machine) :=
  if size = 0#64 then some (0#64, s) else allocPages s (pageOrder size)

def pageFree (s : Machine) (mem size : Word) : Option Machine := freePages s mem size

def pageAllocOps : AllocOps Machine where
  memalign := pageMemalign
  free := some pageFree
  alignMin := PAGE_SIZE
  load s a := some (s.mem a)
  store s a value := some { s with mem := Function.update s.mem a value }

def vmallocOps : AllocOps Vm where
  memalign := vmMemalign
  free := some vmFree
  alignMin := PAGE_SIZE
  load := Vm.load
  store := Vm.store

theorem memalign_vmallocOps (v : Vm) (alignment size : Word) :
    memalign vmallocOps v alignment size = AcrnGuest.memalign v alignment size := by
  have hmin : vmallocOps.alignMin = PAGE_SIZE := rfl
  have hstore : vmallocOps.store = Vm.store := rfl
  have hmem : vmallocOps.memalign = vmMemalign := rfl
  rw [memalign, AcrnGuest.memalign, hmin, hstore, hmem]

theorem free_vmallocOps (v : Vm) (ptr : Word) : free vmallocOps v ptr = AcrnGuest.free v ptr := by
  have hload : vmallocOps.load = Vm.load := rfl
  have hfree : vmallocOps.free = some vmFree := rfl
  rw [free, AcrnGuest.free, hfree]
  simp only [blockBegin, blockSize, hload, AcrnGuest.blockBegin, AcrnGuest.blockSize]

/-! ### Powers of two -/

theorem isPowerOf2_iff (n : Word) : isPowerOf2 n = true ↔ ∃ j, n.toNat = 2 ^ j := by
  unfold isPowerOf2
  rw [decide_eq_true_iff]
  by_cases hzero : n = 0#64
  · subst hzero
    refine ⟨fun h => (h.1 rfl).elim, ?_⟩
    rintro ⟨j, hj⟩
    exact ((Nat.two_pow_pos j).ne hj).elim
  · have hne : n.toNat ≠ 0 := fun h => hzero (BitVec.eq_of_toNat_eq h)
    have hsub : (n - 1#64).toNat = n.toNat - 1 :=
      BitVec.toNat_sub_of_le (by
        rw [BitVec.le_def]
        exact Nat.one_le_iff_ne_zero.mpr hne)
    have hand : n &&& (n - 1#64) = 0#64 ↔ n.toNat &&& (n.toNat - 1) = 0 := by
      rw [← BitVec.toNat_inj, BitVec.toNat_and, hsub]
      rfl
    rw [and_iff_right hzero, hand, Nat.and_sub_one_eq_zero_iff_isPowerOfTwo hne]
    rfl

/-- Every minimum alignment that can be set is a power of two. -/
theorem physAllocSetMinimumAlignment_eq_some_iff (align : Word) (ops : AllocOps EarlyMachine) :
    physAllocSetMinimumAlignment align = some ops ↔
      ∃ m < 64, align = BitVec.ofNat 64 (2 ^ m) ∧ ops = earlyAllocOps align := by
  have hpower := isPowerOf2_iff align
  rw [isPowerOf2, decide_eq_true_iff] at hpower
  unfold physAllocSetMinimumAlignment
  by_cases hvalid : align ≠ 0#64 ∧ align &&& (align - 1#64) = 0#64
  · rw [if_neg (not_not.mpr hvalid), Option.some_inj]
    constructor
    · rintro rfl
      obtain ⟨m, hm⟩ := hpower.mp hvalid
      have hlt : 2 ^ m < 2 ^ 64 := hm ▸ align.isLt
      have hm64 : m < 64 := (Nat.pow_lt_pow_iff_right (by omega)).mp hlt
      exact ⟨m, hm64, BitVec.eq_of_toNat_eq (hm.trans (toNat_two_pow hm64).symm), rfl⟩
    · rintro ⟨-, -, -, rfl⟩
      rfl
  · rw [if_pos hvalid]
    constructor
    · exact fun h => absurd h (by simp)
    · rintro ⟨m, hm, rfl, -⟩
      exact (hvalid (hpower.mpr ⟨m, toNat_two_pow hm⟩)).elim

theorem toNat_fls {n : Word} (hn : n ≠ 0#64) : (fls n).toNat = n.toNat.log2 := by
  have hlt : n.toNat.log2 < 64 :=
    (Nat.log2_lt (fun h => hn (BitVec.eq_of_toNat_eq h))).mpr n.isLt
  have hclz : (builtinClzl n).toNat = 63 - n.toNat.log2 := by
    rw [builtinClzl, BitVec.toNat_ofNat]
    omega
  rw [fls]
  bv_omega

/-- The order is the smallest one whose run holds the pages of the block. -/
theorem toNat_pageOrder {total : Word} (hpage : IsPage total) (hne : total ≠ 0#64) :
    (pageOrder total).toNat = Nat.clog 2 (total.toNat / 4096) := by
  have haligned := isPage_iff.mp hpage
  have hn : (ALIGN total PAGE_SIZE >>> PAGE_SHIFT).toNat = total.toNat / 4096 := by
    have hpageSize : PAGE_SIZE = BitVec.ofNat 64 (2 ^ 12) := by decide
    rw [hpageSize, BitVec.toNat_ushiftRight, toNat_ALIGN_of_le (by omega)]
    · rw [Nat.shiftRight_eq_div_pow]
      unfold PAGE_SHIFT
      omega
    · have := total.isLt
      omega
  have hpos : total.toNat ≠ 0 := fun h => hne (BitVec.eq_of_toNat_eq h)
  unfold pageOrder
  dsimp only
  generalize ALIGN total PAGE_SIZE >>> PAGE_SHIFT = n at *
  have hn0 : n ≠ 0#64 := by
    rintro rfl
    rw [BitVec.toNat_ofNat] at hn
    omega
  have hnpos : n.toNat ≠ 0 := fun h => hn0 (BitVec.eq_of_toNat_eq h)
  rw [← hn]
  by_cases hpower : isPowerOf2 n = true
  · obtain ⟨j, hj⟩ := (isPowerOf2_iff n).mp hpower
    rw [if_pos hpower, toNat_fls hn0, hj, Nat.log2_two_pow, Nat.clog_pow 2 j (by omega)]
  · have hlog : (fls n).toNat < 64 := by
      rw [toNat_fls hn0]
      exact (Nat.log2_lt hnpos).mpr n.isLt
    have hsucc : (fls n + 1#64).toNat = n.toNat.log2 + 1 := by
      rw [← toNat_fls hn0]
      bv_omega
    rw [if_neg hpower, hsucc]
    have hle : 2 ^ n.toNat.log2 ≤ n.toNat := Nat.log2_self_le hnpos
    have hne' : 2 ^ n.toNat.log2 ≠ n.toNat := fun h =>
      hpower ((isPowerOf2_iff n).mpr ⟨n.toNat.log2, h.symm⟩)
    have hupper : Nat.clog 2 n.toNat ≤ n.toNat.log2 + 1 :=
      (Nat.clog_le_iff_le_pow (by omega)).mpr (Nat.le_of_lt Nat.lt_log2_self)
    have hlower : n.toNat.log2 < Nat.clog 2 n.toNat :=
      (Nat.lt_clog_iff_pow_lt (by omega)).mpr (by omega)
    omega

/-! ### What the backends return -/

theorem blkalign_eq {m k : Nat} (hm : m < 64) (hk : k < 64) :
    blkalign (BitVec.ofNat 64 (2 ^ m)) (BitVec.ofNat 64 (2 ^ k)) =
      BitVec.ofNat 64 (2 ^ max m (max 3 k)) := by
  have hgt : BitVec.ofNat 64 (2 ^ max 3 k) > BitVec.ofNat 64 (2 ^ m) ↔ m < max 3 k := by
    rw [gt_iff_lt, BitVec.lt_def, toNat_two_pow hm, toNat_two_pow (by omega)]
    exact Nat.pow_lt_pow_iff_right (by omega)
  unfold blkalign
  dsimp only
  rw [wordAlignment_eq hk]
  by_cases hlt : m < max 3 k
  · rw [if_pos (hgt.mpr hlt), Nat.max_eq_right (Nat.le_of_lt hlt)]
  · rw [if_neg (mt hgt.mp hlt), Nat.max_eq_left (Nat.le_of_not_lt hlt)]

/-- Physical memory can be accessed everywhere. -/
theorem accessible_earlyAllocOps (alignMin : Word) :
    Accessible (earlyAllocOps alignMin) (fun _ => True) fun _ => True where
  load _ _ := ⟨_, rfl⟩
  store _ _ _ := ⟨_, rfl, trivial, congrArg some (Function.update_self _ _ _),
    fun _ _ hne => congrArg some (Function.update_of_ne hne _ _)⟩

theorem accessible_pageAllocOps : Accessible pageAllocOps (fun _ => True) fun _ => True where
  load _ _ := ⟨_, rfl⟩
  store _ _ _ := ⟨_, rfl, trivial, congrArg some (Function.update_self _ _ _),
    fun _ _ hne => congrArg some (Function.update_of_ne hne _ _)⟩

/-- The mapped pages can be accessed, and stay mapped. -/
theorem accessible_vmallocOps (free : List Word) (maps : List (Word × Word)) :
    Accessible vmallocOps (fun v => Mapped v free maps) fun a => ∃ f, (pageOf a, f) ∈ maps where
  load := by
    rintro v a hmapped ⟨f, hf⟩
    exact ⟨_, hmapped.load hf⟩
  store := by
    rintro v a hmapped ⟨f, hf⟩ value
    obtain ⟨v', hstore, -, -, hmapped', -, hself, hother⟩ := hmapped.store hf value
    exact ⟨v', hstore, hmapped', hself, fun b ⟨g, hg⟩ hne => hother b g hg hne⟩

theorem le_wholeBlock (m k n : Nat) : paddedSize k n ≤ wholeBlock m k n := le_roundUp _ _

theorem early_block {m k : Nat} (hm : m < 64) (hk : k < 64) {s s₁ : EarlyMachine} {total p : Word}
    (hwrap : s.phys.NoWrap (blkalign (BitVec.ofNat 64 (2 ^ m)) (BitVec.ofNat 64 (2 ^ k))) total)
    (hblock : (earlyAllocOps (BitVec.ofNat 64 (2 ^ m))).memalign s
      (blkalign (BitVec.ofNat 64 (2 ^ m)) (BitVec.ofNat 64 (2 ^ k))) total = some (p, s₁))
    (hp : p ≠ 0#64) :
    p.toNat % 8 = 0 ∧ s₁.phys.base.toNat = p.toNat + total.toNat ∧
      p.toNat + total.toNat < 2 ^ 64 := by
  obtain ⟨⟨result, a⟩, hcall, heq⟩ := Option.map_eq_some_iff.mp hblock
  obtain ⟨rfl, rfl⟩ := Prod.mk.inj heq
  rw [blkalign_eq hm hk] at hwrap hcall
  rcases earlyMemalign_spec (by omega) hwrap hcall with ⟨-, hnull, -⟩ |
    ⟨-, haligned, -, hend, -, -⟩
  · exact (hp hnull).elim
  · have hlt := a.base.isLt
    rw [hend] at hlt
    exact ⟨mod_two_pow_of_le (by omega : 3 ≤ max m (max 3 k)) haligned, hend, hlt⟩

/-- The block of `page_memalign` is a run of the freelist that holds the pages asked for. -/
theorem page_block {s s₁ : Machine} {pages : List Word} (h : FreeList s pages)
    {alignment total p : Word} (htotal : IsPage total)
    (hblock : pageMemalign s alignment total = some (p, s₁)) (hp : p ≠ 0#64) :
    ∃ before after, pages =
        before ++ pageRange p (2 ^ Nat.clog 2 (total.toNat / 4096)) ++ after ∧
      FreeList s₁ (before ++ after) ∧ total ≠ 0#64 ∧ IsPage p ∧
      total.toNat ≤ 4096 * 2 ^ Nat.clog 2 (total.toNat / 4096) ∧
      p.toNat + 4096 * 2 ^ Nat.clog 2 (total.toNat / 4096) ≤ 2 ^ 64 := by
  unfold pageMemalign at hblock
  by_cases hzero : total = 0#64
  · rw [if_pos hzero] at hblock
    exact (hp (Prod.mk.inj (Option.some.inj hblock)).1.symm).elim
  rw [if_neg hzero] at hblock
  have horder := toNat_pageOrder htotal hzero
  have hle : Nat.clog 2 (total.toNat / 4096) ≤ 52 := by
    refine Nat.clog_le_of_le_pow ?_
    have := total.isLt
    omega
  obtain ⟨result, s', hcall, hspec⟩ := allocPages_spec h (by omega : (pageOrder total).toNat < 64)
  obtain ⟨rfl, rfl⟩ := Prod.mk.inj (Option.some.inj (hcall.symm.trans hblock))
  rcases hspec with ⟨hnull, -⟩ | ⟨hlt, haligned, before, after, hsplit, hlist, -⟩
  · exact (hp hnull).elim
  · rw [horder] at hlt haligned hsplit
    have hfits := aligned_run_fits hlt haligned
    have hholds : total.toNat / 4096 ≤ 2 ^ Nat.clog 2 (total.toNat / 4096) :=
      Nat.le_pow_clog (by omega) _
    have hwhole := isPage_iff.mp htotal
    have hpage : IsPage result := by
      rw [isPage_iff]
      exact Nat.mod_eq_zero_of_dvd
        (Nat.dvd_trans (Nat.dvd_mul_left _ _) (Nat.dvd_of_mod_eq_zero haligned))
    exact ⟨before, after, hsplit, hlist, hzero, hpage, by omega, by omega⟩

theorem PAGE_SIZE_eq_two_pow : PAGE_SIZE = BitVec.ofNat 64 (2 ^ 12) := by decide

theorem isPage_blockBytesFor {k : Nat} (hk : k < 64) (size : Word) :
    IsPage (blockBytesFor PAGE_SIZE (BitVec.ofNat 64 (2 ^ k)) size) := by
  rw [isPage_iff, PAGE_SIZE_eq_two_pow, toNat_blockBytesFor (by omega) hk]
  split_ifs
  · exact roundUp_mod _ 12
  · rfl

theorem vm_block {H : Heap} {free : List Word} (h : H.Consistent free) {k : Nat} (hk : k ≤ 12)
    {size : Word} (hsize : wholeBlock 12 k size.toNat < 2 ^ 44)
    (hroom : H.vm.HasRoom (BitVec.ofNat 64 (2 ^ k)) size) :
    ∃ p v rest maps, vmMemalign H.vm (blkalign PAGE_SIZE (BitVec.ofNat 64 (2 ^ k)))
        (blockBytesFor PAGE_SIZE (BitVec.ofNat 64 (2 ^ k)) size) = some (p, v) ∧
      p ≠ 0#64 ∧ Mapped v rest maps ∧
      LaidOut k p (blockBytesFor PAGE_SIZE (BitVec.ofNat 64 (2 ^ k)) size) size
        (blockPtr (BitVec.ofNat 64 (2 ^ k)) p) ∧
      ∀ a : Word, p.toNat ≤ a.toNat →
        a.toNat < p.toNat + (blockBytesFor PAGE_SIZE (BitVec.ofNat 64 (2 ^ k)) size).toNat →
        ∃ f, (pageOf a, f) ∈ maps := by
  have hpage := isPage_blockBytesFor (by omega : k < 64) size
  have htotal := toNat_blockBytesFor_of_lt (m := 12) (by omega) (by omega) size
    (by omega : wholeBlock 12 k size.toNat < 2 ^ 64)
  rw [← PAGE_SIZE_eq_two_pow] at htotal
  have hpadded := le_wholeBlock 12 k size.toNat
  have hblk : blkalign PAGE_SIZE (BitVec.ofNat 64 (2 ^ k)) = PAGE_SIZE := by
    rw [PAGE_SIZE_eq_two_pow, blkalign_eq (by omega) (by omega), Nat.max_eq_left (by omega)]
  obtain ⟨hused, hample⟩ := hroom
  change _ + (blockBytesFor PAGE_SIZE _ _).toNat ≤ _ at hused
  change AmpleFrames _ _ (_ - blockBytesFor PAGE_SIZE _ _)
    ((blockBytesFor PAGE_SIZE _ _).toNat / 4096)
    at hample
  rw [hblk]
  generalize blockBytesFor PAGE_SIZE (BitVec.ofNat 64 (2 ^ k)) size = total at *
  have hlarge : 16 ≤ paddedSize k size.toNat := by
    unfold paddedSize
    omega
  have hpos : 0 < total.toNat := by omega
  have hholds : paddedSize k size.toNat ≤ total.toNat := by omega
  obtain ⟨v, maps, rest, hcall, -, hbase, hfst, -, -, hplaced, -⟩ :=
    h.vmMemalign hpage hpos (by omega) hused hample
  have htop := toNat_vfreeTop_sub hpos hused
  have haligned := isPage_iff.mp hbase
  have hlaid := laidOut_blockPtr (by omega : k < 64) (by omega)
    (by omega : (H.vm.vfreeTop - total).toNat + 16 < 2 ^ 64) hholds (by omega)
  let b : Block := ⟨blockPtr (BitVec.ofNat 64 (2 ^ k)) (H.vm.vfreeTop - total), size,
    H.vm.vfreeTop - total, maps⟩
  obtain ⟨hformed, hbytes⟩ : b.Formed ∧ maps.length * 4096 = total.toNat :=
    Block.formed_of_pageRange hbase hpage hfst (by omega) (by omega) hlaid.low hlaid.word hlaid.user
  refine ⟨_, v, rest, _, hcall, ?_, (hplaced b rfl hformed).mapped, hlaid, fun a hlow hhigh => ?_⟩
  · intro hnull
    rw [hnull] at htop
    change 0 = _ at htop
    omega
  · obtain ⟨f, hf⟩ := hformed.covers hlow (by
      change a.toNat < (H.vm.vfreeTop - total).toNat + maps.length * 4096
      omega)
    exact ⟨f, List.mem_flatMap.mpr ⟨b, List.mem_cons_self, hf⟩⟩

/-! ### Layout and way back -/

/-- **Every block is laid out well and found again**, for each of the backends: the early one with
any minimum alignment, the one for pages from any freelist, and the virtual one in any consistent
heap. The block is the one that the backend returns, and no sum leaves the 64 bits (nor the count of
pages the 32 bits of `vm_memalign`). -/
theorem memalign_delivers_and_free_returns :
    (∀ (m k : Nat) (s s₁ : EarlyMachine) (size p : Word), m < 64 → k < 64 →
      wholeBlock m k size.toNat < 2 ^ 64 →
      s.phys.NoWrap (blkalign (BitVec.ofNat 64 (2 ^ m)) (BitVec.ofNat 64 (2 ^ k)))
        (blockBytesFor (BitVec.ofNat 64 (2 ^ m)) (BitVec.ofNat 64 (2 ^ k)) size) →
      (earlyAllocOps (BitVec.ofNat 64 (2 ^ m))).memalign s
        (blkalign (BitVec.ofNat 64 (2 ^ m)) (BitVec.ofNat 64 (2 ^ k)))
        (blockBytesFor (BitVec.ofNat 64 (2 ^ m)) (BitVec.ofNat 64 (2 ^ k)) size) = some (p, s₁) →
      p ≠ 0#64 → Delivers (earlyAllocOps (BitVec.ofNat 64 (2 ^ m))) s k size p) ∧
    (∀ (k : Nat) (s s₁ : Machine) (pages : List Word) (size p : Word), k < 64 → FreeList s pages →
      wholeBlock 12 k size.toNat < 2 ^ 64 →
      pageMemalign s (blkalign PAGE_SIZE (BitVec.ofNat 64 (2 ^ k)))
        (blockBytesFor PAGE_SIZE (BitVec.ofNat 64 (2 ^ k)) size) = some (p, s₁) →
      p ≠ 0#64 → Delivers pageAllocOps s k size p) ∧
    (∀ (k : Nat) (H : Heap) (free : List Word) (v : Vm) (size p : Word), k ≤ 12 →
      H.Consistent free →
      wholeBlock 12 k size.toNat < 2 ^ 44 → H.vm.HasRoom (BitVec.ofNat 64 (2 ^ k)) size →
      vmMemalign H.vm (blkalign PAGE_SIZE (BitVec.ofNat 64 (2 ^ k)))
        (blockBytesFor PAGE_SIZE (BitVec.ofNat 64 (2 ^ k)) size) = some (p, v) →
      Delivers vmallocOps H.vm k size p) := by
  refine ⟨?_, ?_, ?_⟩
  · intro m k s s₁ size p hm hk hsize hwrap hblock hp
    obtain ⟨haligned, -, hfits⟩ := early_block hm hk hwrap hblock hp
    have htotal := toNat_blockBytesFor_of_lt hm hk size hsize
    have hpadded := htotal ▸ le_wholeBlock m k size.toNat
    have hlarge : 16 ≤ paddedSize k size.toNat := by
      unfold paddedSize
      omega
    have hlaid := laidOut_blockPtr hk haligned (by omega) hpadded (Nat.le_of_lt hfits)
    exact delivers_of_laidOut (accessible_earlyAllocOps _) hblock trivial hlaid fun _ _ _ => trivial
  · intro k s s₁ pages size p hk hfree hsize hblock hp
    obtain ⟨-, -, -, -, -, hpage, hle, hfits⟩ :=
      page_block hfree (isPage_blockBytesFor hk size) hblock hp
    have htotal := toNat_blockBytesFor_of_lt (m := 12) (by omega) hk size hsize
    rw [← PAGE_SIZE_eq_two_pow] at htotal
    have hpadded := htotal ▸ le_wholeBlock 12 k size.toNat
    have haligned := isPage_iff.mp hpage
    have hlt := p.isLt
    have hlaid := laidOut_blockPtr hk (by omega) (by omega) hpadded
      (Nat.le_trans (Nat.add_le_add_left hle _) hfits)
    exact delivers_of_laidOut accessible_pageAllocOps hblock trivial hlaid fun _ _ _ => trivial
  · intro k H free v size p hk hcons hsize hroom hblock
    obtain ⟨p', v', rest, maps, hblock', -, hmapped, hlaid, hcovers⟩ :=
      vm_block hcons hk hsize hroom
    obtain ⟨rfl, rfl⟩ := Prod.mk.inj (Option.some.inj (hblock'.symm.trans hblock))
    exact delivers_of_laidOut (accessible_vmallocOps rest maps) hblock hmapped hlaid hcovers

/-- A block of 100 bytes of each backend: with alignment 64 from the early region, from three free
    pages, and from the virtual heap. -/
theorem memalign_delivers_100_bytes :
    Delivers (earlyAllocOps DEFAULT_MINIMUM_ALIGNMENT)
      ⟨fun _ => 0#64, bootRegion⟩ 6 100#64 0x1000#64 ∧
      Delivers pageAllocOps threePages 3 100#64 0x2000#64 ∧
      ∃ (v : Vm) (p : Word), Heap.Reachable ⟨v, [], []⟩ ∧ Delivers vmallocOps v 3 100#64 p := by
  obtain ⟨hearly, hpage, hvm⟩ := memalign_delivers_and_free_returns
  refine ⟨?_, ?_, ?_⟩
  · exact hearly 5 6 _ _ 100#64 0x1000#64 (by decide) (by decide) (by decide)
      (by decide) rfl (by decide)
  · exact hpage 3 _ _ _ 100#64 0x2000#64 (by decide) freeList_threePages (by decide) rfl (by decide)
  · obtain ⟨v, free, hreach, hcons, hroom, -⟩ := exists_heap_with_room
    exact ⟨v, _, hreach, hvm 3 ⟨v, [], []⟩ free _ 100#64 _ (by decide) hcons (by decide) hroom rfl⟩

/-! ### Giving pages back -/

theorem roundUp_le_of_mod {x y m : Nat} (hle : x ≤ y) (h : y % 2 ^ m = 0) : roundUp x m ≤ y := by
  obtain ⟨q, rfl⟩ := Nat.dvd_of_mod_eq_zero h
  have hpos := Nat.two_pow_pos m
  have hdiv : (x + (2 ^ m - 1)) / 2 ^ m ≤ q := by
    rw [← Nat.lt_succ_iff, Nat.div_lt_iff_lt_mul hpos, Nat.succ_mul, Nat.mul_comm q]
    omega
  rw [roundUp, Nat.mul_comm]
  exact Nat.mul_le_mul_left _ hdiv

/-- The two words lie in the first page of the block or at the end of a page, so they are no links
    of the freelist. This does not depend on the size, which may have wrapped. -/
theorem metadata_ne_page {k : Nat} (hk : k < 64) {p q : Word} (hp : IsPage p) (hq : IsPage q)
    (hne : q ≠ p) :
    blockPtr (BitVec.ofNat 64 (2 ^ k)) p + OFS_SLACK ≠ q ∧
      blockPtr (BitVec.ofNat 64 (2 ^ k)) p + OFS_SIZE ≠ q := by
  rw [isPage_iff] at hp hq
  have hlt := p.isLt
  by_cases hsmall : k < 12
  · have hmod : (p.toNat + 2048) % 2 ^ max 3 k = 0 :=
      mod_two_pow_of_le (by omega : max 3 k ≤ 11) (by omega)
    have hround := roundUp_le_of_mod (by omega : p.toNat + 16 ≤ p.toNat + 2048) hmod
    have hle := le_roundUp (p.toNat + 16) (max 3 k)
    have hptr := toNat_blockPtr hk (by omega) (by omega : roundUp (p.toNat + 16) (max 3 k) < 2 ^ 64)
    have hslack := toNat_add_OFS_SLACK
      (by omega : 16 ≤ (blockPtr (BitVec.ofNat 64 (2 ^ k)) p).toNat)
    have hsize := toNat_add_OFS_SIZE (by omega : 16 ≤ (blockPtr (BitVec.ofNat 64 (2 ^ k)) p).toNat)
    constructor
    · rintro rfl
      refine hne (BitVec.eq_of_toNat_eq ?_)
      omega
    · rintro rfl
      omega
  · -- the pointer is the start of a page
    have hpage : (blockPtr (BitVec.ofNat 64 (2 ^ k)) p).toNat % 4096 = 0 := by
      rw [blockPtr_eq hk, toNat_ALIGN_eq (by omega)]
      split_ifs
      · exact mod_two_pow_of_le (by omega : 12 ≤ max 3 k) (roundUp_mod _ _)
      · rfl
    constructor
    · rintro rfl
      rw [BitVec.toNat_add, show (OFS_SLACK : Word).toNat = 2 ^ 64 - 16 by decide] at hq
      omega
    · rintro rfl
      rw [BitVec.toNat_add, show (OFS_SIZE : Word).toNat = 2 ^ 64 - 8 by decide] at hq
      omega

/-- Writes outside the first words of the free pages keep the freelist. -/
theorem accessible_freeList (pages : List Word) :
    Accessible pageAllocOps (fun s => FreeList s pages) fun a => a ∉ pages where
  load _ _ := ⟨_, rfl⟩
  store := by
    intro s a h ha value
    refine ⟨{ s with mem := Function.update s.mem a value }, rfl, h.frame rfl fun q hq => ?_,
      congrArg some (Function.update_self _ _ _),
      fun _ _ hne => congrArg some (Function.update_of_ne hne _ _)⟩
    exact Function.update_of_ne (ne_of_mem_of_not_mem hq ha) _ _

theorem pageRange_subset {p q : Word} {n n' : Nat} (hle : n ≤ n') (hq : q ∈ pageRange p n) :
    q ∈ pageRange p n' := by
  obtain ⟨i, hi, rfl⟩ := mem_pageRange.mp hq
  exact mem_pageRange.mpr ⟨i, by omega, rfl⟩

/-- A shorter range than the run that was taken is the whole run only if it has its length. -/
theorem sameSet_pageRange_iff {p : Word} {before after : List Word} {n N : Nat} (hle : n ≤ N)
    (hpos : 0 < N) (hN : N ≤ 2 ^ 52) (hnodup : (before ++ pageRange p N ++ after).Nodup) :
    {q | q ∈ pageRange p n ++ (before ++ after)} = {q | q ∈ before ++ pageRange p N ++ after} ↔
      n = N := by
  constructor
  · intro hsame
    let last := p + BitVec.ofNat 64 (4096 * (N - 1))
    have hlast : last ∈ pageRange p N := mem_pageRange.mpr ⟨N - 1, by omega, rfl⟩
    have hmem : last ∈ {q | q ∈ pageRange p n ++ (before ++ after)} := by
      rw [hsame]
      simp [hlast]
    rcases List.mem_append.mp hmem with hin | hout
    · obtain ⟨i, hi, heq⟩ := mem_pageRange.mp hin
      have hnat := congrArg BitVec.toNat heq
      simp only [last, BitVec.toNat_add, BitVec.toNat_ofNat] at hnat
      omega
    · exact (notMem_of_mem_middle hnodup hlast hout).elim
  · rintro rfl
    ext q
    simp only [Set.mem_ofPred_eq, List.mem_append]
    tauto

theorem pageFree_of_run {s : Machine} {before after : List Word} {p total : Word} {N : Nat}
    (h : FreeList s (before ++ after)) (hnodup : (before ++ pageRange p N ++ after).Nodup)
    (hzero : 0#64 ∉ before ++ pageRange p N ++ after) (hp : IsPage p) (htotal : IsPage total)
    (hne : total ≠ 0#64) (hle : total.toNat / 4096 ≤ N) (hfits : p.toNat + total.toNat ≤ 2 ^ 64) :
    ∃ s', pageFree s p total = some s' ∧
      FreeList s' (pageRange p (total.toNat / 4096) ++ (before ++ after)) := by
  have hfresh : ∀ q ∈ pageRange p (total.toNat / 4096), q ∉ before ++ after := fun q hq =>
    notMem_of_mem_middle hnodup (pageRange_subset hle hq)
  have hnull : 0#64 ∉ pageRange p (total.toNat / 4096) := fun hmem =>
    hzero (by simp [pageRange_subset hle hmem])
  obtain ⟨s', hcall, hlist, -⟩ := freePages_spec h hp htotal hne hfits hnull hfresh
  exact ⟨s', hcall, hlist⟩

/-- **`free` undoes `memalign`** on the set of free pages exactly if the size, rounded up to whole
    pages, is a power of two of pages: the allocator takes a power of two, and gives back what the
    size says. -/
theorem page_free_restores_iff {k : Nat} (hk : k < 64) {s s₁ : Machine} {pages : List Word}
    {size p : Word} (h : FreeList s pages)
    (hblock : pageMemalign s (blkalign PAGE_SIZE (BitVec.ofNat 64 (2 ^ k)))
      (blockBytesFor PAGE_SIZE (BitVec.ofNat 64 (2 ^ k)) size) = some (p, s₁)) (hp : p ≠ 0#64) :
    ∃ ptr s' s'' pages', memalign pageAllocOps s (BitVec.ofNat 64 (2 ^ k)) size = some (ptr, s') ∧
      free pageAllocOps s' ptr = some s'' ∧ FreeList s'' pages' ∧
      ({q | q ∈ pages'} = {q | q ∈ pages} ↔
        ∃ j, roundUp (paddedSize k size.toNat % 2 ^ 64) 12 = 4096 * 2 ^ j) := by
  have hpage := isPage_blockBytesFor hk size
  obtain ⟨before, after, rfl, hlist, hne, hpPage, hholds, hfits⟩ := page_block h hpage hblock hp
  have hbytes := toNat_blockBytesFor (m := 12) (by omega) hk size
  rw [← PAGE_SIZE_eq_two_pow] at hbytes
  have hpos : (blockBytesFor PAGE_SIZE (BitVec.ofNat 64 (2 ^ k)) size).toNat ≠ 0 := fun h0 =>
    hne (BitVec.eq_of_toNat_eq h0)
  have hround : roundUp (paddedSize k size.toNat % 2 ^ 64) 12 =
      (blockBytesFor PAGE_SIZE (BitVec.ofNat 64 (2 ^ k)) size).toNat := by
    rw [hbytes] at hpos ⊢
    split_ifs at hpos ⊢
    · rfl
    · exact (hpos rfl).elim
  rw [hround]
  have hwhole := isPage_iff.mp hpage
  have hpages : ∀ q ∈ before ++ after, q ≠ p := by
    rintro q hq rfl
    exact notMem_of_mem_middle h.nodup (mem_pageRange.mpr ⟨0, Nat.two_pow_pos _, by simp⟩) hq
  have hmeta := fun q (hq : q ∈ before ++ after) =>
    metadata_ne_page hk hpPage (hlist.isPage q hq) (hpages q hq)
  obtain ⟨s', hcall, hlist', hrecorded⟩ := memalign_recorded (accessible_freeList (before ++ after))
    hblock hlist (fun hmem => (hmeta _ hmem).1 rfl) fun hmem => (hmeta _ hmem).2 rfl
  have hclog : Nat.clog 2 ((blockBytesFor PAGE_SIZE (BitVec.ofNat 64 (2 ^ k)) size).toNat / 4096) ≤
      52 :=
    Nat.clog_le_of_le_pow (by
      have := (blockBytesFor PAGE_SIZE (BitVec.ofNat 64 (2 ^ k)) size).isLt
      omega)
  have hfree := hrecorded.free
  change _ = pageFree s' p (blockBytesFor PAGE_SIZE (BitVec.ofNat 64 (2 ^ k)) size) at hfree
  generalize blockBytesFor PAGE_SIZE (BitVec.ofNat 64 (2 ^ k)) size = total at *
  have hle : total.toNat / 4096 ≤ 2 ^ Nat.clog 2 (total.toNat / 4096) :=
    Nat.le_pow_clog (by omega) _
  obtain ⟨s'', hgive, hlist''⟩ := pageFree_of_run hlist' h.nodup h.zero_notMem hpPage hpage hne hle
    (by omega)
  refine ⟨_, s', s'', _, hcall, hfree.trans hgive, hlist'', ?_⟩
  rw [sameSet_pageRange_iff hle (Nat.two_pow_pos _) (Nat.pow_le_pow_right (by omega) hclog) h.nodup]
  constructor
  · intro heq
    exact ⟨Nat.clog 2 (total.toNat / 4096), by omega⟩
  · rintro ⟨j, hj⟩
    have hcount : total.toNat / 4096 = 2 ^ j := by omega
    rw [hcount, Nat.clog_pow 2 j (by omega)]

theorem page_free_restores_one_page :
    ∃ ptr s' s'' pages', memalign pageAllocOps threePages (BitVec.ofNat 64 (2 ^ 3)) 100#64 =
      some (ptr, s') ∧
      free pageAllocOps s' ptr = some s'' ∧ FreeList s'' pages' ∧
      {q | q ∈ pages'} = {q | q ∈ [0x2000#64, 0x4000#64, 0x5000#64]} := by
  obtain ⟨ptr, s', s'', pages', hcall, hfree, hlist, hiff⟩ :=
    page_free_restores_iff (by decide : 3 < 64) freeList_threePages
      (rfl : pageMemalign threePages _ (blockBytesFor PAGE_SIZE (BitVec.ofNat 64 (2 ^ 3)) 100#64) =
        some (0x2000#64, _)) (by decide)
  exact ⟨ptr, s', s'', pages', hcall, hfree, hlist, hiff.mpr ⟨0, by decide⟩⟩

/-- Four pages at `0x4000`, made free by one call of `free_pages`. -/
def fourPages : Machine :=
  (freePages ⟨fun _ => 0#64, 0#64⟩ 0x4000#64 0x4000#64).getD ⟨fun _ => 0#64, 0#64⟩

/-- For 8192 bytes and the metadata four pages are taken, and three are given back. -/
theorem page_free_loses_page :
    FreeList fourPages [0x4000#64, 0x5000#64, 0x6000#64, 0x7000#64] ∧
      ∃ s', ((memalign pageAllocOps fourPages 8#64 8192#64).bind fun r =>
        free pageAllocOps r.2 r.1) =
          some s' ∧
        FreeList s' [0x4000#64, 0x5000#64, 0x6000#64] := by
  have hpage : ∀ q ∈ pageRange 0x4000#64 4, IsPage q := fun q hq =>
    isPage_of_mem_pageRange (by decide) hq
  refine ⟨⟨⟨rfl, by decide, rfl, by decide, rfl, by decide, rfl, by decide, rfl⟩, by simp, hpage⟩,
    _, rfl, ⟨rfl, by decide, rfl, by decide, rfl, by decide, rfl⟩, by simp, ?_⟩
  exact fun q hq => hpage q (List.mem_append_left [0x7000#64] hq)

end AcrnGuest.Alloc
