import AcrnGuest.PagingBlocks
import AcrnGuest.Vmalloc

/-!
# Mapping device memory (`ioremap`, `lib/x86/io.c`, and `vmap`, `lib/vmalloc.c`)

`vmap` maps the pages from the one of the given address on. It takes their number from the size
alone: a range that starts late in its first page may end one page behind the last one that is
mapped. `ioremap` adds the offset of the address in its page to the result and does not enlarge
the size either. Behind the end of the mapped pages lies what was mapped before, which is another
block or nothing.
-/

namespace AcrnGuest

open Radix

/-! ### The source -/

/-- The loop `while (pages--)` of `vmap`. -/
def vmapPages (root : Word) : Machine → Word → Word → Nat → Machine
  | s, _, _, 0 => s
  | s, phys, p, pages + 1 =>
      vmapPages root (installPage s root phys p).1 (phys + PAGE_SIZE) (p + PAGE_SIZE) pages

def vmap (v : Vm) (phys size : Word) : Word × Vm :=
  let size := (size + PAGE_SIZE - 1#64) &&& ~~~ (PAGE_SIZE - 1#64)
  let pages : BitVec 32 := (size / PAGE_SIZE).setWidth 32
  let mem := allocVpages v (pages.setWidth 64)
  let phys := phys &&& ~~~ (PAGE_SIZE - 1#64)
  (mem.1, { mem.2 with machine := vmapPages v.pageRoot v.machine phys mem.1 pages.toNat })

def ioremap (v : Vm) (physAddr size : Word) : Word × Vm :=
  let base := physAddr &&& PAGE_MASK
  let offset := physAddr - base
  let mem := vmap v physAddr size
  (mem.1 + offset, mem.2)

/-! ### The loop -/

variable {s : Machine} {v : Vm} {root phys p size : Word} {free : List Word} {n : Nat}

/-- **The loop of `vmap`** maps the pages to consecutive physical pages, and no others. -/
theorem vmapPages_spec (h : Stocked s root free) (hphys : phys.toNat % 4096 = 0)
    (hfits : phys.toNat + 4096 * n ≤ 2 ^ 52)
    (hpages : ∀ q ∈ pageRange p n, IsPage q ∧ Canonical q ∧ NoLargePage s.mem root q)
    (hnodup : (pageRange p n).Nodup)
    (henough : tablesNeeded s.mem root (pageRange p n) ≤ free.length) :
    (∀ i, i < n → ∀ va, pageOf va = p + BitVec.ofNat 64 (4096 * i) →
      (translate (vmapPages root s phys p n).mem root va).map Translation.phys =
        some (phys + BitVec.ofNat 64 (4096 * i) + BitVec.ofNat 64 (va.toNat % 4096))) ∧
    ∀ va, pageOf va ∉ pageRange p n →
      translate (vmapPages root s phys p n).mem root va = translate s.mem root va := by
  induction n generalizing s phys p free with
  | zero => exact ⟨fun i hi => absurd hi (Nat.not_lt_zero i), fun _ _ => rfl⟩
  | succ n ih =>
      obtain ⟨hp, hcanon, hpath⟩ := hpages p List.mem_cons_self
      have hle := missingTables_le_tablesNeeded s.mem root p (pageRange (p + PAGE_SIZE) n)
      obtain ⟨taken, rest, hsplit, hstock, hinst⟩ := h.installPage hpath (hle.trans henough) phys
      have hother : ∀ va, pageOf va ≠ p →
          translate (installPage s root phys p).1.mem root va = translate s.mem root va := by
        intro va hva
        have hdiv : va.toNat / 4096 ≠ p.toNat / 4096 :=
          fun heq => hva ((pageOf_eq_pageOf_iff.mpr heq).trans hp)
        exact congrArg _ (leafOf_other hinst (Nat.le_refl 1) (by decide) hcanon hdiv)
      have hroom : tablesNeeded (installPage s root phys p).1.mem root
          (pageRange (p + PAGE_SIZE) n) ≤ rest.length := by
        have htotal := hsplit.length_eq
        have hcount : taken.length = missingTables s.mem root p 1 := hinst.count
        have hsum := tablesNeeded_cons hinst (pageRange (p + PAGE_SIZE) n)
        rw [pageRange] at henough
        rw [List.length_append] at htotal
        omega
      rw [pageRange, List.nodup_cons] at hnodup
      have hnext : (phys + PAGE_SIZE).toNat = phys.toNat + 4096 := by
        rw [PAGE_SIZE_eq]
        bv_omega
      have hpages' : ∀ q ∈ pageRange (p + PAGE_SIZE) n,
          IsPage q ∧ Canonical q ∧ NoLargePage (installPage s root phys p).1.mem root q := by
        intro q hq
        obtain ⟨hqPage, hqCanon, hqPath⟩ := hpages q (List.mem_cons_of_mem _ hq)
        exact ⟨hqPage, hqCanon, noLargePage_of_installed hinst hqPath⟩
      obtain ⟨hself, hrest⟩ :=
        ih hstock (by omega : (phys + PAGE_SIZE).toNat % 4096 = 0) (by omega) hpages'
        hnodup.2 hroom
      refine ⟨fun i hi va hva => ?_, fun va hva => ?_⟩
      · cases i with
        | zero =>
            have hva' : pageOf va = p := by simpa using hva
            have hphysPage : PhysPage phys := physPage_iff.mpr ⟨hphys, by omega⟩
            rw [vmapPages, hrest va (hva' ▸ hnodup.1),
              phys_of_installed hinst rfl hphysPage (hcanon.of_page hp hva')
              (pageOf_eq_pageOf_iff.mp (hva'.trans hp.symm))]
            simp
        | succ i =>
            have hshift : ∀ a : Word, a + PAGE_SIZE + BitVec.ofNat 64 (4096 * i) =
                a + BitVec.ofNat 64 (4096 * (i + 1)) := by
              intro a
              rw [PAGE_SIZE_eq]
              bv_omega
            rw [vmapPages, hself i (by omega) va (hva.trans (hshift p).symm), hshift]
      · rw [pageRange, List.mem_cons, not_or] at hva
        rw [vmapPages, hrest va hva.2, hother va hva.1]

/-! ### The mapped range -/

/-- What lies behind the mapped pages already continues the range. This is the case in particular if
    the range ends with them. -/
def RangeContinued (v : Vm) (phys size : Word) : Prop :=
  ∀ i, i < size.toNat → 4096 * blockPages size ≤ phys.toNat % 4096 + i →
    (translate v.machine.mem v.pageRoot
      (v.vfreeTop + BitVec.ofNat 64 (phys.toNat % 4096 + i - 4096 * blockPages size))).map
        Translation.phys =
        some (phys + BitVec.ofNat 64 i)

theorem rangeContinued_of_fits (h : phys.toNat % 4096 + size.toNat ≤ 4096 * blockPages size) :
    RangeContinued v phys size := by
  intro i hi hbehind
  omega

theorem ioremap_eq (v : Vm) (phys size : Word) :
    ioremap v phys size =
      (nextBlock v size + BitVec.ofNat 64 (phys.toNat % 4096),
        { v with
          machine := vmapPages v.pageRoot v.machine (pageOf phys) (nextBlock v size)
            (blockPages size)
          vfreeTop := nextBlock v size }) := by
  have hoffset : phys - (phys &&& PAGE_MASK) = BitVec.ofNat 64 (phys.toNat % 4096) := by
    have hbase : (phys &&& PAGE_MASK).toNat = phys.toNat / 4096 * 4096 := toNat_pageOf phys
    have hlt := phys.isLt
    apply BitVec.eq_of_toNat_eq
    rw [BitVec.toNat_sub, hbase, BitVec.toNat_ofNat]
    omega
  unfold ioremap vmap
  dsimp only
  rw [toNat_pages, allocVpages, PAGE_SIZE_mul, toNat_pages, hoffset]
  rfl

theorem pageOf_add_offset (hp : IsPage p) (j : Nat) :
    pageOf (p + BitVec.ofNat 64 j) = p + BitVec.ofNat 64 (4096 * (j / 4096)) ∧
      (p + BitVec.ofNat 64 j).toNat % 4096 = j % 4096 := by
  have haligned := isPage_iff.mp hp
  rw [pageOf_eq_iff, BitVec.toNat_add, BitVec.toNat_add, BitVec.toNat_ofNat, BitVec.toNat_ofNat]
  omega

section Range

variable (hstock : Stocked v.machine v.pageRoot free) (htop : IsPage v.vfreeTop)
  (hphys : phys.toNat + size.toNat < 2 ^ 52)
  (harea : ∀ q ∈ blockArea v size, Canonical q ∧ NoLargePage v.machine.mem v.pageRoot q)
  (henough : tablesNeeded v.machine.mem v.pageRoot (blockArea v size) ≤ free.length) {j : Nat}

include hstock htop hphys harea henough

/-- The bytes of the block are those from the start of the first physical page on, and what lies
    behind them is as before. -/
theorem ioremap_block (hj : j < 2 ^ 63) :
    (j < 4096 * blockPages size →
      (translate (ioremap v phys size).2.machine.mem v.pageRoot
        (nextBlock v size + BitVec.ofNat 64 j)).map
        Translation.phys = some (pageOf phys + BitVec.ofNat 64 j)) ∧
    (4096 * blockPages size ≤ j →
      translate (ioremap v phys size).2.machine.mem v.pageRoot
        (nextBlock v size + BitVec.ofNat 64 j) =
        translate v.machine.mem v.pageRoot
          (v.vfreeTop + BitVec.ofNat 64 (j - 4096 * blockPages size))) := by
  have hcount : blockPages size ≤ (size.toNat + 4095) / 4096 := by
    unfold blockPages
    omega
  have hbase : (pageOf phys).toNat = phys.toNat / 4096 * 4096 := toNat_pageOf phys
  have hlow : IsPage (nextBlock v size) := by
    have haligned := isPage_iff.mp htop
    rw [isPage_iff, nextBlock, BitVec.toNat_sub, BitVec.toNat_ofNat]
    omega
  obtain ⟨hself, hother⟩ := vmapPages_spec hstock (by omega : (pageOf phys).toNat % 4096 = 0)
    (by omega : (pageOf phys).toNat + 4096 * blockPages size ≤ 2 ^ 52)
    (fun q hq => ⟨isPage_of_mem_pageRange hlow hq, harea q hq⟩)
    (nodup_pageRange _ (by omega)) henough
  obtain ⟨hpage, hrem⟩ := pageOf_add_offset hlow j
  rw [ioremap_eq]
  refine ⟨fun hin => ?_, fun hbehind => ?_⟩
  · rw [hself (j / 4096) (by omega) _ hpage, hrem, BitVec.add_assoc, ← BitVec.ofNat_add,
      Nat.div_add_mod]
  · have hout : pageOf (nextBlock v size + BitVec.ofNat 64 j) ∉ pageRange (nextBlock v size)
        (blockPages size) := by
      rw [hpage, mem_pageRange]
      rintro ⟨k, hk, heq⟩
      have hsame := congrArg BitVec.toNat ((BitVec.add_right_inj _).mp heq)
      rw [BitVec.toNat_ofNat, BitVec.toNat_ofNat] at hsame
      omega
    have haddr : nextBlock v size + BitVec.ofNat 64 j =
        v.vfreeTop + BitVec.ofNat 64 (j - 4096 * blockPages size) := by
      have hlt := v.vfreeTop.isLt
      apply BitVec.eq_of_toNat_eq
      rw [nextBlock, BitVec.toNat_add, BitVec.toNat_sub, BitVec.toNat_add, BitVec.toNat_ofNat,
        BitVec.toNat_ofNat, BitVec.toNat_ofNat]
      omega
    rw [hother _ hout, haddr]

end Range

/-- **`ioremap`** maps the whole range exactly if what lies behind the mapped pages continues it. -/
theorem ioremap_translates_iff (hstock : Stocked v.machine v.pageRoot free)
    (htop : IsPage v.vfreeTop) (hphys : phys.toNat + size.toNat < 2 ^ 52)
    (harea : ∀ q ∈ blockArea v size, Canonical q ∧ NoLargePage v.machine.mem v.pageRoot q)
    (henough : tablesNeeded v.machine.mem v.pageRoot (blockArea v size) ≤ free.length) :
    (∀ i, i < size.toNat →
        (translate (ioremap v phys size).2.machine.mem (ioremap v phys size).2.pageRoot
          ((ioremap v phys size).1 + BitVec.ofNat 64 i)).map Translation.phys =
            some (phys + BitVec.ofNat 64 i))
      ↔ RangeContinued v phys size := by
  refine forall_congr' fun i => imp_congr_right fun hi => ?_
  have hreturn : (ioremap v phys size).1 + BitVec.ofNat 64 i =
      nextBlock v size + BitVec.ofNat 64 (phys.toNat % 4096 + i) := by
    rw [ioremap_eq, BitVec.add_assoc, ← BitVec.ofNat_add]
  have hroot : (ioremap v phys size).2.pageRoot = v.pageRoot := by rw [ioremap_eq]
  obtain ⟨hin, hbehind⟩ := ioremap_block hstock htop hphys harea henough
    (by omega : phys.toNat % 4096 + i < 2 ^ 63)
  rw [hreturn, hroot]
  by_cases hj : phys.toNat % 4096 + i < 4096 * blockPages size
  · refine iff_of_true ((hin hj).trans ?_) fun hle => absurd hj (Nat.not_lt_of_le hle)
    have hsplit : pageOf phys + BitVec.ofNat 64 (phys.toNat % 4096 + i) =
        phys + BitVec.ofNat 64 i := by
      apply BitVec.eq_of_toNat_eq
      rw [BitVec.toNat_add, BitVec.toNat_add, toNat_pageOf, BitVec.toNat_ofNat, BitVec.toNat_ofNat]
      omega
    rw [hsplit]
  · rw [hbehind (Nat.le_of_not_lt hj), imp_iff_right (Nat.le_of_not_lt hj)]

/-! ### An empty table -/

def emptyTableVm : Vm := ⟨emptyTableMachine, 0#64, 0x1000#64⟩

theorem emptyTableVm_stocked :
    Stocked emptyTableVm.machine 0x1000#64 [0x2000#64, 0x3000#64, 0x4000#64] := by
  refine stocked_of_empty emptyTableMachine_emptyTable emptyTableMachine_freeList ?_
  rw [List.forall_mem_cons, List.forall_mem_cons, List.forall_mem_singleton]
  decide

theorem emptyTableVm_area {size : Word} (hsize : blockPages size = 1) :
    (∀ q ∈ blockArea emptyTableVm size, Canonical q ∧
      NoLargePage emptyTableVm.machine.mem 0x1000#64 q) ∧
      tablesNeeded emptyTableVm.machine.mem 0x1000#64 (blockArea emptyTableVm size) = 3 := by
  rw [blockArea, nextBlock, hsize, pageRange, pageRange, List.forall_mem_singleton,
    tablesNeeded_singleton]
  exact ⟨⟨by decide, noLargePage_of_empty emptyTableMachine_emptyTable _⟩,
    missingTables_of_empty emptyTableMachine_emptyTable _⟩

/-- The `0x100` bytes at `0x7010` are in one page. -/
theorem ioremap_translates_inside_page :
    Stocked emptyTableVm.machine 0x1000#64 [0x2000#64, 0x3000#64, 0x4000#64] ∧
      ∀ i, i < (0x100#64 : Word).toNat →
        (translate (ioremap emptyTableVm 0x7010#64 0x100#64).2.machine.mem
          (ioremap emptyTableVm 0x7010#64 0x100#64).2.pageRoot
          ((ioremap emptyTableVm 0x7010#64 0x100#64).1 + BitVec.ofNat 64 i)).map Translation.phys =
            some (0x7010#64 + BitVec.ofNat 64 i) := by
  obtain ⟨harea, htables⟩ := emptyTableVm_area (by decide : blockPages 0x100#64 = 1)
  exact ⟨emptyTableVm_stocked,
    (ioremap_translates_iff emptyTableVm_stocked (by decide) (by decide) harea htables.le).mpr
      (rangeContinued_of_fits (by decide))⟩

/-- **The slip**: of the eight bytes at `0x7ffc`, the last four are in a page that is not mapped. -/
theorem ioremap_leaves_last_page_out :
    Stocked emptyTableVm.machine 0x1000#64 [0x2000#64, 0x3000#64, 0x4000#64] ∧
      (∀ q ∈ blockArea emptyTableVm 8#64, Canonical q ∧
        NoLargePage emptyTableVm.machine.mem 0x1000#64 q) ∧
      tablesNeeded emptyTableVm.machine.mem 0x1000#64 (blockArea emptyTableVm 8#64) = 3 ∧
      translate (ioremap emptyTableVm 0x7ffc#64 8#64).2.machine.mem 0x1000#64
        ((ioremap emptyTableVm 0x7ffc#64 8#64).1 + 4#64) = none := by
  obtain ⟨harea, htables⟩ := emptyTableVm_area (by decide : blockPages 8#64 = 1)
  exact ⟨emptyTableVm_stocked, harea, htables, by decide +kernel⟩

end AcrnGuest
