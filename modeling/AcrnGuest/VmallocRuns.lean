import AcrnGuest.AllocPageRuns
import AcrnGuest.Vmalloc
import Mathlib.Data.List.Pairwise
import Mathlib.Tactic.IntervalCases

/-!
# Every block owns its pages

A run is a sequence of calls of `memalign`, `malloc` and `free` after `setup_vm`,
between which the owners of live blocks write to them. `Heap` adds to the machine
the blocks that were handed out, with the physical page behind each of their
pages. `Consistent` is the invariant: the pages of live blocks, the table pages and
the free pages are disjoint, no virtual page belongs to two blocks, and the two
words below the address of a live block are what `free` needs.
-/

namespace AcrnGuest

open Radix

/-! ### Virtual memory -/

/-- The physical address of the word at `va` if its page is mapped to `f`. -/
def frameAddr (f va : Word) : Word := f + BitVec.ofNat 64 (va.toNat % 4096)

theorem toNat_frameAddr {f : Word} (hf : PhysPage f) (va : Word) :
    (frameAddr f va).toNat = f.toNat + va.toNat % 4096 := by
  obtain ⟨-, hlt⟩ := physPage_iff.mp hf
  rw [frameAddr, BitVec.toNat_add, BitVec.toNat_ofNat]
  omega

theorem pageOf_frameAddr {f : Word} (hf : PhysPage f) (va : Word) :
    pageOf (frameAddr f va) = f := by
  obtain ⟨haligned, -⟩ := physPage_iff.mp hf
  rw [pageOf_eq_iff, toNat_frameAddr hf]
  omega

theorem frameAddr_injective {f va va' : Word} (hf : PhysPage f) (hpage : pageOf va = pageOf va')
    (h : frameAddr f va = frameAddr f va') : va = va' := by
  have hnat := congrArg BitVec.toNat h
  rw [toNat_frameAddr hf, toNat_frameAddr hf] at hnat
  rw [pageOf_eq_pageOf_iff] at hpage
  apply BitVec.eq_of_toNat_eq
  omega

/-- The pages of `maps` are mapped as listed, to pages that belong to nothing else. -/
structure Mapped (v : Vm) (free : List Word) (maps : List (Word × Word)) : Prop where
  held : Held v.machine v.pageRoot free (maps.map Prod.snd)
  maps : Maps v.machine.mem v.pageRoot maps

section Mapped

variable {v : Vm} {free : List Word} {maps : List (Word × Word)} {va f : Word}

theorem Mapped.phys (h : Mapped v free maps) {pf : Word × Word} (hpf : pf ∈ maps) :
    PhysPage pf.2 := (h.held.phys pf.2 (List.mem_map_of_mem hpf)).1

theorem Mapped.translate (h : Mapped v free maps) (hpf : (pageOf va, f) ∈ maps) :
    translate v.machine.mem v.pageRoot va = some ⟨frameAddr f va, true, true⟩ := by
  rw [AcrnGuest.translate, h.maps _ hpf va rfl, Option.map_some, userLeaf_translation (h.phys hpf)]
  rfl

theorem Mapped.load (h : Mapped v free maps) (hpf : (pageOf va, f) ∈ maps) :
    v.load va = some (v.machine.mem (frameAddr f va)) := by
  rw [Vm.load, h.translate hpf]
  rfl

theorem Mapped.perm (h : Mapped v free maps) {maps' : List (Word × Word)}
    (hperm : maps.Perm maps') :
    Mapped v free maps' :=
  ⟨h.held.perm (hperm.map _), fun pf hpf => h.maps pf (hperm.mem_iff.mpr hpf)⟩

/-- **Virtual memory is memory.** A store changes the word at its address, and no other
    word of the mapped pages. -/
theorem Mapped.store (h : Mapped v free maps) (hpf : (pageOf va, f) ∈ maps) (value : Word) :
    ∃ v', v.store va value = some v' ∧ v'.vfreeTop = v.vfreeTop ∧ v'.pageRoot = v.pageRoot ∧
      Mapped v' free maps ∧
      (∀ a, leafOf v'.machine.mem v.pageRoot a = leafOf v.machine.mem v.pageRoot a) ∧
      v'.load va = some value ∧
      ∀ va' f', (pageOf va', f') ∈ maps → va' ≠ va → v'.load va' = v.load va' := by
  have hf : PhysPage f := h.phys hpf
  have hmem : pageOf (frameAddr f va) ∈ maps.map Prod.snd := by
    rw [pageOf_frameAddr hf]
    exact List.mem_map_of_mem hpf
  obtain ⟨hheld, hleaf⟩ := h.held.write hmem value
  let v' : Vm := { v with
    machine := { v.machine with mem := Function.update v.machine.mem (frameAddr f va) value } }
  have hstore : v.store va value = some v' := by
    rw [Vm.store, h.translate hpf]
    rfl
  have hmapped : Mapped v' free maps :=
    ⟨hheld, fun pf hpf a ha => (hleaf a).trans (h.maps pf hpf a ha)⟩
  refine ⟨v', hstore, rfl, rfl, hmapped, hleaf, ?_, ?_⟩
  · rw [hmapped.load hpf]
    exact congrArg some (Function.update_self _ _ _)
  · intro va' f' hpf' hne
    rw [hmapped.load hpf', h.load hpf']
    refine congrArg some (Function.update_of_ne ?_ _ _)
    intro heq
    -- the same physical page can only stand for the same virtual page
    have hf' : PhysPage f' := h.phys hpf'
    have hframe : f' = f := by
      rw [← pageOf_frameAddr hf' va', heq, pageOf_frameAddr hf]
    have hpage := List.inj_on_of_nodup_map h.held.nodup hpf' hpf hframe
    rw [hframe] at heq
    exact hne (frameAddr_injective hf (congrArg Prod.fst hpage) heq)

end Mapped

/-! ### The size and the place of a block -/

theorem alignment_word {k : Nat} (hk : k ≤ 12) :
    (BitVec.ofNat 64 (2 ^ k) ≤ 8#64 ↔ k ≤ 3) ∧ BitVec.ofNat 64 (2 ^ k) ≤ PAGE_SIZE := by
  interval_cases k <;> decide

def blockBytes (alignment size : Word) : Word :=
  ALIGN ((if alignment ≤ 8#64 then size else size + (alignment - 1#64)) + METADATA_EXTRA) PAGE_SIZE

/-- The address that `memalign` returns for a block at `p`. -/
def blockPtr (alignment p : Word) : Word :=
  ALIGN (p + METADATA_EXTRA) (if alignment ≤ 8#64 then 8#64 else alignment)

theorem toNat_blockBytes {k : Nat} {size : Word} (hk : k ≤ 12) (hsize : size.toNat < 2 ^ 40) :
    (blockBytes (BitVec.ofNat 64 (2 ^ k)) size).toNat =
      ((size.toNat + if k ≤ 3 then 0 else 2 ^ k - 1) + 16 + 4095) / 4096 * 4096 := by
  have hadd : (METADATA_EXTRA : Word).toNat = 16 := by decide
  have hinner : ((if BitVec.ofNat 64 (2 ^ k) ≤ 8#64 then size
      else size + (BitVec.ofNat 64 (2 ^ k) - 1#64)) + METADATA_EXTRA).toNat =
      (size.toNat + if k ≤ 3 then 0 else 2 ^ k - 1) + 16 := by
    obtain ⟨hle, -⟩ := alignment_word hk
    have hlow := toNat_two_pow_sub_one (by omega : k < 64)
    have hpow : 2 ^ k ≤ 2 ^ 12 := Nat.pow_le_pow_right (by omega) hk
    rw [BitVec.toNat_add, hadd]
    by_cases hsmall : k ≤ 3
    · rw [if_pos (hle.mpr hsmall), if_pos hsmall]
      omega
    · rw [if_neg (mt hle.mp hsmall), if_neg hsmall, BitVec.toNat_add, hlow]
      omega
  have hpow : 2 ^ k ≤ 2 ^ 12 := Nat.pow_le_pow_right (by omega) hk
  have hpage : PAGE_SIZE = BitVec.ofNat 64 (2 ^ 12) := by decide
  rw [blockBytes, hpage, toNat_ALIGN_of_le (by omega : 12 < 64), hinner]
  · rfl
  · rw [hinner]
    split_ifs <;> omega

/-- A block that is large enough holds two words, the gap for the alignment and what was
    asked for. -/
theorem blockPtr_spec {k total : Nat} {p size : Word} (hk : k ≤ 12) (hp : IsPage p)
    (htotal : (blockBytes (BitVec.ofNat 64 (2 ^ k)) size).toNat = total)
    (hsize : size.toNat < 2 ^ 40) (hfits : p.toNat + total ≤ 2 ^ 64) :
    p.toNat + 16 ≤ (blockPtr (BitVec.ofNat 64 (2 ^ k)) p).toNat ∧
      (blockPtr (BitVec.ofNat 64 (2 ^ k)) p).toNat % 8 = 0 ∧
      (blockPtr (BitVec.ofNat 64 (2 ^ k)) p).toNat + size.toNat ≤ p.toNat + total := by
  rw [toNat_blockBytes hk hsize] at htotal
  rw [isPage_iff] at hp
  have hplus : (p + METADATA_EXTRA).toNat = p.toNat + 16 := by
    rw [BitVec.toNat_add, show (METADATA_EXTRA : Word).toNat = 16 by decide]
    omega
  obtain ⟨hle, -⟩ := alignment_word hk
  unfold blockPtr
  by_cases hsmall : k ≤ 3
  · rw [if_pos hsmall] at htotal
    rw [if_pos (hle.mpr hsmall), show 8#64 = BitVec.ofNat 64 (2 ^ 3) by decide,
      toNat_ALIGN_of_le (by omega) (by rw [hplus]; omega), hplus]
    omega
  · rw [if_neg hsmall] at htotal
    rw [if_neg (mt hle.mp hsmall)]
    have height : 8 ∣ 2 ^ k := Nat.pow_dvd_pow 2 (by omega : 3 ≤ k)
    have hroom : p.toNat + 16 + 2 ^ k ≤ 2 ^ 64 := by omega
    rw [toNat_ALIGN_of_le (by omega) (by rw [hplus]; exact hroom), hplus]
    have hlow := le_roundUp (p.toNat + 16) k
    have hhigh := roundUp_lt (p.toNat + 16) k
    have hmultiple : 8 ∣ roundUp (p.toNat + 16) k :=
      height.trans (Nat.dvd_of_mod_eq_zero (roundUp_mod _ _))
    refine ⟨hlow, Nat.mod_eq_zero_of_dvd hmultiple, ?_⟩
    change roundUp (p.toNat + 16) k + size.toNat ≤ _
    omega

theorem memalign_eq {k : Nat} (hk : k ≤ 12) (v : Vm) (size : Word) :
    memalign v (BitVec.ofNat 64 (2 ^ k)) size =
      (vmMemalign v PAGE_SIZE (blockBytes (BitVec.ofNat 64 (2 ^ k)) size)).bind fun block =>
        (block.2.store (blockPtr (BitVec.ofNat 64 (2 ^ k)) block.1 + OFS_SLACK)
          (blockPtr (BitVec.ofNat 64 (2 ^ k)) block.1 - block.1)).bind fun v =>
        (v.store (blockPtr (BitVec.ofNat 64 (2 ^ k)) block.1 + OFS_SIZE)
          (blockBytes (BitVec.ofNat 64 (2 ^ k)) size)).map fun v =>
        (blockPtr (BitVec.ofNat 64 (2 ^ k)) block.1, v) := by
  obtain ⟨-, hpage⟩ := alignment_word hk
  have hblkalign : ¬ (if BitVec.ofNat 64 (2 ^ k) ≤ 8#64 then 8#64 else BitVec.ofNat 64 (2 ^ k)) >
      PAGE_SIZE := by
    split_ifs
    · decide
    · exact BitVec.not_lt.mpr hpage
  unfold memalign
  dsimp only
  rw [if_neg hblkalign]
  rfl

/-! ### The virtual area -/

def Vm.used (v : Vm) : Nat := (-v.vfreeTop).toNat

/-- `vm_memalign` for a size that fills whole pages. -/
theorem vmMemalign_eq {v : Vm} {total : Word} (hpage : IsPage total) (hlt : total.toNat < 2 ^ 44) :
    vmMemalign v PAGE_SIZE total =
      some (v.vfreeTop - total,
        { v with
          machine := vmMapPages v.pageRoot v.machine (v.vfreeTop - total) (total.toNat / 4096)
          vfreeTop := v.vfreeTop - total }) := by
  have htotal := isPage_iff.mp hpage
  have hcount : blockPages total = total.toNat / 4096 := by
    unfold blockPages
    omega
  have hbytes : BitVec.ofNat 64 (4096 * (total.toNat / 4096)) = total := by
    rw [Nat.mul_div_cancel' (Nat.dvd_of_mod_eq_zero htotal), BitVec.ofNat_toNat, BitVec.setWidth_eq]
  unfold vmMemalign
  rw [if_neg (not_not.mpr (BitVec.le_refl _))]
  dsimp only
  rw [toNat_pages, allocVpages, PAGE_SIZE_mul, toNat_pages, hcount, hbytes]

section Area

variable {v : Vm} {total : Word} (hpos : 0 < total.toNat) (hroom : v.used + total.toNat ≤ 2 ^ 47)
include hpos hroom

theorem toNat_vfreeTop_sub : (v.vfreeTop - total).toNat = 2 ^ 64 - (v.used + total.toNat) := by
  have := v.vfreeTop.isLt
  unfold Vm.used at *
  rw [BitVec.toNat_neg] at *
  rw [BitVec.toNat_sub]
  omega

theorem mem_next_pages {q : Word} (hq : q ∈ pageRange (v.vfreeTop - total) (total.toNat / 4096)) :
    2 ^ 64 - (v.used + total.toNat) ≤ q.toNat ∧ q.toNat < 2 ^ 64 - v.used := by
  obtain ⟨i, hi, rfl⟩ := mem_pageRange.mp hq
  rw [BitVec.toNat_add, BitVec.toNat_ofNat, toNat_vfreeTop_sub hpos hroom]
  omega

end Area

/-! ### Blocks -/

/-- A block: the address and the size that its owner knows, its first page, and its
    pages with the physical pages behind them. -/
structure Block where
  ptr : Word
  size : Word
  base : Word
  maps : List (Word × Word)
deriving DecidableEq

def Block.pages (b : Block) : List Word := b.maps.map Prod.fst
def Block.frames (b : Block) : List Word := b.maps.map Prod.snd

/-- The place of a block, and of the part for its owner in it. -/
structure Block.Formed (b : Block) : Prop where
  isPage : IsPage b.base
  pages : b.pages = pageRange b.base b.maps.length
  short : b.maps.length * 4096 ≤ 2 ^ 47
  fits : b.base.toNat + b.maps.length * 4096 ≤ 2 ^ 64
  low : b.base.toNat + 16 ≤ b.ptr.toNat
  aligned : b.ptr.toNat % 8 = 0
  high : b.ptr.toNat + b.size.toNat ≤ b.base.toNat + b.maps.length * 4096

/-- The two words below the address of a block. -/
structure Block.Recorded (v : Vm) (b : Block) : Prop where
  slack : v.load (b.ptr + OFS_SLACK) = some (b.ptr - b.base)
  size : v.load (b.ptr + OFS_SIZE) = some (BitVec.ofNat 64 (4096 * b.maps.length))

/-- A block of whole pages with consecutive addresses. -/
theorem Block.formed_of_pageRange {ptr size base total : Word} {maps : List (Word × Word)}
    (hbase : IsPage base) (htotal : IsPage total)
    (hfst : maps.map Prod.fst = pageRange base (total.toNat / 4096)) (hshort : total.toNat ≤ 2 ^ 47)
    (hfits : base.toNat + total.toNat ≤ 2 ^ 64) (hlow : base.toNat + 16 ≤ ptr.toNat)
    (haligned : ptr.toNat % 8 = 0) (hhigh : ptr.toNat + size.toNat ≤ base.toNat + total.toNat) :
    Block.Formed ⟨ptr, size, base, maps⟩ ∧ maps.length * 4096 = total.toNat := by
  have hlength : maps.length = total.toNat / 4096 := by
    rw [← List.length_map Prod.fst, hfst, length_pageRange]
  have hbytes : maps.length * 4096 = total.toNat := by
    have hwhole := isPage_iff.mp htotal
    omega
  refine ⟨⟨hbase, hfst.trans (by rw [hlength]), ?_, ?_, hlow, haligned, ?_⟩, hbytes⟩
  · rw [hbytes]
    exact hshort
  · rw [hbytes]
    exact hfits
  · rw [hbytes]
    exact hhigh

/-- Addresses in the range of a block are covered by its pages. -/
theorem Block.Formed.covers {b : Block} (h : b.Formed) {va : Word} (hlow : b.base.toNat ≤ va.toNat)
    (hhigh : va.toNat < b.base.toNat + b.maps.length * 4096) : ∃ f, (pageOf va, f) ∈ b.maps := by
  have hbase := isPage_iff.mp h.isPage
  have hmem : pageOf va ∈ b.pages := by
    rw [h.pages]
    refine mem_pageRange.mpr ⟨(va.toNat - b.base.toNat) / 4096, by omega, ?_⟩
    have := va.isLt
    rw [pageOf_eq_iff, BitVec.toNat_add, BitVec.toNat_ofNat]
    omega
  obtain ⟨⟨p, f⟩, hpf, hfst⟩ := List.mem_map.mp hmem
  obtain rfl : p = pageOf va := hfst
  exact ⟨f, hpf⟩

theorem toNat_add_OFS_SLACK {ptr : Word} (h : 16 ≤ ptr.toNat) :
    (ptr + OFS_SLACK).toNat = ptr.toNat - 16 := by
  rw [BitVec.toNat_add, show (OFS_SLACK : Word).toNat = 2 ^ 64 - 16 by decide]
  have := ptr.isLt
  omega

theorem toNat_add_OFS_SIZE {ptr : Word} (h : 16 ≤ ptr.toNat) :
    (ptr + OFS_SIZE).toNat = ptr.toNat - 8 := by
  rw [BitVec.toNat_add, show (OFS_SIZE : Word).toNat = 2 ^ 64 - 8 by decide]
  have := ptr.isLt
  omega

theorem Block.Formed.covers_metadata {b : Block} (h : b.Formed) :
    (∃ f, (pageOf (b.ptr + OFS_SLACK), f) ∈ b.maps) ∧
      ∃ f, (pageOf (b.ptr + OFS_SIZE), f) ∈ b.maps := by
  have hlow := h.low
  have hhigh := h.high
  have hslack := toNat_add_OFS_SLACK (by omega : 16 ≤ b.ptr.toNat)
  have hsize := toNat_add_OFS_SIZE (by omega : 16 ≤ b.ptr.toNat)
  exact ⟨h.covers (by omega) (by omega), h.covers (by omega) (by omega)⟩

/-! ### The ledger of blocks -/

/-- The machine, the blocks in use, and the blocks given back. -/
structure Heap where
  vm : Vm
  live : List Block
  dead : List Block

structure Heap.Placed (H : Heap) (free : List Word) : Prop where
  mapped : Mapped H.vm free (H.live.flatMap Block.maps)
  formed : ∀ b ∈ H.live, b.Formed
  virt : ((H.live ++ H.dead).flatMap Block.pages).Nodup
  above : ∀ b ∈ H.live ++ H.dead, ∀ p ∈ b.pages, 2 ^ 64 - H.vm.used ≤ p.toNat
  top : IsPage H.vm.vfreeTop
  room : H.vm.used ≤ 2 ^ 47
  unmapped : ∀ va : Word, 2 ^ 64 - 2 ^ 47 ≤ va.toNat → va.toNat < 2 ^ 64 - H.vm.used →
    leafOf H.vm.machine.mem H.vm.pageRoot va = none

/-- The invariant of all runs. -/
structure Heap.Consistent (H : Heap) (free : List Word) : Prop extends H.Placed free where
  recorded : ∀ b ∈ H.live, b.Recorded H.vm

section Heap

variable {H : Heap} {free : List Word} {b b' : Block}

theorem Heap.Placed.mem_maps (_ : H.Placed free) (hb : b ∈ H.live) {pf : Word × Word}
    (hpf : pf ∈ b.maps) : pf ∈ H.live.flatMap Block.maps := List.mem_flatMap.mpr ⟨b, hb, hpf⟩

theorem Heap.Placed.ne_of_ne (h : H.Placed free) (hb : b ∈ H.live) (hb' : b' ∈ H.live)
    (hne : b ≠ b') {va va' f f' : Word} (hpf : (pageOf va, f) ∈ b.maps)
    (hpf' : (pageOf va', f') ∈ b'.maps) :
    va ≠ va' := by
  rintro rfl
  have hnodup := h.virt
  rw [List.flatMap_append] at hnodup
  have hpairwise := (List.nodup_flatMap.mp (List.nodup_append'.mp hnodup).1).2
  have : Std.Symm (Function.onFun List.Disjoint Block.pages) := ⟨fun _ _ hd => hd.symm⟩
  have hdisjoint := hpairwise.forall hb hb' hne
  have hpage : pageOf va ∈ b.pages := List.mem_map_of_mem hpf
  have hpage' : pageOf va ∈ b'.pages := List.mem_map_of_mem hpf'
  exact hdisjoint hpage hpage'

/-- **A store to a live block** leaves everything in place. -/
theorem Heap.Placed.store (h : H.Placed free) (hb : b ∈ H.live) {va f : Word}
    (hpf : (pageOf va, f) ∈ b.maps) (value : Word) :
    ∃ v', H.vm.store va value = some v' ∧ { H with vm := v' }.Placed free ∧
      (∀ a, leafOf v'.machine.mem v'.pageRoot a = leafOf H.vm.machine.mem H.vm.pageRoot a) ∧
      v'.vfreeTop = H.vm.vfreeTop ∧ v'.load va = some value ∧
      ∀ b' ∈ H.live, ∀ va' f', (pageOf va', f') ∈ b'.maps → va' ≠ va →
        v'.load va' = H.vm.load va' := by
  obtain ⟨v', hstore, htop, hroot, hmapped, hleaf, hself, hother⟩ :=
    h.mapped.store (h.mem_maps hb hpf) value
  have hused : v'.used = H.vm.used := by rw [Vm.used, htop, Vm.used]
  have hleaf' : ∀ a, leafOf v'.machine.mem v'.pageRoot a =
      leafOf H.vm.machine.mem H.vm.pageRoot a := fun a => by rw [hroot, hleaf]
  refine ⟨v', hstore, ⟨hmapped, h.formed, h.virt, ?_, ?_, ?_, ?_⟩, hleaf', htop, hself,
    fun b' hb' va' f' hpf' hne => hother va' f' (h.mem_maps hb' hpf') hne⟩
  · intro c hc p hp
    rw [hused]
    exact h.above c hc p hp
  · rw [htop]
    exact h.top
  · rw [hused]
    exact h.room
  · intro a hlow hhigh
    rw [hused] at hhigh
    rw [hleaf']
    exact h.unmapped a hlow hhigh

theorem Block.Recorded.congr {v v' : Vm} (h : b.Recorded v) (hb : b.Formed)
    (hload : ∀ va f, (pageOf va, f) ∈ b.maps → va.toNat < b.ptr.toNat → v'.load va = v.load va) :
    b.Recorded v' := by
  obtain ⟨⟨f, hf⟩, f', hf'⟩ := hb.covers_metadata
  have hlow := hb.low
  have hslack := toNat_add_OFS_SLACK (by omega : 16 ≤ b.ptr.toNat)
  have hsize := toNat_add_OFS_SIZE (by omega : 16 ≤ b.ptr.toNat)
  refine ⟨?_, ?_⟩
  · rw [hload _ f hf (by omega)]
    exact h.slack
  · rw [hload _ f' hf' (by omega)]
    exact h.size

/-- What an owner writes does not reach the two words of any block. -/
theorem Heap.Consistent.store (h : H.Consistent free) (hb : b ∈ H.live) {va : Word}
    (hlow : b.ptr.toNat ≤ va.toNat) (hhigh : va.toNat + 8 ≤ b.ptr.toNat + b.size.toNat)
    (value : Word) :
    ∃ v', H.vm.store va value = some v' ∧ { H with vm := v' }.Consistent free ∧
      ∀ a, leafOf v'.machine.mem v'.pageRoot a = leafOf H.vm.machine.mem H.vm.pageRoot a := by
  have hplace := h.formed b hb
  have hbelow := hplace.low
  have habove := hplace.high
  obtain ⟨f, hpf⟩ := hplace.covers (by omega : b.base.toNat ≤ va.toNat) (by omega)
  obtain ⟨v', hstore, hplaced, hleaf, -, -, hother⟩ := h.toPlaced.store hb hpf value
  refine ⟨v', hstore, ⟨hplaced, fun c hc => ?_⟩, hleaf⟩
  refine (h.recorded c hc).congr (h.formed c hc) fun va' f' hpf' hlt => ?_
  refine hother c hc va' f' hpf' ?_
  by_cases hcb : c = b
  · rintro rfl
    rw [hcb] at hlt
    omega
  · exact h.ne_of_ne hc hb hcb hpf' hpf

/-- **The two words of a new block** are stored, and all other blocks keep theirs. -/
theorem Heap.Placed.record {v : Vm} {live dead : List Block}
    (h : Heap.Placed ⟨v, b :: live, dead⟩ free) (hold : ∀ c ∈ live, c.Recorded v) :
    ∃ v₁ v₂, v.store (b.ptr + OFS_SLACK) (b.ptr - b.base) = some v₁ ∧
      v₁.store (b.ptr + OFS_SIZE) (BitVec.ofNat 64 (4096 * b.maps.length)) = some v₂ ∧
      Heap.Consistent ⟨v₂, b :: live, dead⟩ free ∧ v₂.vfreeTop = v.vfreeTop ∧
      ∀ a, leafOf v₂.machine.mem v₂.pageRoot a = leafOf v.machine.mem v.pageRoot a := by
  have hmem : b ∈ b :: live := List.mem_cons_self
  have hb := h.formed b hmem
  have hlow := hb.low
  obtain ⟨⟨f, hf⟩, f', hf'⟩ := hb.covers_metadata
  obtain ⟨v₁, hstore₁, hplaced₁, hleaf₁, htop₁, hself₁, hother₁⟩ := h.store hmem hf (b.ptr - b.base)
  obtain ⟨v₂, hstore₂, hplaced₂, hleaf₂, htop₂, hself₂, hother₂⟩ :=
    hplaced₁.store hmem hf' (BitVec.ofNat 64 (4096 * b.maps.length))
  have hne : b.ptr + OFS_SLACK ≠ b.ptr + OFS_SIZE := fun heq => by
    have := congrArg BitVec.toNat heq
    rw [toNat_add_OFS_SLACK (by omega), toNat_add_OFS_SIZE (by omega)] at this
    omega
  refine ⟨v₁, v₂, hstore₁, hstore₂, ⟨hplaced₂, fun c hc => ?_⟩, htop₂.trans htop₁,
    fun a => (hleaf₂ a).trans (hleaf₁ a)⟩
  by_cases hcb : c = b
  · subst hcb
    exact ⟨(hother₂ c hmem _ f hf hne).trans hself₁, hself₂⟩
  · refine (hold c ((List.mem_cons.mp hc).resolve_left hcb)).congr
      (h.formed c hc) fun va g hpf _ => ?_
    have hne₁ := h.ne_of_ne hc hmem hcb hpf hf
    have hne₂ := h.ne_of_ne hc hmem hcb hpf hf'
    exact (hother₂ c hc va g hpf hne₂).trans (hother₁ c hc va g hpf hne₁)

/-- A word of a page that keeps its mapping and its contents. -/
theorem Mapped.load_frame {v v' : Vm} {maps : List (Word × Word)} {kept : List Word} {va f : Word}
    (h : Mapped v free maps) (hpf : (pageOf va, f) ∈ maps) (hroot : v'.pageRoot = v.pageRoot)
    (hleaf : leafOf v'.machine.mem v.pageRoot va = leafOf v.machine.mem v.pageRoot va)
    (hf : f ∈ kept) (hdata : ∀ a, pageOf a ∈ kept → v'.machine.mem a = v.machine.mem a) :
    v'.load va = v.load va := by
  have htranslate : AcrnGuest.translate v'.machine.mem v'.pageRoot va =
      AcrnGuest.translate v.machine.mem v.pageRoot va := by
    rw [AcrnGuest.translate, hroot, hleaf, AcrnGuest.translate]
  have hphys : PhysPage f := h.phys hpf
  rw [Vm.load, htranslate, h.translate hpf, h.load hpf]
  exact congrArg some (hdata _ (by rw [pageOf_frameAddr hphys]; exact hf))

/-! ### `memalign` -/

/-- The virtual area and the free pages suffice for a block. -/
def Vm.HasRoom (v : Vm) (alignment size : Word) : Prop :=
  v.used + (blockBytes alignment size).toNat ≤ 2 ^ 47 ∧
    AmpleFrames v.pageRoot v.machine (v.vfreeTop - blockBytes alignment size)
      ((blockBytes alignment size).toNat / 4096)

theorem blockBytes_spec {k : Nat} {size : Word} (hk : k ≤ 12) (hsize : size.toNat < 2 ^ 40) :
    IsPage (blockBytes (BitVec.ofNat 64 (2 ^ k)) size) ∧
      0 < (blockBytes (BitVec.ofNat 64 (2 ^ k)) size).toNat ∧
      (blockBytes (BitVec.ofNat 64 (2 ^ k)) size).toNat < 2 ^ 44 := by
  have hpow : 2 ^ k ≤ 2 ^ 12 := Nat.pow_le_pow_right (by omega) hk
  rw [isPage_iff, toNat_blockBytes hk hsize]
  split_ifs <;> omega

theorem Heap.Placed.notMem_of_below (h : H.Placed free) {pages : List Word}
    (hbelow : ∀ p ∈ pages, p.toNat < 2 ^ 64 - H.vm.used) :
    ∀ c ∈ H.live ++ H.dead, ∀ p ∈ c.pages, p ∉ pages := by
  intro c hc p hp hmem
  have := h.above c hc p hp
  have := hbelow p hmem
  omega

theorem Heap.Placed.addBlock (h : H.Placed free) {v : Vm} {rest : List Word} (hb : b.Formed)
    (hheld : Held v.machine v.pageRoot rest ((b.maps ++ H.live.flatMap Block.maps).map Prod.snd))
    (hmaps : Maps v.machine.mem v.pageRoot b.maps)
    (hother : ∀ va, pageOf va ∉ b.pages →
      leafOf v.machine.mem v.pageRoot va = leafOf H.vm.machine.mem H.vm.pageRoot va)
    (hnodup : b.pages.Nodup)
    (hbelow : ∀ p ∈ b.pages, 2 ^ 64 - v.used ≤ p.toNat ∧ p.toNat < 2 ^ 64 - H.vm.used)
    (hgrown : H.vm.used ≤ v.used) (hroom : v.used ≤ 2 ^ 47) (htop : IsPage v.vfreeTop) :
    Heap.Placed ⟨v, b :: H.live, H.dead⟩ rest := by
  have hold := h.notMem_of_below fun p hp => (hbelow p hp).2
  refine ⟨⟨hheld, ?_⟩, ?_, ?_, ?_, htop, hroom, ?_⟩
  · intro pf hpf va hva
    rw [List.flatMap_cons, List.mem_append] at hpf
    rcases hpf with hpf | hpf
    · exact hmaps pf hpf va hva
    · obtain ⟨c, hc, hpfc⟩ := List.mem_flatMap.mp hpf
      refine (hother va ?_).trans (h.mapped.maps pf hpf va hva)
      rw [hva]
      exact hold c (by simp [hc]) _ (List.mem_map_of_mem hpfc)
  · rintro c (_ | ⟨_, hc⟩)
    · exact hb
    · exact h.formed c hc
  · rw [List.cons_append, List.flatMap_cons, List.nodup_append']
    refine ⟨hnodup, h.virt, fun p hp hmem => ?_⟩
    obtain ⟨c, hc, hpc⟩ := List.mem_flatMap.mp hmem
    exact hold c hc p hpc hp
  · change ∀ c ∈ b :: (H.live ++ H.dead), ∀ p ∈ c.pages, 2 ^ 64 - v.used ≤ p.toNat
    rintro c (_ | ⟨_, hc⟩) p hp
    · exact (hbelow p hp).1
    · have := h.above c hc p hp
      omega
  · intro va hlow hhigh
    change va.toNat < 2 ^ 64 - v.used at hhigh
    refine (hother va fun hmem => ?_).trans (h.unmapped va hlow (by omega))
    have := (hbelow _ hmem).1
    rw [toNat_pageOf] at this
    omega

/-- **`vm_memalign`** places a block below all others. -/
theorem Heap.Consistent.vmMemalign (h : H.Consistent free) {total : Word} (htotal : IsPage total)
    (hpos : 0 < total.toNat) (hlt : total.toNat < 2 ^ 44) (hroom : H.vm.used + total.toNat ≤ 2 ^ 47)
    (hample : AmpleFrames H.vm.pageRoot H.vm.machine (H.vm.vfreeTop - total) (total.toNat / 4096)) :
    ∃ v maps rest, vmMemalign H.vm PAGE_SIZE total = some (H.vm.vfreeTop - total, v) ∧
      v.vfreeTop = H.vm.vfreeTop - total ∧ IsPage (H.vm.vfreeTop - total) ∧
      maps.map Prod.fst = pageRange (H.vm.vfreeTop - total) (total.toNat / 4096) ∧
      (∀ va, pageOf va ∉ pageRange (H.vm.vfreeTop - total) (total.toNat / 4096) →
        leafOf v.machine.mem v.pageRoot va = leafOf H.vm.machine.mem H.vm.pageRoot va) ∧
      (∀ b ∈ H.live, b.Recorded v) ∧
      (∀ b : Block, b.maps = maps → b.Formed → Heap.Placed ⟨v, b :: H.live, H.dead⟩ rest) ∧
      rest.length + (total.toNat / 4096 + tablesNeeded H.vm.machine.mem H.vm.pageRoot
        (pageRange (H.vm.vfreeTop - total) (total.toNat / 4096))) = free.length := by
  obtain ⟨pages, hlist, henough⟩ := hample
  obtain rfl := h.mapped.held.supply.freeList.unique hlist
  have hnext := fun q hq => mem_next_pages (q := q) hpos hroom hq
  have htop := toNat_vfreeTop_sub hpos hroom
  have hbase : IsPage (H.vm.vfreeTop - total) := by
    have := isPage_iff.mp h.top
    have := isPage_iff.mp htotal
    have := H.vm.vfreeTop.isLt
    rw [isPage_iff, BitVec.toNat_sub]
    omega
  have hpages : ∀ q ∈ pageRange (H.vm.vfreeTop - total) (total.toNat / 4096),
      IsPage q ∧ Canonical q := fun q hq =>
    ⟨isPage_of_mem_pageRange hbase hq, Or.inr (by have := hnext q hq; omega)⟩
  have hnodup := nodup_pageRange (H.vm.vfreeTop - total) (by omega : total.toNat / 4096 ≤ 2 ^ 52)
  have hnone : ∀ q ∈ pageRange (H.vm.vfreeTop - total) (total.toNat / 4096),
      leafOf H.vm.machine.mem H.vm.pageRoot q = none := fun q hq =>
    h.unmapped q (by have := hnext q hq; omega) (hnext q hq).2
  obtain ⟨maps, rest, hfst, hheld, hmaps, hother, hdata, hlength⟩ :=
    h.mapped.held.vmMapPages hpages hnodup hnone henough
  have hold := h.notMem_of_below fun p hp => (hnext p hp).2
  let v : Vm :=
    { machine := AcrnGuest.vmMapPages H.vm.pageRoot H.vm.machine (H.vm.vfreeTop - total)
        (total.toNat / 4096)
      vfreeTop := H.vm.vfreeTop - total
      pageRoot := H.vm.pageRoot }
  have hused : v.used = H.vm.used + total.toNat := by
    rw [Vm.used, BitVec.toNat_neg, htop]
    omega
  refine ⟨v, maps, rest, vmMemalign_eq htotal hlt, rfl, hbase, hfst, hother, ?_, ?_, hlength⟩
  · intro b hb
    refine (h.recorded b hb).congr (h.formed b hb) fun va f hpf _ => ?_
    refine h.mapped.load_frame (h.mem_maps hb hpf) rfl (hother va ?_) ?_ hdata
    · exact hold b (by simp [hb]) _ (List.mem_map_of_mem hpf)
    · exact List.mem_map_of_mem (h.mem_maps hb hpf)
  · rintro b rfl hb
    have hbPages : b.pages = pageRange (H.vm.vfreeTop - total) (total.toNat / 4096) := hfst
    rw [← List.map_append] at hheld
    rw [← hbPages] at hother hnodup hnext
    rw [← hused] at hroom hnext
    exact h.addBlock hb hheld hmaps hother hnodup hnext (by omega) hroom hbase

def frameOf (v : Vm) (p : Word) : Word :=
  ((translate v.machine.mem v.pageRoot p).map Translation.phys).getD 0#64

/-- The block that a call handed out which moved the top from `v` to `v'`. -/
def newBlock (v v' : Vm) (ptr size : Word) : Block where
  ptr := ptr
  size := size
  base := v'.vfreeTop
  maps := (rangePages v'.vfreeTop (v.vfreeTop - v'.vfreeTop)).map fun p => (p, frameOf v' p)

/-- The pages behind a block can be read off the tables. -/
theorem Mapped.map_frameOf {v : Vm} {all : List (Word × Word)} (h : Mapped v free all)
    (maps : List (Word × Word)) (hsub : ∀ pf ∈ maps, pf ∈ all)
    (hpages : ∀ p ∈ maps.map Prod.fst, IsPage p) :
    ((maps.map Prod.fst).map fun p => (p, frameOf v p)) = maps := by
  rw [List.map_map]
  refine (List.map_congr_left fun pf hpf => ?_).trans (List.map_id maps)
  obtain ⟨p, f⟩ := pf
  have hp : pageOf p = p := hpages p (List.mem_map_of_mem hpf)
  have hf : PhysPage f := h.phys (hsub _ hpf)
  have haligned := isPage_iff.mp (hpages p (List.mem_map_of_mem hpf))
  have hmem : (pageOf p, f) ∈ all := by
    rw [hp]
    exact hsub _ hpf
  have hframe : frameAddr f p = f := by
    apply BitVec.eq_of_toNat_eq
    rw [toNat_frameAddr hf, haligned, Nat.add_zero]
  change (p, frameOf v p) = (p, f)
  rw [frameOf, h.translate hmem, hframe]
  rfl

/-- **`memalign`** hands out a block of its own. -/
theorem Heap.Consistent.memalign (h : H.Consistent free) {k : Nat} {size : Word} (hk : k ≤ 12)
    (hsize : size.toNat < 2 ^ 40) (hroom : H.vm.HasRoom (BitVec.ofNat 64 (2 ^ k)) size) :
    ∃ ptr v' rest, memalign H.vm (BitVec.ofNat 64 (2 ^ k)) size = some (ptr, v') ∧
      Heap.Consistent ⟨v', newBlock H.vm v' ptr size :: H.live, H.dead⟩ rest ∧
      (∀ va, pageOf va ∉ (newBlock H.vm v' ptr size).pages →
        leafOf v'.machine.mem v'.pageRoot va = leafOf H.vm.machine.mem H.vm.pageRoot va) ∧
      v'.vfreeTop = H.vm.vfreeTop - blockBytes (BitVec.ofNat 64 (2 ^ k)) size ∧
      rest.length + ((blockBytes (BitVec.ofNat 64 (2 ^ k)) size).toNat / 4096 +
        tablesNeeded H.vm.machine.mem H.vm.pageRoot
          (pageRange (H.vm.vfreeTop - blockBytes (BitVec.ofNat 64 (2 ^ k)) size)
            ((blockBytes (BitVec.ofNat 64 (2 ^ k)) size).toNat / 4096))) = free.length := by
  obtain ⟨htotal, hpos, hlt⟩ := blockBytes_spec hk hsize
  obtain ⟨hroom, hample⟩ := hroom
  have hcall := memalign_eq hk H.vm size
  have hptr := fun p (hp : IsPage p) => blockPtr_spec (p := p) hk hp rfl hsize
  generalize blockBytes (BitVec.ofNat 64 (2 ^ k)) size = total at *
  obtain ⟨v, maps, rest, hvmMemalign, htop, hbasePage, hfst, hother, hrecorded, hplaced, hlength⟩ :=
    h.vmMemalign htotal hpos hlt hroom hample
  have hbase := toNat_vfreeTop_sub hpos hroom
  obtain ⟨hlow, haligned, hhigh⟩ := hptr _ hbasePage (by omega)
  generalize hptrEq : blockPtr (BitVec.ofNat 64 (2 ^ k)) (H.vm.vfreeTop - total) = ptr at *
  let b : Block := ⟨ptr, size, H.vm.vfreeTop - total, maps⟩
  obtain ⟨hb, hbytes⟩ : b.Formed ∧ maps.length * 4096 = total.toNat :=
    Block.formed_of_pageRange hbasePage htotal hfst (by omega) (by omega) hlow haligned hhigh
  have hword : BitVec.ofNat 64 (4096 * maps.length) = total := BitVec.eq_of_toNat_eq (by
    rw [BitVec.toNat_ofNat]
    omega)
  obtain ⟨v₁, v₂, hstore₁, hstore₂, hconsistent, htop₂, hleaf⟩ :=
    (hplaced b rfl hb).record hrecorded
  have hnew : newBlock H.vm v₂ ptr size = b := by
    have hv₂ : v₂.vfreeTop = H.vm.vfreeTop - total := htop₂.trans htop
    have hspan : H.vm.vfreeTop - (H.vm.vfreeTop - total) = total := by bv_omega
    have hmaps := hconsistent.mapped.map_frameOf maps (fun pf hpf => by simp [b, hpf]) (by
      rw [hfst]
      exact fun p hp => isPage_of_mem_pageRange hbasePage hp)
    rw [hfst] at hmaps
    rw [newBlock, hv₂, hspan, rangePages, hmaps]
  refine ⟨ptr, v₂, rest, ?_, ?_, ?_, htop₂.trans htop, hlength⟩
  · change v₁.store (ptr + OFS_SIZE) (BitVec.ofNat 64 (4096 * maps.length)) = some v₂ at hstore₂
    rw [hword] at hstore₂
    rw [hcall, hvmMemalign, Option.bind_some]
    dsimp only
    rw [hptrEq, hstore₁, Option.bind_some, hstore₂, Option.map_some]
  · rw [hnew]
    exact hconsistent
  · intro va hva
    rw [hnew] at hva
    change pageOf va ∉ maps.map Prod.fst at hva
    rw [hfst] at hva
    rw [hleaf]
    exact hother va hva

/-! ### `free` -/

/-- **`free`** of a live block puts exactly its pages back and changes no translation. -/
theorem Heap.Consistent.freeBlock (h : H.Consistent free) (hb : b ∈ H.live) :
    ∃ v', AcrnGuest.free H.vm b.ptr = some v' ∧
      Heap.Consistent ⟨v', H.live.erase b, b :: H.dead⟩ (b.frames.reverse ++ free) ∧
      ∀ va, leafOf v'.machine.mem v'.pageRoot va = leafOf H.vm.machine.mem H.vm.pageRoot va := by
  have hform := h.formed b hb
  have hshort := hform.short
  have hperm : H.live.Perm (b :: H.live.erase b) := List.perm_cons_erase hb
  have hmapped : Mapped H.vm free (b.maps ++ (H.live.erase b).flatMap Block.maps) :=
    h.mapped.perm (hperm.flatMap_right _)
  have hheld : Held H.vm.machine H.vm.pageRoot free
      (b.maps.map Prod.snd ++ ((H.live.erase b).flatMap Block.maps).map Prod.snd) := by
    rw [← List.map_append]
    exact hmapped.held
  have hbound : b.maps.length < LOOP_BOUND := by
    unfold LOOP_BOUND
    omega
  obtain ⟨s', hrun, hheld', hleaf, hdata⟩ := hheld.run_vmFreeStep hbound (by omega)
    (fun pf hpf => h.mapped.maps pf (h.mem_maps hb hpf)) hform.pages hform.isPage
  have hbegin : blockBegin H.vm b.ptr = some b.base := by
    have hbase : b.ptr - (b.ptr - b.base) = b.base := by bv_omega
    rw [blockBegin, (h.recorded b hb).slack, Option.map_some, hbase]
  have hsize : blockSize H.vm b.ptr = some (BitVec.ofNat 64 (4096 * b.maps.length)) :=
    (h.recorded b hb).size
  have hlive : ∀ c ∈ H.live.erase b, c ∈ H.live := fun c hc => List.mem_of_mem_erase hc
  have hall : (H.live.erase b ++ b :: H.dead).Perm (H.live ++ H.dead) :=
    List.perm_middle.trans (hperm.symm.append_right H.dead)
  refine ⟨{ H.vm with machine := s' }, ?_,
    ⟨⟨⟨hheld', ?_⟩, ?_, ?_, ?_, h.top, h.room, ?_⟩, ?_⟩, hleaf⟩
  · rw [AcrnGuest.free, hbegin, Option.bind_some, hsize, Option.bind_some, vmFree, hrun]
    rfl
  · intro pf hpf va hva
    exact (hleaf va).trans (hmapped.maps pf (List.mem_append_right _ hpf) va hva)
  · exact fun c hc => h.formed c (hlive c hc)
  · exact (hall.flatMap_right _).nodup_iff.mpr h.virt
  · exact fun c hc => h.above c (hall.mem_iff.mp hc)
  · exact fun va hlow hhigh => (hleaf va).trans (h.unmapped va hlow hhigh)
  · intro c hc
    refine (h.recorded c (hlive c hc)).congr (h.formed c (hlive c hc)) fun va f hpf _ => ?_
    have hkept : (pageOf va, f) ∈ (H.live.erase b).flatMap Block.maps :=
      List.mem_flatMap.mpr ⟨c, hc, hpf⟩
    exact hmapped.load_frame (List.mem_append_right _ hkept) rfl (hleaf va)
      (List.mem_map_of_mem hkept) hdata

end Heap

/-! ### `setup_vm` -/

/-- The pages that `setup_mmu` finds on the free list. -/
def bootPages (pages : List Word) (base top : Word) : List Word :=
  if pages = [] then
    rangePages (pageOf (base + PAGE_SIZE - 1#64)) (pageOf top - pageOf (base + PAGE_SIZE - 1#64))
  else pages

/-- The memory with which `setup_vm` starts: the free pages of an initialized allocator,
    or unused memory above address 0 that holds a whole page. In both cases there are
    enough pages for the identity map. -/
structure BootMemory (s : Machine) (pages : List Word) (base top : Word) : Prop where
  list : FreeList s pages
  phys : ∀ p ∈ pages, PhysPage p
  base_pos : 0 < base.toNat
  base_le : base.toNat ≤ top.toNat
  top_le : top.toNat ≤ 2 ^ 47
  donated : pages = [] → (pageOf (base + PAGE_SIZE - 1#64)).toNat < (pageOf top).toNat
  aligned : pages ≠ [] → IsPage top
  enough : tableCount (max (pageOf top).toNat (2 ^ 32)) ≤ (bootPages pages base top).length

/-- The list that the tables are built from. -/
theorem BootMemory.setup {s : Machine} {pages : List Word} {base top : Word}
    (h : BootMemory s pages base top) :
    ∃ s₁, FreeList s₁ (bootPages pages base top) ∧ (∀ p ∈ bootPages pages base top, PhysPage p) ∧
      setupVm s base top = (setupMmu s₁ (pageOf top)).map fun root =>
        { machine := root.2, vfreeTop := 0#64, pageRoot := root.1 } := by
  have hmask : (-PAGE_SIZE : Word) = PAGE_MASK := by decide
  have hbasePos := h.base_pos
  have hbaseLe := h.base_le
  have htopLe := h.top_le
  by_cases hempty : pages = []
  · subst hempty
    have hfreelist : s.freelist = 0#64 := h.list.chain
    have hlt := h.donated rfl
    have hround : (base + PAGE_SIZE - 1#64).toNat = base.toNat + 4095 := by
      rw [PAGE_SIZE_eq]
      bv_omega
    rw [toNat_pageOf, toNat_pageOf, hround] at hlt
    have hne : base ≠ top := by
      rintro rfl
      omega
    have hsize : (pageOf top - pageOf (base + PAGE_SIZE - 1#64)).toNat =
        top.toNat / 4096 * 4096 - (base.toNat + 4095) / 4096 * 4096 := by
      rw [BitVec.toNat_sub, toNat_pageOf, toNat_pageOf, hround]
      omega
    -- the donated pages lie between the rounded bounds
    have hrange : ∀ q ∈ rangePages (pageOf (base + PAGE_SIZE - 1#64))
        (pageOf top - pageOf (base + PAGE_SIZE - 1#64)), 0 < q.toNat ∧ q.toNat < 2 ^ 52 := by
      intro q hq
      obtain ⟨i, hi, rfl⟩ := mem_pageRange.mp hq
      rw [hsize] at hi
      rw [BitVec.toNat_add, BitVec.toNat_ofNat, toNat_pageOf, hround]
      omega
    have hsizePage : IsPage (pageOf top - pageOf (base + PAGE_SIZE - 1#64)) := by
      rw [isPage_iff, hsize]
      omega
    obtain ⟨s₁, hfree, hlist, -⟩ := freePages_spec h.list (isPage_pageOf (base + PAGE_SIZE - 1#64))
      hsizePage
        (fun h0 => by
          have := congrArg BitVec.toNat h0; rw [hsize] at this; change _ = 0 at this; omega)
      (by rw [hsize, toNat_pageOf, hround]; omega)
      (fun hzero => absurd (hrange 0#64 hzero).1 (by decide)) (fun q _ => List.not_mem_nil)
    rw [List.append_nil] at hlist
    refine ⟨s₁, ?_, ?_, ?_⟩
    · rw [bootPages, if_pos rfl]
      exact hlist
    · rw [bootPages, if_pos rfl]
      exact fun q hq => physPage_iff.mpr ⟨isPage_iff.mp (hlist.isPage q hq), (hrange q hq).2⟩
    · unfold setupVm
      rw [if_neg (not_not.mpr (Or.inl hne)), if_pos hfreelist]
      dsimp only
      rw [hmask]
      have hdonated : freePages s ((base + PAGE_SIZE - 1#64) &&& PAGE_MASK)
          ((top &&& PAGE_MASK) - ((base + PAGE_SIZE - 1#64) &&& PAGE_MASK)) = some s₁ := hfree
      rw [hdonated, Option.map_some, Option.bind_some, pageOf]
  · have hfreelist : s.freelist ≠ 0#64 := by
      cases pages with
      | nil => exact (hempty rfl).elim
      | cons p pages =>
          obtain ⟨hhead, hp, -⟩ := h.list.chain
          rw [hhead]
          exact hp
    have htop : pageOf top = top := h.aligned hempty
    rw [bootPages, if_neg hempty, htop]
    refine ⟨s, h.list, h.phys, ?_⟩
    unfold setupVm
    rw [if_neg (not_not.mpr (Or.inr hfreelist)), if_neg hfreelist]
    dsimp only
    rw [Option.bind_some]

/-- **`setup_vm`** returns, and the upper half of the address space is not mapped. -/
theorem setupVm_spec {s : Machine} {pages : List Word} {base top : Word} {left : Nat}
    (h : BootMemory s pages base top)
    (hleft : left + tableCount (max (pageOf top).toNat (2 ^ 32)) ≤
      (bootPages pages base top).length) :
    ∃ v free, setupVm s base top = some v ∧ Heap.Consistent ⟨v, [], []⟩ free ∧ v.vfreeTop = 0#64 ∧
      left ≤ free.length := by
  obtain ⟨s₁, hlist, hphys, hsetup⟩ := h.setup
  have htop : (pageOf top).toNat ≤ 2 ^ 47 := by
    have := h.top_le
    rw [toNat_pageOf]
    omega
  obtain ⟨cr3, s', free, hmmu, hbelow, hfree⟩ :=
    setupMmu_spec hlist hphys (isPage_pageOf top) htop hleft
  have hheld : Held s' cr3 free [] :=
    ⟨hbelow.supply, hbelow.wf, hbelow.apart, List.nodup_nil, nofun, nofun, nofun⟩
  refine ⟨⟨s', 0#64, cr3⟩, free, by rw [hsetup, hmmu]; rfl, ⟨⟨⟨hheld, nofun⟩, nofun, List.nodup_nil,
    nofun, (by decide : IsPage 0#64), (by decide : (-(0#64) : Word).toNat ≤ 2 ^ 47), ?_⟩, nofun⟩,
      rfl,
    hfree⟩
  intro va hlow _
  have hnone := hbelow.maps va
  rw [if_neg (by omega), translate, Option.map_eq_none_iff] at hnone
  exact hnone

/-! ### Whole runs -/

/-- A call of the allocator, or a store by the owner of a block. -/
inductive HeapCall where
  | memalign (alignment size : Word)
  | malloc (size : Word)
  | free (b : Block)
  | store (b : Block) (va value : Word)

/-- Run the code of a call. The first component is the returned pointer. -/
def HeapCall.exec (v : Vm) : HeapCall → Option (Word × Vm)
  | .memalign alignment size => AcrnGuest.memalign v alignment size
  | .malloc size => AcrnGuest.malloc v size
  | .free b => (AcrnGuest.free v b.ptr).map fun v' => (0#64, v')
  | .store _ va value => (v.store va value).map fun v' => (0#64, v')

/-- The contract of a call. -/
def HeapCall.Allowed (H : Heap) : HeapCall → Prop
  | .memalign alignment size =>
      (∃ k ≤ 12, alignment = BitVec.ofNat 64 (2 ^ k)) ∧ size.toNat < 2 ^ 40 ∧
        H.vm.HasRoom alignment size
  | .malloc size => size.toNat < 2 ^ 40 ∧ H.vm.HasRoom 8#64 size
  | .free b => b ∈ H.live
  | .store b va _ =>
      b ∈ H.live ∧ va.toNat % 8 = 0 ∧ b.ptr.toNat ≤ va.toNat ∧
        va.toNat + 8 ≤ b.ptr.toNat + b.size.toNat

def Heap.record (H : Heap) (result : Word) (v' : Vm) : HeapCall → Heap
  | .memalign _ size => ⟨v', newBlock H.vm v' result size :: H.live, H.dead⟩
  | .malloc size => ⟨v', newBlock H.vm v' result size :: H.live, H.dead⟩
  | .free b => ⟨v', H.live.erase b, b :: H.dead⟩
  | .store .. => { H with vm := v' }

/-- The pages whose translation a call may change. -/
def HeapCall.mappedPages (v v' : Vm) (result : Word) : HeapCall → List Word
  | .memalign _ size => (newBlock v v' result size).pages
  | .malloc size => (newBlock v v' result size).pages
  | .free _ => []
  | .store .. => []

/-- The ledgers of all runs. -/
inductive Heap.Reachable : Heap → Prop where
  | setup {s : Machine} {pages : List Word} {base top : Word} {v : Vm}
      (boot : BootMemory s pages base top) (setup : setupVm s base top = some v) :
      Reachable ⟨v, [], []⟩
  | step {H : Heap} {c : HeapCall} {result : Word} {v' : Vm} (previous : Reachable H)
      (allowed : c.Allowed H) (exec : c.exec H.vm = some (result, v')) :
      Reachable (H.record result v' c)

section Runs

variable {H : Heap} {free : List Word}

/-- **One call** returns and keeps the ledger consistent. -/
theorem Heap.Consistent.settles (h : H.Consistent free) {c : HeapCall} (hallowed : c.Allowed H) :
    ∃ result v' rest, c.exec H.vm = some (result, v') ∧ (H.record result v' c).Consistent rest ∧
      (∀ va, pageOf va ∉ c.mappedPages H.vm v' result →
        leafOf v'.machine.mem v'.pageRoot va = leafOf H.vm.machine.mem H.vm.pageRoot va) ∧
      ∀ b, c = .free b → rest = b.frames.reverse ++ free := by
  cases c with
  | memalign alignment size =>
      obtain ⟨⟨k, hk, rfl⟩, hsize, hroom⟩ := hallowed
      obtain ⟨ptr, v', rest, hexec, hcons, hleaf, -⟩ := h.memalign hk hsize hroom
      exact ⟨ptr, v', rest, hexec, hcons, hleaf, nofun⟩
  | malloc size =>
      obtain ⟨hsize, hroom⟩ := hallowed
      obtain ⟨ptr, v', rest, hexec, hcons, hleaf, -⟩ := h.memalign (by omega : 3 ≤ 12) hsize hroom
      exact ⟨ptr, v', rest, hexec, hcons, hleaf, nofun⟩
  | free b =>
      obtain ⟨v', hfree, hcons, hleaf⟩ := h.freeBlock hallowed
      refine ⟨0#64, v', b.frames.reverse ++ free, ?_, hcons, fun va _ => hleaf va, ?_⟩
      · rw [HeapCall.exec, hfree]
        rfl
      · intro c hc
        rw [HeapCall.free.inj hc]
  | store b va value =>
      obtain ⟨hb, -, hlow, hhigh⟩ := hallowed
      obtain ⟨v', hstore, hcons, hleaf⟩ := h.store hb hlow hhigh value
      refine ⟨0#64, v', free, ?_, hcons, fun va _ => hleaf va, nofun⟩
      rw [HeapCall.exec, hstore]
      rfl

theorem Heap.Reachable.consistent (h : H.Reachable) : ∃ free, H.Consistent free := by
  induction h with
  | setup boot setup =>
      obtain ⟨v, free, hsetup, hcons, -, -⟩ :=
        setupVm_spec boot (by have := boot.enough; omega : 0 + _ ≤ (bootPages _ _ _).length)
      obtain rfl := Option.some.inj (hsetup.symm.trans setup)
      exact ⟨free, hcons⟩
  | step _ allowed exec ih =>
      obtain ⟨free, hcons⟩ := ih
      obtain ⟨result, v', rest, hexec, hcons', -, -⟩ := hcons.settles allowed
      obtain ⟨rfl, rfl⟩ := Prod.mk.inj (Option.some.inj (hexec.symm.trans exec))
      exact ⟨rest, hcons'⟩

/-- **Every block owns its pages.** In every run after `setup_vm` no virtual page belongs
    to two blocks, dead ones included. Each page of a live block translates to a
    physical page that belongs to no other page of a live block, to no table and not
    to the free list. Every allowed call returns and changes no translation outside
    the block it hands out, and `free` puts exactly the pages of its block back. -/
theorem blocks_own_pages_in_every_run (hrun : H.Reachable) :
    ∃ pages, FreeList H.vm.machine pages ∧ ((H.live ++ H.dead).flatMap Block.pages).Nodup ∧
      (H.live.flatMap Block.frames).Nodup ∧
      (∀ b ∈ H.live,
        (∀ va : Word, b.ptr.toNat ≤ va.toNat → va.toNat < b.ptr.toNat + b.size.toNat →
          pageOf va ∈ b.pages) ∧
        ∀ pf ∈ b.maps, IsPage pf.2 ∧ pf.2 ∉ tablePages H.vm.machine.mem H.vm.pageRoot ∧
          pf.2 ∉ pages ∧
          ∀ va, pageOf va = pf.1 → translate H.vm.machine.mem H.vm.pageRoot va =
            some ⟨pf.2 + BitVec.ofNat 64 (va.toNat % 4096), true, true⟩) ∧
      ∀ c : HeapCall, c.Allowed H → ∃ result v', c.exec H.vm = some (result, v') ∧
        (∀ va, pageOf va ∉ c.mappedPages H.vm v' result →
          translate v'.machine.mem v'.pageRoot va = translate H.vm.machine.mem H.vm.pageRoot va) ∧
        ∀ b, c = .free b → FreeList v'.machine (b.frames.reverse ++ pages) := by
  obtain ⟨free, h⟩ := hrun.consistent
  have hframes : (H.live.flatMap Block.maps).map Prod.snd = H.live.flatMap Block.frames :=
    List.map_flatMap
  refine ⟨free, h.mapped.held.supply.freeList, h.virt, hframes ▸ h.mapped.held.nodup, ?_, ?_⟩
  · intro b hb
    have hform := h.formed b hb
    have hlow := hform.low
    have hhigh := hform.high
    refine ⟨fun va hva hva' => ?_, fun pf hpf => ?_⟩
    · obtain ⟨f, hf⟩ := hform.covers (by omega : b.base.toNat ≤ va.toNat) (by omega)
      exact List.mem_map_of_mem hf
    · have hmem := h.mem_maps hb hpf
      have hheld : pf.2 ∈ (H.live.flatMap Block.maps).map Prod.snd := List.mem_map_of_mem hmem
      refine ⟨(h.mapped.phys hmem).isPage, h.mapped.held.notTable _ hheld,
        h.mapped.held.notFree _ hheld, fun va hva => h.mapped.translate ?_⟩
      rw [hva]
      exact hmem
  · intro c hallowed
    obtain ⟨result, v', rest, hexec, hcons, hleaf, hrest⟩ := h.settles hallowed
    refine ⟨result, v', hexec, fun va hva => ?_, ?_⟩
    · rw [translate, hleaf va hva, translate]
    · rintro b rfl
      rw [← hrest b rfl]
      exact hcons.mapped.held.supply.freeList

/-- 1 MiB of memory without the first page, and nothing on the free list. -/
theorem bootMemory_one_MiB : BootMemory ⟨fun _ => 0#64, 0#64⟩ [] 0x1000#64 0x100000#64 where
  list := ⟨rfl, List.nodup_nil, by simp⟩
  phys := nofun
  base_pos := by decide
  base_le := by decide
  top_le := by decide
  donated _ := by decide
  aligned h := (h rfl).elim
  enough := by
    rw [bootPages, if_pos rfl, rangePages, length_pageRange]
    decide

/-- A block of 100 bytes needs a page, and three tables at most. -/
theorem tablesNeeded_page_le (m : Mem) (root p : Word) :
    1 + tablesNeeded m root (pageRange p 1) ≤ 4 := by
  have hstop := Layout.stopLevel_le x86 m PAGE_LEVEL root p
  rw [pageRange, pageRange, tablesNeeded_singleton, missingTables]
  unfold PAGE_LEVEL at hstop ⊢
  omega

theorem blockBytes_hundred : (blockBytes 8#64 100#64).toNat = 4096 := by decide

theorem Heap.Consistent.hasRoom_hundred (h : H.Consistent free) (hused : H.vm.used ≤ 2 ^ 46)
    (hfree : 4 ≤ free.length) : H.vm.HasRoom 8#64 100#64 := by
  rw [Vm.HasRoom, blockBytes_hundred]
  refine ⟨by omega, free, h.mapped.held.supply.freeList, Nat.le_trans ?_ hfree⟩
  exact tablesNeeded_page_le _ _ _

/-- After `setup_vm` with 1 MiB there is room for a block of 100 bytes, and for another one. -/
theorem exists_heap_with_room :
    ∃ (v : Vm) (free : List Word), Heap.Reachable ⟨v, [], []⟩ ∧ Heap.Consistent ⟨v, [], []⟩ free ∧
      v.HasRoom 8#64 100#64 ∧ v.vfreeTop = 0#64 ∧ 8 ≤ free.length := by
  have hleft : 8 + tableCount (max (pageOf 0x100000#64).toNat (2 ^ 32)) ≤
      (bootPages [] 0x1000#64 0x100000#64).length := by
    rw [bootPages, if_pos rfl, rangePages, length_pageRange]
    decide
  obtain ⟨v, free, hsetup, hcons, htop, hfree⟩ := setupVm_spec bootMemory_one_MiB hleft
  refine ⟨v, free, Heap.Reachable.setup bootMemory_one_MiB hsetup, hcons, ?_, htop, hfree⟩
  refine hcons.hasRoom_hundred ?_ (by omega)
  rw [Vm.used, htop]
  decide

theorem exists_heap_with_two_blocks :
    ∃ (H : Heap) (b₁ b₂ : Block), H.Reachable ∧ H.live = [b₂, b₁] ∧ b₁.size = 100#64 ∧
      b₂.size = 100#64 := by
  obtain ⟨v, free, hstart, hcons, hroom, htop, hfree⟩ := exists_heap_with_room
  have hallowed : (HeapCall.malloc 100#64).Allowed ⟨v, [], []⟩ := ⟨by decide, hroom⟩
  obtain ⟨ptr, v', rest, hexec, hcons', -, htop', hrest⟩ :=
    hcons.memalign (by decide : 3 ≤ 12) hallowed.1 hallowed.2
  have hone := hstart.step hallowed hexec
  have hused' : v'.used = 4096 := by
    rw [Vm.used, htop', htop]
    decide
  have hneeded := tablesNeeded_page_le v.machine.mem v.pageRoot
    (v.vfreeTop - blockBytes 8#64 100#64)
  have hleft' : 4 ≤ rest.length := by
    change rest.length + ((blockBytes 8#64 100#64).toNat / 4096 +
      tablesNeeded v.machine.mem v.pageRoot (pageRange (v.vfreeTop - blockBytes 8#64 100#64)
        ((blockBytes 8#64 100#64).toNat / 4096))) = free.length at hrest
    rw [blockBytes_hundred, Nat.div_self (by decide)] at hrest
    omega
  have hallowed' : (HeapCall.malloc 100#64).Allowed ⟨v', [newBlock v v' ptr 100#64], []⟩ :=
    ⟨by decide, hcons'.hasRoom_hundred (by rw [hused']; decide) hleft'⟩
  obtain ⟨ptr', v'', rest', hexec', -⟩ := hcons'.settles hallowed'
  exact ⟨_, _, _, hone.step hallowed' hexec', rfl, rfl, rfl⟩

/-- Two blocks of 100 bytes are handed out, and the first one is given back. -/
theorem blocks_own_pages_after_two_mallocs :
    ∃ (H : Heap) (b₁ b₂ : Block) (pages : List Word), H.Reachable ∧ H.live = [b₂, b₁] ∧
      b₁.size = 100#64 ∧ b₂.size = 100#64 ∧ FreeList H.vm.machine pages ∧
      (b₂.frames ++ b₁.frames).Nodup ∧ (∀ f ∈ b₂.frames ++ b₁.frames, f ∉ pages) ∧
      ∃ v', AcrnGuest.free H.vm b₁.ptr = some v' ∧
        FreeList v'.machine (b₁.frames.reverse ++ pages) := by
  obtain ⟨H, b₁, b₂, hrun, hlive, hsize₁, hsize₂⟩ := exists_heap_with_two_blocks
  have hmem : ∀ b ∈ [b₂, b₁], b ∈ H.live := fun b hb => hlive ▸ hb
  obtain ⟨pages, hlist, -, hnodup, hblocks, hcalls⟩ := blocks_own_pages_in_every_run hrun
  obtain ⟨result, v', hfreed, -, hback⟩ := hcalls (.free b₁) (hmem b₁ (by simp))
  rw [HeapCall.exec, Option.map_eq_some_iff] at hfreed
  obtain ⟨v₂, hv₂, hpair⟩ := hfreed
  obtain ⟨-, rfl⟩ := Prod.mk.inj hpair
  rw [hlive] at hnodup
  refine ⟨H, b₁, b₂, pages, hrun, hlive, hsize₁, hsize₂, hlist, by simpa using hnodup, ?_, v₂, hv₂,
    hback _ rfl⟩
  have howned : ∀ b ∈ [b₂, b₁], ∀ f ∈ b.frames, f ∉ pages := by
    intro b hb f hf
    obtain ⟨pf, hpf, rfl⟩ := List.mem_map.mp hf
    exact ((hblocks b (hmem b hb)).2 pf hpf).2.2.1
  intro f hf
  rcases List.mem_append.mp hf with hf | hf
  · exact howned b₂ (by simp) f hf
  · exact howned b₁ (by simp) f hf

end Runs

end AcrnGuest
