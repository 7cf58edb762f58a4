import AcrnGuest.IntelIommu
import AcrnGuest.TableWalk

/-!
# DMA remapping tables (`vtd_map_range`)

The root table has an entry for every bus, which points to a context table with an
entry for every device and function of the bus; that entry points to the three
second-level tables of the source id. `vtd_map_range` creates what is missing on the
way and then calls `vtd_install_pte` for one page after the other.

`dmaTranslate` reads the tables the way the IOMMU does for a DMA request. The second
part instantiates the rule for radix tables with the walk of `vtd_install_pte`.
-/

namespace AcrnGuest

open Radix

/-! ### Entries (`lib/x86/intel-iommu.h`) -/

def VTD_PAGE_SHIFT : Nat := PAGE_SHIFT
def VTD_PAGE_SIZE : Word := PAGE_SIZE
def VTD_PAGE_LEVEL : Nat := 3
def VTD_CE_AW_39BIT : Word := 1#64
def VTD_CONTEXT_TT_MULTI_LEVEL : Word := 0#64

def VTD_PTE_R : Word := 1#64 <<< 0
def VTD_PTE_W : Word := 1#64 <<< 1
def VTD_PTE_RW : Word := VTD_PTE_R ||| VTD_PTE_W
def VTD_PTE_ADDR : Word := GENMASK_ULL 63 12
def VTD_PTE_HUGE : Word := 1#64 <<< 7

def busOf (sid : BitVec 16) : BitVec 8 := (sid >>> 8).setWidth 8

def devfnOf (sid : BitVec 16) : BitVec 8 := sid.setWidth 8

def busEntry (table : Word) (i : BitVec 8) : Word := tableEntry table (i.setWidth 64)

/-! ### The source -/

/-- One iteration of the loop of `vtd_install_pte`, on the machine and the table
    pointer `root`. -/
def vtdInstallPteStep (iova : Word) (level : Nat) (st : Machine × Word) : Machine × Word :=
  let root := st.2
  let entry := entryAddr root (PGDIR_OFFSET iova level)
  let s :=
    if st.1.mem entry &&& VTD_PTE_RW = 0#64 then
      let taken := allocPage st.1
      let page := taken.1
      { taken.2 with mem := linkTable taken.2.mem page entry (virtToPhys page ||| VTD_PTE_RW) }
    else st.1
  (s, physToVirt (s.mem entry &&& VTD_PTE_ADDR))

def vtdInstallPte (s : Machine) (root iova pa : Word) (levelTarget : Nat) : Machine :=
  let st := Loop.down (vtdInstallPteStep iova) levelTarget VTD_PAGE_LEVEL (s, root)
  let level := min levelTarget VTD_PAGE_LEVEL
  let entry := entryAddr st.2 (PGDIR_OFFSET iova level)
  let m := Function.update st.1.mem entry (pa ||| VTD_PTE_RW)
  let m := if level ≠ 1 then Function.update m entry (m entry ||| VTD_PTE_HUGE) else m
  { st.1 with mem := m }

def fillRootEntry (m : Mem) (re ce : Word) : Mem :=
  let m := memset m re 0#8 ENTRY_SIZE
  let m := VtdRootEntry.contextTableP.set m re (virtToPhys ce >>> VTD_PAGE_SHIFT)
  VtdRootEntry.present.set m re 1#64

/-- The context table of a bus, which is created if the root entry is not present. -/
def openRootEntry (s : Machine) (re : Word) : Word × Machine :=
  if VtdRootEntry.present.get s.mem re = 0#64 then
    let taken := allocPage s
    let ce := taken.1
    (ce, { taken.2 with mem := fillRootEntry (memset taken.2.mem ce 0#8 PAGE_SIZE) re ce })
  else (physToVirt (VtdRootEntry.contextTableP.get s.mem re <<< VTD_PAGE_SHIFT), s)

/-- The assignments to a new context entry. The domain id is the source id. -/
def fillContextEntry (m : Mem) (sid : BitVec 16) (ce slptptr : Word) : Mem :=
  let m := memset m ce 0#8 ENTRY_SIZE
  let m := VtdContextEntry.domainId.set m ce (sid.setWidth 64)
  let m := VtdContextEntry.addrWidth.set m ce VTD_CE_AW_39BIT
  let m := VtdContextEntry.slptptr.set m ce (virtToPhys slptptr >>> VTD_PAGE_SHIFT)
  let m := VtdContextEntry.transType.set m ce VTD_CONTEXT_TT_MULTI_LEVEL
  let m := VtdContextEntry.present.set m ce 1#64
  VtdContextEntry.disableFaultReport.set m ce 1#64

/-- The second-level table of a source id, which is created if the context entry is
    not present. -/
def openContextEntry (s : Machine) (sid : BitVec 16) (ce : Word) : Word × Machine :=
  if VtdContextEntry.present.get s.mem ce = 0#64 then
    let taken := allocPage s
    let slptptr := taken.1
    (slptptr,
      { taken.2 with
        mem := fillContextEntry (memset taken.2.mem slptptr 0#8 PAGE_SIZE) sid ce slptptr })
  else (physToVirt (VtdContextEntry.slptptr.get s.mem ce <<< VTD_PAGE_SHIFT), s)

/-- One iteration of the loop of `vtd_map_range`, on the machine, `iova`, `pa` and
    `size`. -/
def vtdMapStep (slptptr : Word) (st : Machine × Word × Word × Word) :
    (Machine × Word × Word × Word) ⊕ Machine :=
  if st.2.2.2 ≠ 0#64 then
    .inl (vtdInstallPte st.1 slptptr st.2.1 st.2.2.1 1, st.2.1 + VTD_PAGE_SIZE,
      st.2.2.1 + VTD_PAGE_SIZE, st.2.2.2 - VTD_PAGE_SIZE)
  else .inr st.1

def SZ_4K : Word := 1#64 <<< 12

def IS_ALIGNED (x a : Word) : Bool := x &&& (a - 1#64) = 0#64

/-- `vtd_map_range`. The result is `none` when an assertion fails. -/
def vtdMapRange (v : Iommu) (sid : BitVec 16) (iova pa size : Word) : Option Iommu :=
  let re := physToVirt (vtdRootTable v)
  if ¬ IS_ALIGNED iova SZ_4K then none
  else if ¬ IS_ALIGNED pa SZ_4K then none
  else if ¬ IS_ALIGNED size SZ_4K then none
  else
    let context := openRootEntry v.machine (busEntry re (busOf sid))
    let second := openContextEntry context.2 sid (busEntry context.1 (devfnOf sid))
    (Loop.run (vtdMapStep second.1) LOOP_BOUND (second.2, iova, pa, size)).map fun s =>
      { v with machine := s }

/-! ### The walk of the IOMMU -/

def vtdChild (level : Nat) (e : Word) : Option Word :=
  if e &&& VTD_PTE_RW = 0#64 then none
  else if level = 1 then none
  else if e &&& VTD_PTE_HUGE ≠ 0#64 then none
  else some (e &&& VTD_PTE_ADDR)

theorem vtdChild_one (e : Word) : vtdChild 1 e = none := by
  simp [vtdChild]

def vtd : Layout Word Word Word Word (Fin 512) := wordLayout vtdChild vtdChild_one

/-- What the walk of a DMA address finds: the host address and the access bits that
    every level grants. -/
structure DmaMapping where
  host : Word
  access : Word
deriving DecidableEq, Repr

def vtdLeaf : Reading Word Word (Option DmaMapping) where
  stuck := none
  leaf level e iova :=
    if e &&& VTD_PTE_RW = 0#64 then none
    else some
      { host := (e &&& GENMASK_ULL 63 (PGDIR_BITS level)) +
          BitVec.ofNat 64 (iova.toNat % 2 ^ PGDIR_BITS level)
        access := e &&& VTD_PTE_RW }
  node _ e leaf := leaf.map fun found => { found with access := found.access &&& e }

/-- The second-level translation; three levels cover 39 bits. -/
def secondLevel (m : Mem) (slptptr iova : Word) : Option DmaMapping :=
  if iova.toNat < 2 ^ 39 then vtd.eval vtdLeaf m VTD_PAGE_LEVEL slptptr iova else none

/-- The translation of a DMA request of `sid`. Only context entries for three-level
    tables are followed. -/
def dmaTranslate (v : Iommu) (sid : BitVec 16) (iova : Word) : Option DmaMapping :=
  let m := v.machine.mem
  let re := busEntry (vtdRootTable v) (busOf sid)
  if VtdRootEntry.present.get m re = 0#64 then none
  else
    let ce := busEntry (VtdRootEntry.contextTableP.get m re <<< VTD_PAGE_SHIFT) (devfnOf sid)
    if VtdContextEntry.present.get m ce = 0#64 then none
    else if VtdContextEntry.transType.get m ce ≠ VTD_CONTEXT_TT_MULTI_LEVEL then none
    else if VtdContextEntry.addrWidth.get m ce ≠ VTD_CE_AW_39BIT then none
    else secondLevel m (VtdContextEntry.slptptr.get m ce <<< VTD_PAGE_SHIFT) iova

/-! ### Flags of an entry -/

theorem VTD_PTE_ADDR_eq : VTD_PTE_ADDR = PAGE_MASK := by decide

/-- The pointer to a table, or the leaf for a page. -/
def vtdEntry (p : Word) : Word := p ||| VTD_PTE_RW

theorem vtdEntry_addr {p : Word} (hp : IsPage p) : vtdEntry p &&& VTD_PTE_ADDR = p := by
  have hflags : VTD_PTE_RW &&& PAGE_MASK = 0#64 := by decide
  rw [vtdEntry, VTD_PTE_ADDR_eq, BitVec.and_or_distrib_right, hflags, BitVec.or_zero]
  exact hp

theorem vtdEntry_flags {p k : Word} (hp : IsPage p) (hk : PAGE_MASK &&& k = 0#64) :
    vtdEntry p &&& k = VTD_PTE_RW &&& k := by
  have hmask : p &&& PAGE_MASK = p := hp
  have hpk : p &&& k = 0#64 := by rw [← hmask, BitVec.and_assoc, hk, BitVec.and_zero]
  rw [vtdEntry, BitVec.and_or_distrib_right, hpk, BitVec.zero_or]

theorem vtdEntry_access {p : Word} (hp : IsPage p) : vtdEntry p &&& VTD_PTE_RW = VTD_PTE_RW := by
  rw [vtdEntry_flags hp (by decide), BitVec.and_self]

/-- Above level 1 the entries that grant access are open pointers. -/
def vtdSmall (level : Nat) (e : Word) : Prop :=
  level ≠ 1 → e &&& VTD_PTE_RW ≠ 0#64 → e &&& 0xfff#64 = VTD_PTE_RW

theorem vtdSmall_vtdEntry {p : Word} (hp : IsPage p) (level : Nat) :
    vtdSmall level (vtdEntry p) := by
  intro _ _
  rw [vtdEntry_flags hp (by decide)]
  decide

theorem vtdSmall_zero (level : Nat) : vtdSmall level 0#64 := fun _ h => (h (by decide)).elim

theorem vtdChild_of_absent {level : Nat} {e : Word} (h : e &&& VTD_PTE_RW = 0#64) :
    vtdChild level e = none := by
  simp [vtdChild, h]

theorem vtdChild_zero (level : Nat) : vtdChild level 0#64 = none := vtdChild_of_absent (by decide)

theorem vtdChild_of_small {level : Nat} {e : Word} (hsmall : vtdSmall level e) (hlevel : level ≠ 1)
    (hpresent : e &&& VTD_PTE_RW ≠ 0#64) : vtdChild level e = some (e &&& VTD_PTE_ADDR) := by
  have hhuge : e &&& VTD_PTE_HUGE = 0#64 :=
    (and_of_and_eq (hsmall hlevel hpresent) (by decide)).trans (by decide)
  simp [vtdChild, hpresent, hlevel, hhuge]

theorem vtdChild_vtdEntry {level : Nat} {p : Word} (hp : IsPage p) (hlevel : level ≠ 1) :
    vtdChild level (vtdEntry p) = some p := by
  have hpresent : vtdEntry p &&& VTD_PTE_RW ≠ 0#64 := by
    rw [vtdEntry_access hp]
    decide
  rw [vtdChild_of_small (vtdSmall_vtdEntry hp level) hlevel hpresent, vtdEntry_addr hp]

theorem vtdLeaf_vtdEntry {pa : Word} (hpa : IsPage pa) (iova : Word) :
    vtdLeaf.leaf 1 (vtdEntry pa) iova =
      some { host := pa + BitVec.ofNat 64 (iova.toNat % 4096), access := VTD_PTE_RW } := by
  have hframe : vtdEntry pa &&& GENMASK_ULL 63 (PGDIR_BITS 1) = pa := vtdEntry_addr hpa
  have hpresent : ¬ VTD_PTE_RW = 0#64 := by decide
  simp only [vtdLeaf, vtdEntry_access hpa, hframe, if_neg hpresent]
  rfl

theorem climb_vtdLeaf {l : Nat} {path : List Word} (h : vtd.IsPath vtdSmall l path) (host : Word) :
    vtdLeaf.climb l path (some { host, access := VTD_PTE_RW }) =
      some { host, access := VTD_PTE_RW } := by
  induction path generalizing l with
  | nil => rfl
  | cons e path ih =>
      obtain ⟨hsmall, ⟨c, hc⟩, hpath⟩ := h
      have hlevel : l ≠ 1 := by
        rintro rfl
        exact Option.some_ne_none c (hc.symm.trans (vtdChild_one e))
      have hpresent : e &&& VTD_PTE_RW ≠ 0#64 := fun h0 =>
        Option.some_ne_none c (hc.symm.trans (vtdChild_of_absent h0))
      have hopen : VTD_PTE_RW &&& e = VTD_PTE_RW := by
        rw [BitVec.and_comm]
        exact (and_of_and_eq (hsmall hlevel hpresent) (by decide)).trans (by decide)
      rw [Reading.climb, ih hpath]
      simp only [vtdLeaf, Option.map_some, hopen]

/-! ### Installing a page -/

theorem takePage_zero (s : Machine) :
    takePage (s, 0#64) = ((allocPage s).1, ((allocPage s).2, 0#64)) := by
  simp [takePage]

/-- An iteration of `vtd_install_pte` opens the table below. -/
theorem vtdInstallPteStep_opens (iova : Word) {l : Nat} (hl : 1 ≤ l) :
    Opens vtd vtdSmall vtdLeaf Machine.mem (fun s free => Supply (s, 0#64) free) (fun _ _ _ => True)
      (fun level st => some (vtdInstallPteStep iova level st)) iova l := by
  intro s p free hsupply hnodup hwf hfree _ hne
  have hentry : entryAddr p (PGDIR_OFFSET iova (l + 1)) = slot p (tableIndex (l + 1) iova) :=
    entryAddr_PGDIR_OFFSET p iova (l + 1)
  by_cases habsent : s.mem (slot p (tableIndex (l + 1) iova)) &&& VTD_PTE_RW = 0#64
  · -- an empty table is created below the absent entry
    have hold : vtdChild (l + 1) (s.mem (slot p (tableIndex (l + 1) iova))) = none :=
      vtdChild_of_absent habsent
    obtain ⟨q, rest, s', ptPage', htake, hq, hopen, -⟩ :=
      opened_linkTable (r := vtdLeaf) vtdEntry hl hsupply hwf hfree
        (hne (Layout.eval_none hold)) hold
        (fun q hq => ⟨vtdChild_vtdEntry hq.isPage (by omega), vtdSmall_vtdEntry hq.isPage _⟩)
        ⟨vtdChild_zero l, vtdSmall_zero l⟩ (fun q va' _ => by simp [vtdLeaf, habsent])
    rw [takePage_zero] at htake
    obtain ⟨rfl, htaken⟩ := Prod.mk.inj htake
    obtain ⟨rfl, rfl⟩ := Prod.mk.inj htaken
    refine ⟨_, _, _, rest, congrArg some ?_,
      ⟨hopen.split, hopen.supply, hopen.child, hopen.good_entry,
      hopen.wf, hopen.pages, hopen.frame, hopen.reads, hopen.stops, hopen.count⟩, trivial⟩
    simp only [vtdInstallPteStep, hentry, if_pos habsent, virtToPhys, physToVirt]
    refine congrArg₂ Prod.mk rfl ?_
    rw [linkTable_self]
    exact vtdEntry_addr hq.isPage
  · have hc : vtd.child (l + 1) (vtd.entry s.mem (l + 1) p iova) =
        some (s.mem (slot p (tableIndex (l + 1) iova)) &&& VTD_PTE_ADDR) :=
      vtdChild_of_small (hwf.good_entry _) (by omega) habsent
    refine ⟨s, _, [], free, congrArg some ?_, Opened.existing hsupply hwf hc, trivial⟩
    simp only [vtdInstallPteStep, hentry, if_neg habsent, physToVirt]

/-- **`vtd_install_pte`** at level 1 installs the page and takes the missing tables from
    the free pages. -/
theorem vtdInstallPte_spec {s : Machine} {slptptr iova pa : Word} {free : List Word}
    (hpa : IsPage pa) (hsupply : Supply (s, 0#64) free)
    (hwf : vtd.WF vtdSmall s.mem VTD_PAGE_LEVEL slptptr)
    (hfree : ∀ q ∈ free, q ∉ vtd.pages s.mem VTD_PAGE_LEVEL slptptr)
    (henough : vtd.eval stopLevel s.mem VTD_PAGE_LEVEL slptptr iova - 1 ≤ free.length) :
    ∃ taken rest, free.Perm (taken ++ rest) ∧
      Supply (vtdInstallPte s slptptr iova pa 1, 0#64) rest ∧
      Installed vtd vtdSmall vtdLeaf s.mem (vtdInstallPte s slptptr iova pa 1).mem 1 iova
        (vtdEntry pa)
        VTD_PAGE_LEVEL slptptr taken := by
  have hopens := fun l (hl : 1 ≤ l) => vtdInstallPteStep_opens iova hl
  obtain ⟨s', p', taken, rest, hdown, hsplit, hsupply', hpage, hwritten, hinst⟩ :=
    install_spec (Nat.le_refl 1) hopens (vtdChild_one (vtdEntry pa)) (vtdSmall_vtdEntry hpa 1)
      (by decide : 1 ≤ VTD_PAGE_LEVEL) hsupply hsupply.nodup hwf hfree trivial henough
  have hdown' :=
    (Loop.tryDown_some (vtdInstallPteStep iova) 1 VTD_PAGE_LEVEL (s, slptptr)).symm.trans
    hdown
  have hmem : vtdInstallPte s slptptr iova pa 1 =
      { s' with mem := Function.update s'.mem (slot p' (tableIndex 1 iova)) (vtdEntry pa) } := by
    have hlevel : min 1 VTD_PAGE_LEVEL = 1 := rfl
    simp only [vtdInstallPte, Option.some.inj hdown', hlevel, entryAddr_PGDIR_OFFSET, Ne,
      not_true_eq_false, if_false]
    rfl
  rw [hmem]
  exact ⟨taken, rest, hsplit, hsupply'.write_slot hsplit hsupply.nodup hfree hpage hwritten _,
    hinst⟩

/-! ### The levels at which two walks part -/

section Parting

variable {a b : Word}

theorem tableIndex_three (ha : a.toNat < 2 ^ 39) : (tableIndex 3 a : Nat) = a.toNat / 2 ^ 30 := by
  simp only [tableIndex, PGDIR_BITS, PGDIR_WIDTH, PAGE_SHIFT]
  omega

theorem tableIndex_two (a : Word) : (tableIndex 2 a : Nat) = a.toNat / 2 ^ 21 % 512 := rfl

theorem tableIndex_one (a : Word) : (tableIndex 1 a : Nat) = a.toNat / 2 ^ 12 % 512 := rfl

/-- Below `2 ^ 39` the walks of different pages part at the highest level whose table
    covers only one of them. -/
theorem exists_parting_level (ha : a.toNat < 2 ^ 39) (hb : b.toNat < 2 ^ 39)
    (hne : a.toNat / 4096 ≠ b.toNat / 4096) :
    ∃ j, 1 ≤ j ∧ j ≤ VTD_PAGE_LEVEL ∧ tableIndex j a ≠ tableIndex j b ∧
      (∀ i, j < i → i ≤ VTD_PAGE_LEVEL → tableIndex i a = tableIndex i b) ∧
      (j = 3 ∧ a.toNat / 2 ^ 30 ≠ b.toNat / 2 ^ 30 ∨
        j = 2 ∧ a.toNat / 2 ^ 30 = b.toNat / 2 ^ 30 ∧ a.toNat / 2 ^ 21 ≠ b.toNat / 2 ^ 21 ∨
        j = 1 ∧ a.toNat / 2 ^ 21 = b.toNat / 2 ^ 21) := by
  have hthree : a.toNat / 2 ^ 30 = b.toNat / 2 ^ 30 ↔ tableIndex 3 a = tableIndex 3 b := by
    rw [Fin.ext_iff, tableIndex_three ha, tableIndex_three hb]
  by_cases h30 : a.toNat / 2 ^ 30 = b.toNat / 2 ^ 30
  · have htwo : a.toNat / 2 ^ 21 = b.toNat / 2 ^ 21 ↔ tableIndex 2 a = tableIndex 2 b := by
      rw [Fin.ext_iff, tableIndex_two, tableIndex_two]
      omega
    by_cases h21 : a.toNat / 2 ^ 21 = b.toNat / 2 ^ 21
    · refine ⟨1, by decide, by decide, ?_, fun i hi hi3 => ?_, Or.inr (Or.inr ⟨rfl, h21⟩)⟩
      · rw [Ne, Fin.ext_iff, tableIndex_one, tableIndex_one]
        omega
      · unfold VTD_PAGE_LEVEL at hi3
        rcases (by omega : i = 2 ∨ i = 3) with rfl | rfl
        · exact htwo.mp h21
        · exact hthree.mp h30
    · refine ⟨2, by decide, by decide, fun heq => h21 (htwo.mpr heq), fun i hi hi3 => ?_,
        Or.inr (Or.inl ⟨rfl, h30, h21⟩)⟩
      unfold VTD_PAGE_LEVEL at hi3
      obtain rfl : i = 3 := by omega
      exact hthree.mp h30
  · refine ⟨3, by decide, by decide, fun heq => h30 (hthree.mpr heq), fun i hi hi3 => ?_,
      Or.inl ⟨rfl, h30⟩⟩
    unfold VTD_PAGE_LEVEL at hi3
    omega

end Parting

end AcrnGuest
