import AcrnGuest.PagingBlocks
import AcrnGuest.SetupMmu

/-!
# Blocks of virtual memory (`lib/vmalloc.c`, `lib/alloc.c`)

`vm_memalign` takes addresses from the top of the address space downwards, and
for every page of a block a page from the free list, which `install_page` maps
there. `memalign` keeps the offset and the size of a block in the two words below
the address that it returns, and `free` reads them back. After `setup_vm` these
words are accessed through the page tables, which is what `Vm.load` and `Vm.store`
do.

`Held` is what the loops maintain: the table pages, the free pages and the pages
held by blocks are disjoint.
-/

namespace AcrnGuest

open Radix

/-! ### The source -/

/-- The machine together with the static variables of `lib/vmalloc.c`. -/
structure Vm where
  machine : Machine
  vfreeTop : Word
  pageRoot : Word

def virtToPtePhys (m : Mem) (cr3 mem : Word) : Option Word :=
  (getPte m cr3 mem).map fun pte => (m pte &&& PT_ADDR_MASK) + (mem &&& (PAGE_SIZE - 1#64))

def allocVpages (v : Vm) (nr : Word) : Word × Vm :=
  let top := v.vfreeTop - PAGE_SIZE * nr
  (top, { v with vfreeTop := top })

/-- The loop `while (pages--)` of `vm_memalign`. -/
def vmMapPages (root : Word) : Machine → Word → Nat → Machine
  | s, _, 0 => s
  | s, p, pages + 1 =>
      let page := allocPage s
      let pa := virtToPhys page.1
      vmMapPages root (installPage page.2 root pa p).1 (p + PAGE_SIZE) pages

/-- `vm_memalign`. The result is `none` when the assertion fails. -/
def vmMemalign (v : Vm) (alignment size : Word) : Option (Word × Vm) :=
  if ¬ alignment ≤ PAGE_SIZE then none
  else
    let size := (size + PAGE_SIZE - 1#64) &&& ~~~ (PAGE_SIZE - 1#64)
    let pages : BitVec 32 := (size / PAGE_SIZE).setWidth 32
    let mem := allocVpages v (pages.setWidth 64)
    some (mem.1, { mem.2 with machine := vmMapPages v.pageRoot v.machine mem.1 pages.toNat })

/-- One iteration of the loop of `vm_free`, on the machine, `mem` and `size`. -/
def vmFreeStep (root : Word) (st : Machine × Word × Word) :
    (Machine × Word × Word) ⊕ Option Machine :=
  if st.2.2 = 0#64 then .inr (some st.1)
  else
    match virtToPtePhys st.1.mem root st.2.1 with
    | some phys =>
        .inl (freePage st.1 (physToVirt phys), st.2.1 + PAGE_SIZE, st.2.2 - PAGE_SIZE)
    | none => .inr none

def vmFree (v : Vm) (mem size : Word) : Option Vm :=
  ((Loop.run (vmFreeStep v.pageRoot) LOOP_BOUND (v.machine, mem, size)).join).map fun s =>
    { v with machine := s }

def Vm.load (v : Vm) (va : Word) : Option Word :=
  (translate v.machine.mem v.pageRoot va).map fun t => v.machine.mem t.phys

/-- Write a word of virtual memory. The processor honours the write protection. -/
def Vm.store (v : Vm) (va value : Word) : Option Vm :=
  (translate v.machine.mem v.pageRoot va).bind fun t =>
    if t.writable then
      some { v with
        machine := { v.machine with mem := Function.update v.machine.mem t.phys value } }
    else none

def METADATA_EXTRA : Word := 2#64 * 8#64
def OFS_SLACK : Word := -2#64 * 8#64
def OFS_SIZE : Word := -8#64

/-- `memalign` with the operations of `vmalloc_ops`, whose `align_min` is a page. -/
def memalign (v : Vm) (alignment size : Word) : Option (Word × Vm) :=
  let asked := size
  let size := if alignment ≤ 8#64 then asked else asked + (alignment - 1#64)
  let alignment := if alignment ≤ 8#64 then 8#64 else alignment
  let blkalign := if alignment > PAGE_SIZE then alignment else PAGE_SIZE
  let size := ALIGN (size + METADATA_EXTRA) PAGE_SIZE
  (vmMemalign v blkalign size).bind fun block =>
    let p := block.1
    let mem := ALIGN (p + METADATA_EXTRA) alignment
    (block.2.store (mem + OFS_SLACK) (mem - p)).bind fun v =>
      (v.store (mem + OFS_SIZE) size).map fun v => (mem, v)

def malloc (v : Vm) (size : Word) : Option (Word × Vm) := memalign v 8#64 size

def blockBegin (v : Vm) (mem : Word) : Option Word :=
  (v.load (mem + OFS_SLACK)).map fun slack => mem - slack

def blockSize (v : Vm) (mem : Word) : Option Word := v.load (mem + OFS_SIZE)

def free (v : Vm) (ptr : Word) : Option Vm :=
  (blockBegin v ptr).bind fun base => (blockSize v ptr).bind fun sz => vmFree v base sz

/-- `setup_vm`, for the unused physical memory `[base, top)`. The allocator counts as
    initialized when its list is not empty. -/
def setupVm (s : Machine) (base top : Word) : Option Vm :=
  if ¬ (base ≠ top ∨ s.freelist ≠ 0#64) then none
  else
    let donated : Option (Machine × Word) :=
      if s.freelist = 0#64 then
        let base := (base + PAGE_SIZE - 1#64) &&& -PAGE_SIZE
        let top := top &&& -PAGE_SIZE
        (freePages s base (top - base)).map fun s => (s, top)
      else some (s, top)
    donated.bind fun st => (setupMmu st.1 st.2).map fun root =>
      { machine := root.2, vfreeTop := 0#64, pageRoot := root.1 }

/-! ### The size of a block -/

/-- The number of pages for a size. The rounding may overflow, and the count is an `unsigned`. -/
def blockPages (size : Word) : Nat := (size.toNat + 4095) % 2 ^ 64 / 4096 % 2 ^ 32

theorem toNat_pages (size : Word) :
    ((((size + PAGE_SIZE - 1#64) &&& ~~~ (PAGE_SIZE - 1#64)) / PAGE_SIZE).setWidth 32 :
      BitVec 32).toNat =
      blockPages size := by
  have hsum : (size + PAGE_SIZE - 1#64).toNat = (size.toNat + 4095) % 2 ^ 64 := by
    have hlt := size.isLt
    rw [PAGE_SIZE_eq]
    bv_omega
  have hround : ((size + PAGE_SIZE - 1#64) &&& ~~~ (PAGE_SIZE - 1#64)).toNat =
      (size.toNat + 4095) % 2 ^ 64 / 4096 * 4096 := by
    rw [← hsum]
    exact toNat_pageOf _
  rw [BitVec.toNat_setWidth, BitVec.toNat_udiv, hround, toNat_PAGE_SIZE,
    Nat.mul_div_cancel _ (by omega), blockPages]

theorem PAGE_SIZE_mul (pages : BitVec 32) :
    PAGE_SIZE * pages.setWidth 64 = BitVec.ofNat 64 (4096 * pages.toNat) := by
  apply BitVec.eq_of_toNat_eq
  rw [BitVec.toNat_mul, toNat_PAGE_SIZE, BitVec.toNat_setWidth, BitVec.toNat_ofNat,
    Nat.mod_eq_of_lt (by omega : pages.toNat < 2 ^ 64)]

def nextBlock (v : Vm) (size : Word) : Word := v.vfreeTop - BitVec.ofNat 64 (4096 * blockPages size)

def blockArea (v : Vm) (size : Word) : List Word := pageRange (nextBlock v size) (blockPages size)

/-! ### Pages held by blocks -/

/-- The free pages `free`, the pages `held` and the table pages are disjoint. -/
structure Held (s : Machine) (root : Word) (free held : List Word) : Prop where
  supply : Supply (s, 0#64) free
  wf : x86.WF x86Open s.mem PAGE_LEVEL root
  apart : ∀ q ∈ free, q ∉ tablePages s.mem root
  nodup : held.Nodup
  phys : ∀ f ∈ held, PhysPage f ∧ f ≠ 0#64
  notFree : ∀ f ∈ held, f ∉ free
  notTable : ∀ f ∈ held, f ∉ tablePages s.mem root

/-- A page mapped to the page `f` by `install_page`. -/
def userLeaf (f : Word) : Mapping := ⟨1, userEntry f, true, true⟩

theorem userLeaf_translation {f : Word} (hf : PhysPage f) (va : Word) :
    (userLeaf f).translation va = ⟨f + BitVec.ofNat 64 (va.toNat % 4096), true, true⟩ := by
  have hframe : userEntry f &&& GENMASK_ULL 51 (PGDIR_BITS 1) = f := userEntry_addr hf
  simp only [userLeaf, Mapping.translation, hframe]
  rfl

theorem Canonical.of_page {p va : Word} (h : Canonical p) (hp : IsPage p) (hva : pageOf va = p) :
    Canonical va := by
  rw [isPage_iff] at hp
  rw [pageOf_eq_iff] at hva
  unfold Canonical at h ⊢
  omega

section Held

variable {s : Machine} {root p : Word} {free held : List Word}

theorem Held.perm (h : Held s root free held) {held' : List Word} (hperm : held.Perm held') :
    Held s root free held' :=
  ⟨h.supply, h.wf, h.apart, hperm.nodup_iff.mp h.nodup, fun f hf => h.phys f (hperm.mem_iff.mpr hf),
    fun f hf => h.notFree f (hperm.mem_iff.mpr hf), fun f hf => h.notTable f (hperm.mem_iff.mpr hf)⟩

/-- Behind pointers that grant every access the leaf of the page is a user leaf. -/
theorem leafOf_of_installed {m m' : Mem} {f va : Word} {taken : List Word}
    (hinst : Installed x86 x86Open x86Leaf m m' 1 p (userEntry f) PAGE_LEVEL root taken)
    (hf : PhysPage f) (hp : IsPage p) (hcanon : Canonical p) (hva : pageOf va = p) :
    leafOf m' root va = some (userLeaf f) := by
  obtain ⟨path, -, hopen, htarget⟩ := hinst.reads_target
  have hsame : va.toNat / 4096 = p.toNat / 4096 := pageOf_eq_pageOf_iff.mp (hva.trans hp.symm)
  have hleaf : x86Leaf.leaf 1 (userEntry f) va = some (userLeaf f) := by
    simp [x86Leaf, userLeaf, userEntry_present hf, userEntry_writable hf, userEntry_user hf]
  have heval := htarget _ x86Leaf va fun k hk _ => tableIndex_eq_of_div_eq hk hsame
  rw [climb_x86Leaf_of_open hopen, hleaf] at heval
  rw [leafOf, if_pos (hcanon.of_page hp hva)]
  exact heval

/-- **One iteration of `vm_memalign`** maps the page `p` to a page from the free list. -/
theorem Held.mapPage (h : Held s root free held) (hp : IsPage p) (hcanon : Canonical p)
    (hnone : leafOf s.mem root p = none)
    (henough : missingTables s.mem root p 1 + 1 ≤ free.length) :
    ∃ f rest, Held (installPage (allocPage s).2 root (allocPage s).1 p).1 root rest (f :: held) ∧
      (∀ va, pageOf va = p →
        leafOf (installPage (allocPage s).2 root (allocPage s).1 p).1.mem root va =
          some (userLeaf f)) ∧
      (∀ va, pageOf va ≠ p →
        leafOf (installPage (allocPage s).2 root (allocPage s).1 p).1.mem root va =
          leafOf s.mem root va) ∧
      (∀ a, pageOf a ∈ held →
        (installPage (allocPage s).2 root (allocPage s).1 p).1.mem a = s.mem a) ∧
      rest.length + (missingTables s.mem root p 1 + 1) = free.length ∧
      ∀ pages, tablesNeeded s.mem root (p :: pages) = missingTables s.mem root p 1 +
        tablesNeeded (installPage (allocPage s).2 root (allocPage s).1 p).1.mem root pages := by
  cases free with
  | nil => exact absurd henough (by simp)
  | cons f free =>
      obtain ⟨halloc, hlist⟩ := allocPage_cons h.supply.freeList
      have hf : PhysPage f := h.supply.phys f (by simp)
      obtain ⟨hfNotMem, hnodup⟩ := List.nodup_cons.mp h.supply.nodup
      have hsupply := Supply.of_freeList hlist fun q hq => h.supply.phys q (by simp [hq])
      have hpath : x86.eval (noLeafAbove 1) s.mem PAGE_LEVEL root p := by
        rw [leafOf, if_pos hcanon] at hnone
        exact noLeafAbove_of_leaf_none 1 hnone
      have hapart : ∀ q ∈ free, q ∉ tablePages s.mem root := fun q hq => h.apart q (by simp [hq])
      rw [List.length_cons] at henough
      obtain ⟨taken, rest, ptPage', hsplit, hptPage, hsupply', hinst⟩ :=
        installPte_spec growsWith_x86Open (Nat.le_refl 1) (by decide) (x86Child_one (userEntry f))
          ⟨fun h4 => by omega, fun hc => (hc (x86Child_one _)).elim⟩ hsupply h.wf hapart hpath
          (Nat.le_of_succ_le_succ henough)
      rw [hptPage rfl] at hsupply'
      have htaken : ∀ q ∈ taken, q ∈ free := fun q hq =>
        hsplit.mem_iff.mpr (List.mem_append_left _ hq)
      have hrest : ∀ q ∈ rest, q ∈ free := fun q hq =>
        hsplit.mem_iff.mpr (List.mem_append_right _ hq)
      have hnotTable : ∀ q, q ∉ free → q ∉ tablePages s.mem root →
          q ∉ tablePages (installPage { s with freelist := s.mem f } root f p).1.mem root := by
        intro q hfree htable hmem
        rcases hinst.pages q hmem with hold | hnew
        · exact htable hold
        · exact hfree (htaken q hnew)
      rw [halloc]
      refine ⟨f, rest, ⟨hsupply', hinst.wf, hinst.notMem_pages hsplit hnodup hapart,
        ?_, ?_, ?_, ?_⟩,
        fun va hva => ?_, fun va hva => ?_, fun a ha => ?_, ?_, hinst.card_missingOn_cons⟩
      · exact List.nodup_cons.mpr ⟨fun hmem => h.notFree f hmem (by simp), h.nodup⟩
      · rintro q (_ | ⟨_, hq⟩)
        · exact ⟨hf, fun h0 => h.supply.freeList.zero_notMem (by simp [← h0])⟩
        · exact h.phys q hq
      · rintro q (_ | ⟨_, hq⟩) hmem
        · exact hfNotMem (hrest f hmem)
        · exact h.notFree q hq (List.mem_cons_of_mem _ (hrest q hmem))
      · rintro q (_ | ⟨_, hq⟩)
        · exact hnotTable f hfNotMem (h.apart f (by simp))
        · exact hnotTable q (fun hmem => h.notFree q hq (List.mem_cons_of_mem _ hmem))
            (h.notTable q hq)
      · exact leafOf_of_installed hinst hf hp hcanon hva
      · have hpage : va.toNat / 4096 ≠ p.toNat / 4096 := fun heq =>
          hva ((pageOf_eq_pageOf_iff.mpr heq).trans hp)
        exact leafOf_other hinst (Nat.le_refl 1) (by decide) hcanon hpage
      · exact hinst.frame a (h.notTable _ ha) fun hmem =>
          h.notFree _ ha (List.mem_cons_of_mem _ (htaken _ hmem))
      · have hcount : taken.length = missingTables s.mem root p 1 := hinst.count
        have hlength := hsplit.length_eq
        rw [List.length_append] at hlength
        rw [List.length_cons]
        omega

/-! ### Mapping the pages of a block -/

/-- Each page of the list is mapped to the page next to it. -/
def Maps (m : Mem) (root : Word) (maps : List (Word × Word)) : Prop :=
  ∀ pf ∈ maps, ∀ va, pageOf va = pf.1 → leafOf m root va = some (userLeaf pf.2)

/-- The free list has a page for each of `n` pages from `p` on, and one for each table that is
missing on the way to them. -/
def AmpleFrames (root : Word) (s : Machine) (p : Word) (n : Nat) : Prop :=
  ∃ pages, FreeList s pages ∧ n + tablesNeeded s.mem root (pageRange p n) ≤ pages.length

/-- **The loop of `vm_memalign`** maps pages that were not mapped before. -/
theorem Held.vmMapPages {n : Nat} (h : Held s root free held)
    (hpages : ∀ q ∈ pageRange p n, IsPage q ∧ Canonical q) (hnodup : (pageRange p n).Nodup)
    (hnone : ∀ q ∈ pageRange p n, leafOf s.mem root q = none)
    (henough : n + tablesNeeded s.mem root (pageRange p n) ≤ free.length) :
    ∃ maps rest, maps.map Prod.fst = pageRange p n ∧
      Held (vmMapPages root s p n) root rest (maps.map Prod.snd ++ held) ∧
      Maps (vmMapPages root s p n).mem root maps ∧
      (∀ va, pageOf va ∉ pageRange p n →
        leafOf (vmMapPages root s p n).mem root va = leafOf s.mem root va) ∧
      (∀ a, pageOf a ∈ held → (vmMapPages root s p n).mem a = s.mem a) ∧
      rest.length + (n + tablesNeeded s.mem root (pageRange p n)) = free.length := by
  induction n generalizing s p free held with
  | zero => exact ⟨[], free, rfl, h, nofun, fun _ _ => rfl, fun _ _ => rfl, rfl⟩
  | succ n ih =>
      rw [pageRange, List.nodup_cons] at hnodup
      rw [pageRange] at henough
      obtain ⟨hp, hcanon⟩ := hpages p (by simp [pageRange])
      have hfirst := missingTables_le_tablesNeeded s.mem root p (pageRange (p + PAGE_SIZE) n)
      obtain ⟨f, rest, hheld, hleaf, hother, hdata, hlength, htables⟩ :=
        h.mapPage hp hcanon (hnone p (by simp [pageRange])) (by omega)
      rw [htables] at henough
      have htail : ∀ q ∈ pageRange (p + PAGE_SIZE) n, q ∈ pageRange p (n + 1) := fun q hq => by
        simp [pageRange, hq]
      have hnone' : ∀ q ∈ pageRange (p + PAGE_SIZE) n,
          leafOf (installPage (allocPage s).2 root (allocPage s).1 p).1.mem root q = none := by
        intro q hq
        have hqPage : pageOf q = q := (hpages q (htail q hq)).1
        rw [hother q (by rw [hqPage]; rintro rfl; exact hnodup.1 hq)]
        exact hnone q (htail q hq)
      obtain ⟨maps, rest', hfst, hheld', hmaps, hother', hdata', hlength'⟩ :=
        ih hheld (fun q hq => hpages q (htail q hq)) hnodup.2 hnone' (by omega)
      refine ⟨(p, f) :: maps, rest', ?_, hheld'.perm List.perm_middle, ?_, fun va hva => ?_,
        fun a ha => ?_, ?_⟩
      · rw [List.map_cons, hfst, pageRange]
      · rintro pf (_ | ⟨_, hpf⟩) va hva
        · refine (hother' va ?_).trans (hleaf va hva)
          rw [hva]
          exact hnodup.1
        · exact hmaps pf hpf va hva
      · rw [pageRange, List.mem_cons, not_or] at hva
        exact (hother' va hva.2).trans (hother va hva.1)
      · exact (hdata' a (List.mem_cons_of_mem f ha)).trans (hdata a ha)
      · rw [pageRange, htables]
        omega

/-! ### Writing to pages that are no tables -/

theorem Held.tables_congr {m : Mem} (h : Held s root free held)
    (hagree : ∀ a, pageOf a ∈ tablePages s.mem root → m a = s.mem a) :
    x86.WF x86Open m PAGE_LEVEL root ∧ tablePages m root = tablePages s.mem root ∧
      ∀ va, leafOf m root va = leafOf s.mem root va := by
  refine ⟨h.wf.congr hagree, h.wf.pages_congr hagree, fun va => ?_⟩
  unfold leafOf
  rw [h.wf.eval_congr hagree]

theorem Held.update_agrees (h : Held s root free held) {a : Word} (ha : pageOf a ∈ held)
    (value : Word) : ∀ b, pageOf b ∈ tablePages s.mem root →
      Function.update s.mem a value b = s.mem b := by
  intro b hb
  refine Function.update_of_ne ?_ _ _
  rintro rfl
  exact h.notTable _ ha hb

theorem Held.write (h : Held s root free held) {a : Word} (ha : pageOf a ∈ held) (value : Word) :
    Held { s with mem := Function.update s.mem a value } root free held ∧
      ∀ va, leafOf (Function.update s.mem a value) root va = leafOf s.mem root va := by
  obtain ⟨hwf, hpages, hleaf⟩ := h.tables_congr (h.update_agrees ha value)
  have hsupply : Supply ({ s with mem := Function.update s.mem a value }, 0#64) free := by
    refine h.supply.frame fun q hq => Function.update_of_ne ?_ _ _
    rintro rfl
    have hqPage : pageOf q = q := (h.supply.phys q hq).isPage
    rw [hqPage] at ha
    exact h.notFree q ha hq
  refine ⟨⟨hsupply, hwf, ?_, h.nodup, h.phys, h.notFree, ?_⟩, hleaf⟩
  · intro q hq
    rw [hpages]
    exact h.apart q hq
  · intro f hf
    rw [hpages]
    exact h.notTable f hf

/-- **`free_page`** of a held page. -/
theorem Held.freePage {f : Word} (h : Held s root free (f :: held)) :
    Held (freePage s f) root (f :: free) held ∧
      (∀ va, leafOf (freePage s f).mem root va = leafOf s.mem root va) ∧
      ∀ a, pageOf a ∈ held → (freePage s f).mem a = s.mem a := by
  obtain ⟨hf, hne⟩ := h.phys f (by simp)
  have hfPage : pageOf f = f := hf.isPage
  obtain ⟨hnotMem, hnodup⟩ := List.nodup_cons.mp h.nodup
  obtain ⟨hwf, hpages, hleaf⟩ := h.tables_congr
    (h.update_agrees (by rw [hfPage]; simp : pageOf f ∈ f :: held) s.freelist)
  have hlist := freePage_spec h.supply.freeList hf.isPage hne (h.notFree f (by simp))
  refine ⟨⟨Supply.of_freeList hlist ?_, hwf, ?_, hnodup, fun g hg =>
    h.phys g (by simp [hg]), ?_, ?_⟩,
    hleaf, fun a ha => Function.update_of_ne ?_ _ _⟩
  · rintro q (_ | ⟨_, hq⟩)
    · exact hf
    · exact h.supply.phys q hq
  · change ∀ q ∈ f :: free, q ∉ tablePages (Function.update s.mem f s.freelist) root
    rw [hpages]
    rintro q (_ | ⟨_, hq⟩)
    · exact h.notTable f (by simp)
    · exact h.apart q hq
  · rintro g hg (_ | ⟨_, hfree⟩)
    · exact hnotMem hg
    · exact h.notFree g (by simp [hg]) hfree
  · change ∀ g ∈ held, g ∉ tablePages (Function.update s.mem f s.freelist) root
    rw [hpages]
    exact fun g hg => h.notTable g (by simp [hg])
  · rintro rfl
    rw [hfPage] at ha
    exact hnotMem ha

end Held

/-! ### Giving the pages of a block back -/

/-- The level and the entry of a leaf are those where the walk ends. -/
theorem eval_of_leaf {m : Mem} {l : Nat} {p va : Word} {leaf : Mapping}
    (h : x86.eval x86Leaf m l p va = some leaf) :
    x86.eval stopLevel m l p va = leaf.level ∧ x86.eval lastEntry m l p va = leaf.entry := by
  induction l generalizing p leaf with
  | zero => exact absurd h (by simp [Layout.eval, x86Leaf])
  | succ l ih =>
      cases hc : x86.child (l + 1) (x86.entry m (l + 1) p va) with
      | none =>
          rw [Layout.eval_none hc] at h ⊢
          rw [Layout.eval_none hc]
          unfold x86Leaf at h
          dsimp only at h
          split_ifs at h
          obtain rfl := Option.some.inj h
          exact ⟨rfl, rfl⟩
      | some c =>
          rw [Layout.eval_some hc] at h ⊢
          rw [Layout.eval_some hc]
          obtain ⟨found, hfound, rfl⟩ := Option.map_eq_some_iff.mp h
          have hrest := ih hfound
          exact ⟨hrest.1, hrest.2⟩

theorem virtToPtePhys_of_leaf {m : Mem} {root p f : Word} (hp : IsPage p) (hf : PhysPage f)
    (h : leafOf m root p = some (userLeaf f)) : virtToPtePhys m root p = some f := by
  unfold leafOf at h
  split_ifs at h
  obtain ⟨hstop, hlast⟩ := eval_of_leaf h
  obtain ⟨pte, hget, hpte⟩ := getPte_of_stopLevel_one hstop
  have haddr : m pte &&& PT_ADDR_MASK = f := by
    rw [hpte, hlast]
    exact userEntry_addr hf
  have hoffset : p &&& (PAGE_SIZE - 1#64) = 0#64 := by
    have hmask : PAGE_MASK &&& (PAGE_SIZE - 1#64) = 0#64 := by decide
    rw [← (hp : p &&& PAGE_MASK = p)]
    change p &&& PAGE_MASK &&& (PAGE_SIZE - 1#64) = 0#64
    rw [BitVec.and_assoc, hmask, BitVec.and_zero]
  rw [virtToPtePhys, hget, Option.map_some, haddr, hoffset, BitVec.add_zero]

theorem vmFreeStep_done (s : Machine) (root mem : Word) :
    vmFreeStep root (s, mem, 0#64) = .inr (some s) := if_pos rfl

theorem vmFreeStep_next {s : Machine} {root mem size phys : Word} (hsize : size ≠ 0#64)
    (hphys : virtToPtePhys s.mem root mem = some phys) :
    vmFreeStep root (s, mem, size) =
      .inl (freePage s phys, mem + PAGE_SIZE, size - PAGE_SIZE) := by
  unfold vmFreeStep
  rw [if_neg hsize]
  dsimp only
  rw [hphys]
  rfl

/-- **The loop of `vm_free`** puts back exactly the pages that the block holds. -/
theorem Held.run_vmFreeStep {root : Word} {held : List Word} {maps : List (Word × Word)}
    {bound : Nat} (hbound : maps.length < bound) (hlen : maps.length < 2 ^ 52)
    {s : Machine} {p : Word} {free : List Word} (h : Held s root free (maps.map Prod.snd ++ held))
    (hmaps : Maps s.mem root maps) (hfst : maps.map Prod.fst = pageRange p maps.length)
    (hp : IsPage p) :
    ∃ s', Loop.run (vmFreeStep root) bound (s, p, BitVec.ofNat 64 (4096 * maps.length)) =
        some (some s') ∧
      Held s' root ((maps.map Prod.snd).reverse ++ free) held ∧
      (∀ va, leafOf s'.mem root va = leafOf s.mem root va) ∧
      ∀ a, pageOf a ∈ held → s'.mem a = s.mem a := by
  induction maps generalizing s p free bound with
  | nil =>
      obtain ⟨bound, rfl⟩ : ∃ k, bound = k + 1 :=
        ⟨bound - 1, by rw [List.length_nil] at hbound; omega⟩
      exact ⟨s, Loop.run_succ_inr (vmFreeStep_done s root p) bound, h, fun _ => rfl, fun _ _ => rfl⟩
  | cons pf maps ih =>
      obtain ⟨q, f⟩ := pf
      rw [List.length_cons] at hbound hlen hfst
      rw [List.map_cons, pageRange, List.cons.injEq] at hfst
      obtain ⟨hq, hfst⟩ := hfst
      obtain rfl : q = p := hq
      obtain ⟨bound, rfl⟩ : ∃ k, bound = k + 1 := ⟨bound - 1, by omega⟩
      have hf : PhysPage f := (h.phys f (by simp)).1
      have hphys := virtToPtePhys_of_leaf hp hf (hmaps (q, f) (by simp) q hp)
      have hsize : BitVec.ofNat 64 (4096 * (maps.length + 1)) ≠ 0#64 := by
        bv_omega
      have hnext : BitVec.ofNat 64 (4096 * (maps.length + 1)) - PAGE_SIZE =
          BitVec.ofNat 64 (4096 * maps.length) := by
        rw [PAGE_SIZE_eq]
        bv_omega
      obtain ⟨hheld, hleaf, hdata⟩ := h.freePage
      have hbound' : maps.length < bound := by omega
      obtain ⟨s', hrun, hheld', hleaf', hdata'⟩ := ih hbound' (by omega) hheld
        (fun pf hpf va hva => (hleaf va).trans (hmaps pf (by simp [hpf]) va hva)) hfst
        (hp.add isPage_PAGE_SIZE)
      refine ⟨s', ?_, ?_, fun va => (hleaf' va).trans (hleaf va), fun a ha =>
        (hdata' a ha).trans (hdata a (by simp [ha]))⟩
      · rw [List.length_cons, Loop.run_succ_inl (vmFreeStep_next hsize hphys), hnext]
        exact hrun
      · rw [List.map_cons, List.reverse_cons, List.append_assoc]
        exact hheld'

end AcrnGuest
