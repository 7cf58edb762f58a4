import AcrnGuest.PagingBlocks
import AcrnGuest.Vmalloc

/-!
# The physical pages that a block uses (`lib/vmalloc.c`, `lib/x86/vm.c`, `lib/alloc_page.c`)

`alloc_page` returns the null pointer when the free list is empty. Neither `vm_memalign` nor
`install_pte` looks at it: the page at the physical address 0 is mapped as part of the block,
or it is cleared and linked as a table. `PageUse` records what is done with physical pages, and
`vmMemalignUses` is the record of a call. The main theorem says how many free pages there must be
for a call to stay within the free list.
-/

namespace AcrnGuest

open Radix

/-! ### What the source does with physical pages -/

inductive PageUse
  | map (page : Word)
  | zero (page : Word)
  | link (page : Word)
deriving DecidableEq

def PageUse.page : PageUse → Word
  | .map page => page
  | .zero page => page
  | .link page => page

/-- The iteration of `install_pte`: a missing table is cleared and linked. -/
def installPteStepUses (virt : Word) (level : Nat) (st : (Machine × Word) × Word) : List PageUse :=
  let pt := st.2
  let entry := entryAddr pt (PGDIR_OFFSET virt level)
  if st.1.1.mem entry &&& PT_PRESENT_MASK = 0#64 then
    let newPt := (takePage st.1).1
    [.zero newPt, .link (virtToPhys newPt)]
  else []

def installPteUses (s : Machine) (cr3 : Word) (pteLevel : Nat) (virt ptPage : Word) :
    List PageUse :=
  Loop.downTrace (installPteStep virt) (installPteStepUses virt) pteLevel PAGE_LEVEL
    ((s, ptPage), cr3)

def installPageUses (s : Machine) (cr3 phys virt : Word) : List PageUse :=
  installPteUses s cr3 1 virt 0#64 ++ [.map phys]

def vmMapPagesUses (root : Word) : Machine → Word → Nat → List PageUse
  | _, _, 0 => []
  | s, p, pages + 1 =>
      let page := allocPage s
      let pa := virtToPhys page.1
      installPageUses page.2 root pa p ++
        vmMapPagesUses root (installPage page.2 root pa p).1 (p + PAGE_SIZE) pages

def vmMemalignUses (v : Vm) (alignment size : Word) : List PageUse :=
  if ¬ alignment ≤ PAGE_SIZE then []
  else
    let size := (size + PAGE_SIZE - 1#64) &&& ~~~ (PAGE_SIZE - 1#64)
    let pages : BitVec 32 := (size / PAGE_SIZE).setWidth 32
    let mem := allocVpages v (pages.setWidth 64)
    vmMapPagesUses v.pageRoot v.machine mem.1 pages.toNat

/-! ### Keeping accounts -/

/-- The uses need so many pages of the free list: with fewer, page 0 is used. -/
structure Accounted (uses : List PageUse) (free : List Word) (needed : Nat) : Prop where
  within : needed ≤ free.length → ∀ u ∈ uses, u.page ∈ free
  exhausted : free.length < needed → ∃ u ∈ uses, u.page = 0#64

section Accounted

variable {uses uses' : List PageUse} {free : List Word} {a needed : Nat}

theorem Accounted.nil (free : List Word) : Accounted [] free 0 where
  within _ _ hu := absurd hu List.not_mem_nil
  exhausted hlt := absurd hlt (Nat.not_lt_zero _)

/-- One after the other: the later uses only find what the earlier ones left. -/
theorem Accounted.append (h : Accounted uses free a) (hle : a ≤ needed)
    (hlater : a ≤ free.length → ∃ taken rest b, free.Perm (taken ++ rest) ∧ taken.length = a ∧
      needed = a + b ∧ Accounted uses' rest b) :
    Accounted (uses ++ uses') free needed := by
  refine ⟨fun henough u hu => ?_, fun hlack => ?_⟩
  · obtain ⟨taken, rest, b, hsplit, hlength, hneeded, hrest⟩ := hlater (hle.trans henough)
    have htotal := hsplit.length_eq
    rw [List.length_append] at htotal
    rcases List.mem_append.mp hu with hu | hu
    · exact h.within (hle.trans henough) u hu
    · exact hsplit.mem_iff.mpr (List.mem_append_right _ (hrest.within (by omega) u hu))
  · by_cases ha : a ≤ free.length
    · obtain ⟨taken, rest, b, hsplit, hlength, hneeded, hrest⟩ := hlater ha
      have htotal := hsplit.length_eq
      rw [List.length_append] at htotal
      obtain ⟨u, hu, hzero⟩ := hrest.exhausted (by omega)
      exact ⟨u, List.mem_append_right _ hu, hzero⟩
    · obtain ⟨u, hu, hzero⟩ := h.exhausted (Nat.lt_of_not_le ha)
      exact ⟨u, List.mem_append_left _ hu, hzero⟩

theorem Accounted.perm (h : Accounted uses free a) (hperm : uses.Perm uses') :
    Accounted uses' free a := by
  refine ⟨fun henough u hu => h.within henough u (hperm.mem_iff.mpr hu), fun hlack => ?_⟩
  obtain ⟨u, hu, hzero⟩ := h.exhausted hlack
  exact ⟨u, hperm.mem_iff.mp hu, hzero⟩

/-- Page 0 is never on the free list. -/
theorem Accounted.within_iff (h : Accounted uses free a) (hzero : 0#64 ∉ free) :
    (∀ u ∈ uses, u.page ∈ free) ↔ a ≤ free.length := by
  refine ⟨fun hall => ?_, h.within⟩
  by_contra hlack
  obtain ⟨u, hu, hpage⟩ := h.exhausted (Nat.lt_of_not_le hlack)
  exact hzero (hpage ▸ hall u hu)

end Accounted

/-! ### Tables -/

variable {s : Machine} {root virt p : Word} {free : List Word} {l n : Nat}

/-- What `alloc_page` returns is on the free list, or it is page 0. -/
theorem accounted_allocPage (h : FreeList s free) {uses : List PageUse} (hne : uses ≠ [])
    (hpage : ∀ u ∈ uses, u.page = (allocPage s).1) : Accounted uses free 1 := by
  obtain ⟨u, hu⟩ := List.exists_mem_of_ne_nil uses hne
  cases free with
  | nil =>
      refine ⟨fun henough => absurd henough (by decide), fun _ => ⟨u, hu, ?_⟩⟩
      rw [hpage u hu, allocPage_nil h]
  | cons q rest =>
      refine ⟨fun _ u' hu' => ?_, fun hlack => absurd hlack (by simp)⟩
      rw [hpage u' hu', (allocPage_cons h).1]
      exact List.mem_cons_self

/-- **The tables of a page.** The pages that are cleared and linked on the way down from a table. -/
theorem accounted_tables (virt : Word) (hsupply : Supply (s, 0#64) free)
    (hwf : x86.WF x86Good s.mem l p) (hapart : ∀ q ∈ free, q ∉ x86.pages s.mem l p)
    (hpath : x86.eval (noLeafAbove 1) s.mem l p virt) :
    Accounted (Loop.downTrace (installPteStep virt) (installPteStepUses virt) 1 l
      ((s, 0#64), p)) free
      (x86.eval stopLevel s.mem l p virt - 1) := by
  induction l generalizing s p free with
  | zero => exact Accounted.nil free
  | succ l ih =>
      have hlow := Layout.one_le_stopLevel x86 s.mem l p virt
      have hhigh := Layout.stopLevel_le x86 s.mem (l + 1) p virt
      rw [Loop.downTrace]
      by_cases hl : 1 < l + 1
      swap
      · rw [if_neg hl, show x86.eval stopLevel s.mem (l + 1) p virt - 1 = 0 by omega]
        exact Accounted.nil free
      rw [if_pos hl]
      have hentry : entryAddr p (PGDIR_OFFSET virt (l + 1)) = slot p (tableIndex (l + 1) virt) :=
        entryAddr_PGDIR_OFFSET p virt (l + 1)
      have hnext : (x86.eval stopLevel s.mem (l + 1) p virt = l + 1 → free ≠ []) →
          ∃ taken rest, free.Perm (taken ++ rest) ∧
            taken.length = x86.eval stopLevel s.mem (l + 1) p virt - min
              (x86.eval stopLevel s.mem (l + 1) p virt) l ∧
            Accounted (Loop.downTrace (installPteStep virt) (installPteStepUses virt) 1 l
              (installPteStep virt (l + 1) ((s, 0#64), p))) rest
              (min (x86.eval stopLevel s.mem (l + 1) p virt) l - 1) := by
        intro hne
        obtain ⟨⟨s', ptPage'⟩, c, taken, rest, hstep, hopen, hready⟩ :=
          installPteStep_opens growsWith_x86Good virt (Nat.le_refl 1) (Nat.le_of_lt_succ hl)
            (s, 0#64) p free
            hsupply hsupply.nodup hwf hapart hpath hne
        have hstep' : installPteStep virt (l + 1) ((s, 0#64), p) = ((s', ptPage'), c) :=
          Option.some.inj hstep
        have hptPage : ptPage' = 0#64 := by
          have h0 : (installPteStep virt (l + 1) ((s, 0#64), p)).1.2 = 0#64 :=
            installPteStep_ptPage rfl
          rwa [hstep'] at h0
        subst hptPage
        have hcount := hopen.count
        have hstop := hopen.stops virt rfl
        dsimp only at hcount hstop
        refine ⟨taken, rest, hopen.split, by omega, ?_⟩
        rw [hstep', ← hstop]
        exact ih hopen.supply hopen.wf (hopen.rest_notMem hsupply.nodup hapart) hready
      by_cases habsent : s.mem (slot p (tableIndex (l + 1) virt)) &&& PT_PRESENT_MASK = 0#64
      · -- a table is missing: the first free page, and what is left for the levels below
        have hstop : x86.eval stopLevel s.mem (l + 1) p virt = l + 1 :=
          Layout.eval_none (x86Child_of_absent habsent)
        have hevent : installPteStepUses virt (l + 1) ((s, 0#64), p) =
            [.zero (allocPage s).1, .link (virtToPhys (allocPage s).1)] := by
          simp only [installPteStepUses, hentry, if_pos habsent, takePage, if_true]
        rw [hevent]
        refine (accounted_allocPage hsupply.freeList (List.cons_ne_nil _ _) fun u hu =>
          ?_).append (by omega)
          fun hone => ?_
        · rcases List.mem_pair.mp hu with rfl | rfl <;> rfl
        · obtain ⟨taken, rest, hsplit, hlength, hrest⟩ := hnext fun _ hnil => by simp [hnil] at hone
          exact ⟨taken, rest, _, hsplit, by omega, by omega, hrest⟩
      · -- the entry is a pointer, since no leaf lies above the page
        have hstop : x86.eval stopLevel s.mem (l + 1) p virt ≤ l := by
          have hc : x86Child (l + 1) (s.mem (slot p (tableIndex (l + 1) virt))) =
              some (s.mem (slot p (tableIndex (l + 1) virt)) &&& PT_ADDR_MASK) := by
            refine x86Child_eq_some fun hnone => habsent ?_
            rw [Layout.eval_none hnone] at hpath
            exact hpath hl
          have hbelow : x86.eval stopLevel s.mem (l + 1) p virt =
              x86.eval stopLevel s.mem l _ virt := Layout.eval_some hc
          exact hbelow ▸ Layout.stopLevel_le x86 s.mem l _ virt
        have hevent : installPteStepUses virt (l + 1) ((s, 0#64), p) = [] := by
          simp only [installPteStepUses, hentry, if_neg habsent]
        rw [hevent]
        refine (Accounted.nil free).append (Nat.zero_le _) fun _ => ?_
        obtain ⟨taken, rest, hsplit, hlength, hrest⟩ := hnext fun htop => by omega
        exact ⟨taken, rest, _, hsplit, by omega, by omega, hrest⟩

/-! ### Blocks -/

/-- **One page**: a page for the block and the tables that are missing. -/
theorem accounted_page (h : Stocked s root free) (hpath : NoLargePage s.mem root virt) :
    Accounted (installPageUses (allocPage s).2 root (virtToPhys (allocPage s).1) virt) free
      (missingTables s.mem root virt 1 + 1) := by
  have hpage : Accounted [.map (virtToPhys (allocPage s).1)] free 1 :=
    accounted_allocPage h.supply.freeList (List.cons_ne_nil _ _) fun u hu =>
      List.mem_singleton.mp hu ▸ rfl
  refine (hpage.append (Nat.succ_pos _) fun hone => ?_).perm List.perm_append_comm
  obtain ⟨q, rest, rfl⟩ := List.exists_cons_of_ne_nil (List.ne_nil_of_length_pos hone)
  obtain ⟨halloc, hrest⟩ := h.cons
  rw [halloc]
  exact ⟨[q], rest, missingTables s.mem root virt 1, List.Perm.refl _, rfl, (Nat.add_comm 1 _).symm,
    accounted_tables virt hrest.supply hrest.table hrest.apart hpath⟩

/-- **All pages of a block.** -/
theorem accounted_pages (h : Stocked s root free)
    (hpath : ∀ q ∈ pageRange p n, NoLargePage s.mem root q) :
    Accounted (vmMapPagesUses root s p n) free (n + tablesNeeded s.mem root (pageRange p n)) := by
  induction n generalizing s p free with
  | zero => exact Accounted.nil free
  | succ n ih =>
      have hp : NoLargePage s.mem root p := hpath p List.mem_cons_self
      have hle := missingTables_le_tablesNeeded s.mem root p (pageRange (p + PAGE_SIZE) n)
      rw [vmMapPagesUses, pageRange]
      refine (accounted_page h hp).append (by omega) fun henough => ?_
      obtain ⟨q, free', rfl⟩ :=
        List.exists_cons_of_ne_nil (List.ne_nil_of_length_pos (by omega : 0 < free.length))
      obtain ⟨halloc, hstock⟩ := h.cons
      obtain ⟨taken, rest, hsplit, hstock', hinst⟩ :=
        hstock.installPage hp (Nat.le_of_succ_le_succ henough) (virtToPhys q)
      rw [halloc]
      refine ⟨q :: taken, rest, _, hsplit.cons q, ?_, ?_, ih hstock' fun q' hq' => ?_⟩
      · rw [List.length_cons, hinst.count]
        rfl
      · have hsum := tablesNeeded_cons hinst (pageRange (p + PAGE_SIZE) n)
        dsimp only at hsum ⊢
        omega
      · exact noLargePage_of_installed hinst (hpath q' (List.mem_cons_of_mem _ hq'))

theorem vmMemalignUses_eq (v : Vm) {alignment : Word} (halign : alignment ≤ PAGE_SIZE)
    (size : Word) :
    vmMemalignUses v alignment size =
      vmMapPagesUses v.pageRoot v.machine (nextBlock v size) (blockPages size) := by
  rw [vmMemalignUses, if_neg (not_not.mpr halign)]
  dsimp only
  rw [toNat_pages, allocVpages, PAGE_SIZE_mul, toNat_pages, nextBlock]

/-- **`vm_memalign`** only uses pages of the free list exactly if there are enough of them: one for
    each page of the block, and one for each table that is missing in its area. -/
theorem vmMemalign_within_free_list_iff (v : Vm) (alignment size : Word)
    (hstock : Stocked v.machine v.pageRoot free)
    (harea : ∀ q ∈ blockArea v size, NoLargePage v.machine.mem v.pageRoot q) :
    (∀ u ∈ vmMemalignUses v alignment size, u.page ∈ free) ↔
      (alignment ≤ PAGE_SIZE →
        blockPages size + tablesNeeded v.machine.mem v.pageRoot (blockArea v size) ≤
          free.length) := by
  by_cases halign : alignment ≤ PAGE_SIZE
  · rw [vmMemalignUses_eq v halign, imp_iff_right halign]
    exact (accounted_pages hstock harea).within_iff hstock.supply.freeList.zero_notMem
  · rw [vmMemalignUses, if_pos halign]
    exact iff_of_true (fun _ hu => absurd hu List.not_mem_nil) fun h => absurd h halign

def fourPagesMachine : Machine where
  mem a := if a = 0x2000#64 then 0x3000#64 else if a = 0x3000#64 then 0x4000#64
    else if a = 0x4000#64 then 0x5000#64 else 0#64
  freelist := 0x2000#64

/-- Four pages are just enough for one page and its tables. -/
theorem vmMemalign_within_four_pages :
    Stocked fourPagesMachine 0x1000#64 [0x2000#64, 0x3000#64, 0x4000#64, 0x5000#64] ∧
      ∀ u ∈ vmMemalignUses ⟨fourPagesMachine, 0#64, 0x1000#64⟩ 8#64 1#64,
        u.page ∈ [0x2000#64, 0x3000#64, 0x4000#64, 0x5000#64] := by
  have hempty : EmptyTable fourPagesMachine.mem 0x1000#64 := by
    refine ⟨by decide, fun a ha => ?_⟩
    have hother : ∀ q : Word, pageOf q ≠ 0x1000#64 → a ≠ q := fun q hq heq => hq (heq ▸ ha)
    simp only [fourPagesMachine, if_neg (hother 0x2000#64 (by decide)),
      if_neg (hother 0x3000#64 (by decide)), if_neg (hother 0x4000#64 (by decide))]
  have hfree : ∀ q ∈ [0x2000#64, 0x3000#64, 0x4000#64, 0x5000#64], PhysPage q ∧ q ≠ 0x1000#64 := by
    rw [List.forall_mem_cons, List.forall_mem_cons, List.forall_mem_cons, List.forall_mem_singleton]
    decide
  have hlist : FreeList fourPagesMachine [0x2000#64, 0x3000#64, 0x4000#64, 0x5000#64] :=
    ⟨by simp [fourPagesMachine], by decide, fun q hq => (hfree q hq).1.isPage⟩
  have hpages : blockPages 1#64 = 1 := by decide
  have hstock : Stocked fourPagesMachine 0x1000#64 [0x2000#64, 0x3000#64, 0x4000#64, 0x5000#64] :=
    stocked_of_empty hempty hlist hfree
  refine ⟨hstock,
    (vmMemalign_within_free_list_iff ⟨fourPagesMachine, 0#64, 0x1000#64⟩ 8#64 1#64 hstock
    fun q _ => noLargePage_of_empty hempty q).mpr fun _ => ?_⟩
  rw [blockArea, hpages, pageRange, pageRange, tablesNeeded_singleton,
    missingTables_of_empty hempty]
  exact Nat.le_refl 4

/-- **The slip**: without free pages, page 0 is cleared, linked as a table and mapped. -/
theorem vmMemalign_uses_page_zero :
    Stocked ⟨fun _ => 0#64, 0#64⟩ 0x1000#64 [] ∧
      (∀ virt, NoLargePage (fun _ => 0#64) 0x1000#64 virt) ∧
      PageUse.zero 0#64 ∈ vmMemalignUses ⟨⟨fun _ => 0#64, 0#64⟩, 0#64, 0x1000#64⟩ 8#64 1#64 ∧
      PageUse.link 0#64 ∈ vmMemalignUses ⟨⟨fun _ => 0#64, 0#64⟩, 0#64, 0x1000#64⟩ 8#64 1#64 ∧
      PageUse.map 0#64 ∈ vmMemalignUses ⟨⟨fun _ => 0#64, 0#64⟩, 0#64, 0x1000#64⟩ 8#64 1#64 := by
  have hempty : EmptyTable (⟨fun _ => 0#64, 0#64⟩ : Machine).mem 0x1000#64 :=
    ⟨by decide, fun _ _ => rfl⟩
  have hlist : FreeList ⟨fun _ => 0#64, 0#64⟩ [] := ⟨rfl, List.nodup_nil, nofun⟩
  refine ⟨stocked_of_empty hempty hlist nofun, noLargePage_of_empty hempty, ?_, ?_, ?_⟩
  all_goals decide +kernel

end AcrnGuest
