import AcrnGuest.IntelIommuMap

/-!
# DMA translations after a history of calls

The loop of `vtd_map_range` installs one page after the other, a call maps its range,
and a history of calls maps every address by the last call that covers it. The pages
that a history needs are one for every table that some call touches (`tablesOf`), so
the pool is large enough exactly when it holds that many.
-/

namespace AcrnGuest

open Radix

/-! ### The loop -/

theorem vtdMapStep_done (slptptr iova pa : Word) (s : Machine) :
    vtdMapStep slptptr (s, iova, pa, 0#64) = .inr s := if_neg (not_not.mpr rfl)

theorem vtdMapStep_next (slptptr iova pa : Word) (s : Machine) {size : Word} (h : size ≠ 0#64) :
    vtdMapStep slptptr (s, iova, pa, size) =
      .inl (vtdInstallPte s slptptr iova pa 1, iova + PAGE_SIZE, pa + PAGE_SIZE,
        size - PAGE_SIZE) :=
  if_pos h

namespace VtdView

variable {w : VtdView} {needed : Finset VtdTable} {sid : BitVec 16} {p : Word}

/-- **The loop of `vtd_map_range`** maps `n` pages and returns. -/
theorem Tables.mapPages {n bound : Nat} {s : Machine} {iova pa size : Word} (h : w.Tables s)
    (hfund : w.Funded needed) (hp : w.second sid = some p) (hiova : IsPage iova) (hpa : IsPage pa)
    (hsize : size.toNat = n * 4096) (hend : iova.toNat + n * 4096 ≤ 2 ^ 39)
    (hneed : ∀ k < n, pageTables sid (iova.toNat + k * 4096) ⊆ needed) (hbound : n < bound) :
    ∃ (s' : Machine) (w' : VtdView),
      Loop.run (vtdMapStep p) bound (s, iova, pa, size) = some s' ∧ w'.Tables s' ∧
      w'.Funded needed ∧ w'.root = w.root ∧
      ∀ sid' x, w'.translate s'.mem sid' x =
        if sid' = sid ∧ iova.toNat ≤ x.toNat ∧ x.toNat < iova.toNat + n * 4096 then
          some ⟨pa + (x - iova), VTD_PTE_RW⟩
        else w.translate s.mem sid' x := by
  induction n generalizing w s iova pa size bound with
  | zero =>
      obtain ⟨bound, rfl⟩ : ∃ k, bound = k + 1 := ⟨bound - 1, by omega⟩
      obtain rfl : size = 0#64 := BitVec.eq_of_toNat_eq (by rw [hsize]; rfl)
      refine ⟨s, w, Loop.run_succ_inr (vtdMapStep_done p iova pa s) bound, h, hfund, rfl,
        fun sid' x => ?_⟩
      rw [if_neg]
      omega
  | succ n ih =>
      obtain ⟨bound, rfl⟩ : ∃ k, bound = k + 1 := ⟨bound - 1, by omega⟩
      have hiovaPage := isPage_iff.mp hiova
      have hsizeNe : size ≠ 0#64 := by
        rintro rfl
        simp only [BitVec.toNat_zero] at hsize
        omega
      have hfirst : pageTables sid iova.toNat ⊆ needed := by simpa using hneed 0 (by omega)
      obtain ⟨w₁, htables, hfund₁, hroot, hsecond, hreads⟩ :=
        h.installPte hfund hp hiova (by omega) hpa hfirst
      have hnext : (iova + PAGE_SIZE).toNat = iova.toNat + 4096 := by
        rw [BitVec.toNat_add, toNat_PAGE_SIZE]
        omega
      have hrest : (size - PAGE_SIZE).toNat = n * 4096 := by
        have hle : PAGE_SIZE ≤ size := by
          rw [BitVec.le_def, toNat_PAGE_SIZE]
          omega
        rw [BitVec.toNat_sub_of_le hle, toNat_PAGE_SIZE]
        omega
      obtain ⟨s', w', hrun, htables', hfund', hroot', hreads'⟩ :=
        ih htables hfund₁ (hsecond ▸ hp) (hiova.add isPage_PAGE_SIZE)
          (hpa.add isPage_PAGE_SIZE) hrest
          (by rw [hnext]; omega)
          (fun k hk => by
            rw [hnext, show iova.toNat + 4096 + k * 4096 = iova.toNat + (k + 1) * 4096 by omega]
            exact hneed (k + 1) (by omega))
          (by omega : n < bound)
      refine ⟨s', w', ?_, htables', hfund', hroot'.trans hroot, fun sid' x => ?_⟩
      · rw [Loop.run_succ_inl (vtdMapStep_next p iova pa s hsizeNe)]
        exact hrun
      · have hhost : pa + PAGE_SIZE + (x - (iova + PAGE_SIZE)) = pa + (x - iova) := by
          rw [PAGE_SIZE_eq]
          bv_omega
        rw [hreads', hreads, hnext, hhost]
        -- the address lies in the first page, in a later one, or outside
        by_cases hlater : sid' = sid ∧ iova.toNat + 4096 ≤ x.toNat ∧
            x.toNat < iova.toNat + 4096 + n * 4096
        · rw [if_pos hlater, if_pos ⟨hlater.1, by omega, by omega⟩]
        · rw [if_neg hlater]
          refine if_congr ?_ rfl rfl
          rw [pageOf_eq_iff]
          constructor
          · rintro ⟨hsid, hpage⟩
            exact ⟨hsid, by omega, by omega⟩
          · rintro ⟨hsid, hlow, hhigh⟩
            have hnot := not_and.mp hlater hsid
            exact ⟨hsid, by omega⟩

end VtdView

/-! ### Calls -/

structure VtdMapCall where
  sid : BitVec 16
  iova : Word
  pa : Word
  size : Word
deriving DecidableEq

structure VtdMapCall.Allowed (c : VtdMapCall) : Prop where
  iova : IsPage c.iova
  pa : IsPage c.pa
  size : IsPage c.size
  range : c.iova.toNat + c.size.toNat ≤ 2 ^ 39

def VtdMapCall.exec (v : Iommu) (c : VtdMapCall) : Option Iommu :=
  vtdMapRange v c.sid c.iova c.pa c.size

def vtdMapAll : Iommu → List VtdMapCall → Option Iommu
  | v, [] => some v
  | v, c :: calls => (c.exec v).bind fun v' => vtdMapAll v' calls

def VtdMapCall.covers (c : VtdMapCall) (sid : BitVec 16) (iova : Word) : Bool :=
  sid = c.sid ∧ c.iova.toNat ≤ iova.toNat ∧ iova.toNat < c.iova.toNat + c.size.toNat

/-- The host address plus the offset in the range, for reads and writes. -/
def VtdMapCall.mapping (c : VtdMapCall) (iova : Word) : DmaMapping :=
  { host := c.pa + (iova - c.iova), access := VTD_PTE_RW }

def VtdMapCall.tables (c : VtdMapCall) : Finset VtdTable :=
  {.context (busOf c.sid), .second c.sid} ∪
    (Finset.range (c.size.toNat / 4096)).biUnion fun k => pageTables c.sid (c.iova.toNat + k * 4096)

def tablesOf (calls : List VtdMapCall) : Finset VtdTable := calls.toFinset.biUnion VtdMapCall.tables

theorem tables_subset_tablesOf {calls : List VtdMapCall} {c : VtdMapCall} (hc : c ∈ calls) :
    c.tables ⊆ tablesOf calls :=
  Finset.subset_biUnion_of_mem VtdMapCall.tables (List.mem_toFinset.mpr hc)

theorem tablesOf_mono {calls calls' : List VtdMapCall} (h : calls ⊆ calls') :
    tablesOf calls ⊆ tablesOf calls' :=
  Finset.biUnion_subset_biUnion_of_subset_left _ fun _ hc =>
    List.mem_toFinset.mpr (h (List.mem_toFinset.mp hc))

theorem isAligned_of_isPage {x : Word} (h : IsPage x) : IS_ALIGNED x SZ_4K = true := by
  have hmask : PAGE_MASK &&& (SZ_4K - 1#64) = 0#64 := by decide
  have hx : x &&& PAGE_MASK = x := h
  refine decide_eq_true ?_
  rw [← hx, BitVec.and_assoc, hmask, BitVec.and_zero]

namespace VtdView

variable {w : VtdView} {needed : Finset VtdTable}

/-- **`vtd_map_range`** returns and maps its range for its source id. -/
theorem Tables.mapRange {v : Iommu} {c : VtdMapCall} (h : w.Tables v.machine)
    (hroot : vtdRootTable v = w.root) (hfund : w.Funded needed) (hc : c.Allowed)
    (hneed : c.tables ⊆ needed) :
    ∃ (v' : Iommu) (w' : VtdView), c.exec v = some v' ∧ w'.Tables v'.machine ∧
      vtdRootTable v' = w'.root ∧ w'.Funded needed ∧
      ∀ sid x, w'.translate v'.machine.mem sid x =
        if c.covers sid x then some (c.mapping x) else w.translate v.machine.mem sid x := by
  obtain ⟨hupper, hpages⟩ := Finset.union_subset_iff.mp hneed
  obtain ⟨w₁, hopen₁, hcontext⟩ := h.openRootEntry hfund (busOf c.sid) (hupper (by simp))
  rw [← hroot] at hopen₁ hcontext
  obtain ⟨w₂, hopen₂, hsecond⟩ :=
    hopen₁.tables.openContextEntry hopen₁.funded hcontext (hupper (by simp))
  have hrange := hc.range
  have hsize : c.size.toNat = c.size.toNat / 4096 * 4096 := by
    have := isPage_iff.mp hc.size
    omega
  obtain ⟨s', w', hrun, htables, hfund', hroot', hreads⟩ :=
    hopen₂.tables.mapPages hopen₂.funded hsecond hc.iova hc.pa hsize (by omega)
      (fun k hk =>
        (Finset.subset_biUnion_of_mem (fun k => pageTables c.sid (c.iova.toNat + k * 4096))
        (Finset.mem_range.mpr hk)).trans hpages)
      (by unfold LOOP_BOUND; omega : c.size.toNat / 4096 < LOOP_BOUND)
  refine ⟨{ v with machine := s' }, w', ?_, htables, ?_, hfund', fun sid x => ?_⟩
  · rw [VtdMapCall.exec, vtdMapRange, if_neg (not_not.mpr (isAligned_of_isPage hc.iova)),
      if_neg (not_not.mpr (isAligned_of_isPage hc.pa)),
      if_neg (not_not.mpr (isAligned_of_isPage hc.size))]
    change Option.map _ (Loop.run (vtdMapStep _) LOOP_BOUND _) = _
    rw [show physToVirt (vtdRootTable v) = vtdRootTable v from rfl, hrun]
    rfl
  · rw [hroot', hopen₂.root, hopen₁.root, ← hroot]
    rfl
  · rw [hreads, hopen₂.reads, hopen₁.reads, ← hsize]
    refine if_congr ?_ rfl rfl
    exact decide_eq_true_iff.symm

/-- **A history of calls**: the last call that covers the address decides. -/
theorem Tables.mapAll {calls : List VtdMapCall} {v : Iommu} (h : w.Tables v.machine)
    (hroot : vtdRootTable v = w.root) (hfund : w.Funded needed) (hcalls : ∀ c ∈ calls, c.Allowed)
    (hneed : ∀ c ∈ calls, c.tables ⊆ needed) :
    ∃ (v' : Iommu) (w' : VtdView), vtdMapAll v calls = some v' ∧ w'.Tables v'.machine ∧
      vtdRootTable v' = w'.root ∧
      ∀ sid x, w'.translate v'.machine.mem sid x =
        match calls.reverse.find? (fun c => c.covers sid x) with
        | some c => some (c.mapping x)
        | none => w.translate v.machine.mem sid x := by
  induction calls generalizing v w with
  | nil => exact ⟨v, w, rfl, h, hroot, fun _ _ => rfl⟩
  | cons c calls ih =>
      obtain ⟨v₁, w₁, hexec, htables, hroot₁, hfund₁, hreads⟩ :=
        h.mapRange hroot hfund (hcalls c List.mem_cons_self) (hneed c List.mem_cons_self)
      obtain ⟨v', w', hall, htables', hroot', hreads'⟩ := ih htables hroot₁ hfund₁
        (fun d hd => hcalls d (List.mem_cons_of_mem _ hd))
        (fun d hd => hneed d (List.mem_cons_of_mem _ hd))
      refine ⟨v', w', ?_, htables', hroot', fun sid x => ?_⟩
      · rw [vtdMapAll, hexec]
        exact hall
      · rw [hreads', List.reverse_cons, List.find?_append]
        cases calls.reverse.find? (fun d => d.covers sid x) with
        | some d => rfl
        | none =>
            rw [hreads, Option.none_or, List.find?_singleton]
            split_ifs <;> rfl

end VtdView

/-! ### After `vtd_setup_root_table` -/

def emptyView (root : Word) (free : List Word) : VtdView :=
  { root, context := fun _ => none, second := fun _ => none, free, built := ∅ }

theorem emptyView_tables {v : Iommu} {q : Word} {pages : List Word}
    (hfree : FreeList v.machine (q :: pages)) (hphys : ∀ p ∈ q :: pages, PhysPage p) :
    (emptyView q pages).Tables (vtdSetupRootTable v).machine ∧
      vtdRootTable (vtdSetupRootTable v) = q := by
  have hq : IsPage q := hfree.isPage q List.mem_cons_self
  obtain ⟨halloc, hlist⟩ := allocPage_cons hfree
  have hfresh : q ∉ pages := (List.nodup_cons.mp hfree.nodup).1
  have hmachine : (vtdSetupRootTable v).machine =
      { mem := memset v.machine.mem q 0#8 PAGE_SIZE, freelist := v.machine.mem q } := by
    rw [vtdSetupRootTable, halloc]
  have hroot : (vtdSetupRootTable v).rtaddr = q := by
    rw [vtdSetupRootTable, halloc]
    rfl
  have hzero : ∀ a, pageOf a = q → memset v.machine.mem q 0#8 PAGE_SIZE a = 0#64 := fun a ha => by
    rw [memset_zero_page hq, if_pos ha]
  refine ⟨?_, by rw [vtdRootTable, hroot]; exact hq⟩
  rw [hmachine]
  refine ⟨Supply.of_freeList (hlist.frame rfl fun p hp => ?_) fun p hp =>
    hphys p (List.mem_cons_of_mem _ hp), fun r => ?_,
    fun r r' x hx hx' => ?_, fun r x hx hr => ?_, ?_⟩
  · have hpage : pageOf p = p := hfree.isPage p (List.mem_cons_of_mem _ hp)
    refine (memset_zero_page hq p).trans (if_neg ?_)
    rw [hpage]
    rintro rfl
    exact hfresh hp
  · cases r with
    | root =>
        refine ⟨hq, fun bus => BitField.get_of_zero (hzero _ ?_)⟩
        exact pageOf_of_inEntry_busEntry hq (inEntry_addr _ VtdRootEntry.present (by decide))
    | context bus => exact fun c hc => (Option.some_ne_none c hc.symm).elim
    | second sid => exact fun p hp => (Option.some_ne_none p hp.symm).elim
  · -- only the root table has a page
    have honly : ∀ r, x ∈ (emptyView q pages).pages (memset v.machine.mem q 0#8 PAGE_SIZE) r →
        r = .root := by
      intro r hr
      cases r with
      | root => rfl
      | context bus => exact (Option.some_ne_none x (Eq.symm hr)).elim
      | second sid =>
          obtain ⟨p, hp, -⟩ := hr
          exact (Option.some_ne_none p hp.symm).elim
    rw [honly r hx, honly r' hx']
  · cases r with
    | root =>
        obtain rfl : x = q := hr
        exact hfresh hx
    | context bus => exact Option.some_ne_none x (Eq.symm hr)
    | second sid =>
        obtain ⟨p, hp, -⟩ := hr
        exact Option.some_ne_none p hp.symm
  · constructor <;> simp [emptyView]

/-- The translations after a history of calls. -/
theorem vtdMapAll_spec {v : Iommu} {q : Word} {pages : List Word} {calls : List VtdMapCall}
    (hfree : FreeList v.machine (q :: pages)) (hphys : ∀ p ∈ q :: pages, PhysPage p)
    (hcalls : ∀ c ∈ calls, c.Allowed) (henough : (tablesOf calls).card ≤ pages.length) :
    ∃ v', vtdMapAll (vtdSetupRootTable v) calls = some v' ∧
      ∀ sid iova, dmaTranslate v' sid iova =
        (calls.reverse.find? fun c => c.covers sid iova).map fun c => c.mapping iova := by
  obtain ⟨htables, hroot⟩ := emptyView_tables hfree hphys
  have hfund : (emptyView q pages).Funded (tablesOf calls) :=
    ⟨Finset.empty_subset _, by simpa [emptyView] using henough⟩
  obtain ⟨v', w', hall, htables', hroot', hreads⟩ :=
    htables.mapAll hroot hfund hcalls fun c hc => tables_subset_tablesOf hc
  refine ⟨v', hall, fun sid iova => ?_⟩
  rw [htables'.dmaTranslate hroot', hreads]
  cases calls.reverse.find? (fun c => c.covers sid iova) with
  | none => rfl
  | some c => rfl

theorem vtdMapAll_concat (v : Iommu) (calls : List VtdMapCall) (c : VtdMapCall) :
    vtdMapAll v (calls ++ [c]) = (vtdMapAll v calls).bind fun v' => c.exec v' := by
  induction calls generalizing v with
  | nil =>
      simp only [List.nil_append, vtdMapAll, Option.bind_some]
      cases c.exec v <;> rfl
  | cons d calls ih =>
      simp only [List.cons_append, vtdMapAll, ih]
      cases d.exec v <;> rfl

/-- **DMA translations.** After `vtd_setup_root_table`, every sequence of calls with
    page-aligned arguments below `2 ^ 39` for which the pool holds enough pages
    succeeds. The translation of every source id and address is that of the last call
    that covers it, and absent without one, and no call changes the translations of
    another source id. -/
theorem dma_translation_by_last_call {v : Iommu} {q : Word} {pages : List Word}
    {calls : List VtdMapCall} (hfree : FreeList v.machine (q :: pages))
    (hphys : ∀ p ∈ q :: pages, PhysPage p) (hcalls : ∀ c ∈ calls, c.Allowed)
    (henough : (tablesOf calls).card ≤ pages.length) :
    (∃ v', vtdMapAll (vtdSetupRootTable v) calls = some v' ∧
      ∀ sid iova, dmaTranslate v' sid iova =
        (calls.reverse.find? fun c => c.covers sid iova).map fun c => c.mapping iova) ∧
    ∀ before c after v₁ v₂, calls = before ++ c :: after →
      vtdMapAll (vtdSetupRootTable v) before = some v₁ → c.exec v₁ = some v₂ →
      ∀ sid iova, sid ≠ c.sid → dmaTranslate v₂ sid iova = dmaTranslate v₁ sid iova := by
  refine ⟨vtdMapAll_spec hfree hphys hcalls henough, ?_⟩
  intro before c after v₁ v₂ hsplit hbefore hexec sid iova hsid
  have hspec : ∀ start : List VtdMapCall, start ⊆ calls →
      ∃ v', vtdMapAll (vtdSetupRootTable v) start = some v' ∧
        ∀ sid iova, dmaTranslate v' sid iova =
          (start.reverse.find? fun c => c.covers sid iova).map fun c => c.mapping iova := by
    intro start hstart
    exact vtdMapAll_spec hfree hphys (fun d hd => hcalls d (hstart hd))
      ((Finset.card_le_card (tablesOf_mono hstart)).trans henough)
  obtain ⟨v₁', hrun₁, htranslate₁⟩ :=
    hspec before (by rw [hsplit]; exact List.subset_append_left _ _)
  obtain ⟨v₂', hrun₂, htranslate₂⟩ := hspec (before ++ [c]) (by rw [hsplit]; simp)
  obtain rfl := Option.some.inj (hrun₁.symm.trans hbefore)
  rw [vtdMapAll_concat, hrun₁, Option.bind_some, hexec] at hrun₂
  obtain rfl := Option.some.inj hrun₂
  have hother : c.covers sid iova = false := by simp [VtdMapCall.covers, hsid]
  have hfind : (c :: before.reverse).find? (fun d => d.covers sid iova) =
      before.reverse.find? fun d => d.covers sid iova := by
    simp only [List.find?_cons, hother]
  rw [htranslate₁, htranslate₂, List.reverse_append, List.reverse_singleton,
    List.singleton_append, hfind]

def fivePages : Iommu :=
  { machine :=
      { mem := fun a => if a = 0x5000#64 then 0#64 else a + 0x1000#64, freelist := 0x1000#64 }
    rtaddr := 0#64, irta := 0#64, indexCtr := 0 }

theorem physPage_fivePages :
    ∀ p ∈ [0x1000#64, 0x2000#64, 0x3000#64, 0x4000#64, 0x5000#64], PhysPage p := by
  iterate 4 rw [List.forall_mem_cons]
  rw [List.forall_mem_singleton]
  decide

theorem freeList_fivePages :
    FreeList fivePages.machine [0x1000#64, 0x2000#64, 0x3000#64, 0x4000#64, 0x5000#64] where
  chain := by simp [fivePages]
  nodup := by decide
  isPage p hp := (physPage_fivePages p hp).isPage

/-- Two calls for one page of the device `00:01.0`. -/
theorem dma_translation_of_remapped_page :
    ∃ v', vtdMapAll (vtdSetupRootTable fivePages)
        [⟨0x0008#16, 0x10000#64, 0x7000#64, 0x1000#64⟩,
          ⟨0x0008#16, 0x10000#64, 0x8000#64, 0x1000#64⟩] =
        some v' ∧
      dmaTranslate v' 0x0008#16 0x10123#64 = some ⟨0x8123#64, VTD_PTE_RW⟩ ∧
      dmaTranslate v' 0x0008#16 0x11000#64 = none ∧
        dmaTranslate v' 0x0010#16 0x10123#64 = none := by
  have hcalls : ∀ c ∈ [VtdMapCall.mk 0x0008#16 0x10000#64 0x7000#64 0x1000#64,
      ⟨0x0008#16, 0x10000#64, 0x8000#64, 0x1000#64⟩], c.Allowed := by
    simp only [List.forall_mem_cons]
    refine ⟨⟨by decide, by decide, by decide, by decide⟩,
      ⟨by decide, by decide, by decide, by decide⟩, ?_⟩
    exact fun c hc => (List.not_mem_nil hc).elim
  obtain ⟨⟨v', hrun, htranslate⟩, -⟩ := dma_translation_by_last_call freeList_fivePages
    physPage_fivePages hcalls (by decide)
  refine ⟨v', hrun, ?_, ?_, ?_⟩
  · rw [htranslate]
    decide
  · rw [htranslate]
    decide
  · rw [htranslate]
    decide

end AcrnGuest
