import AcrnGuest.PagingInstall
import AcrnGuest.RadixBudget

/-!
# Mapping page after page

Several functions map a block of virtual pages with one `install_page` after another. `Stocked`
is what they need and keep: well-formed page tables and a free list that do not meet. The number
of pages that all calls together take for tables is `tablesNeeded`, so that running out of pages
can be told from the state before the first call.
-/

namespace AcrnGuest

open Radix

/-- Page tables and free pages that do not meet. -/
structure Stocked (s : Machine) (root : Word) (free : List Word) : Prop where
  supply : Supply (s, 0#64) free
  table : PageTable s.mem root
  apart : ∀ q ∈ free, q ∉ tablePages s.mem root

/-- The number of different tables that are missing to map all these pages. -/
def tablesNeeded (m : Mem) (root : Word) (pages : List Word) : Nat :=
  (x86.missingOn m 1 PAGE_LEVEL root pages).card

variable {s : Machine} {m m' : Mem} {root virt phys pte va : Word} {free taken : List Word}

/-! ### Leaves -/

theorem climb_x86Leaf_eq_some {l : Nat} {path : List Word} {found : Option Mapping} {leaf : Mapping}
    (h : x86Leaf.climb l path found = some leaf) :
    ∃ leaf₀, found = some leaf₀ ∧ leaf₀.level = leaf.level ∧ leaf₀.entry = leaf.entry := by
  induction path generalizing l leaf with
  | nil => exact ⟨leaf, h, rfl, rfl⟩
  | cons e path ih =>
      obtain ⟨above, habove, rfl⟩ := Option.map_eq_some_iff.mp h
      obtain ⟨leaf₀, hfound, hlevel, hentry⟩ := ih habove
      exact ⟨leaf₀, hfound, hlevel, hentry⟩

theorem isSome_climb_x86Leaf (l : Nat) (path : List Word) (leaf : Mapping) :
    (x86Leaf.climb l path (some leaf)).isSome := by
  induction path generalizing l with
  | nil => rfl
  | cons e path ih => exact Option.isSome_map.trans (ih (l - 1))

theorem Mapping.phys_translation {leaf : Mapping} (hlevel : leaf.level = 1)
    (hentry : leaf.entry = userEntry phys) (hphys : PhysPage phys) (va : Word) :
    (leaf.translation va).phys = phys + BitVec.ofNat 64 (va.toNat % 4096) := by
  have hframe : userEntry phys &&& GENMASK_ULL 51 (PGDIR_BITS 1) = phys := userEntry_addr hphys
  simp only [Mapping.translation, hlevel, hentry, hframe]
  rfl

section Installed

variable (h : Installed x86 x86Good x86Leaf m m' 1 virt pte PAGE_LEVEL root taken)

include h

/-- An installation of a 4K page adds no large page. -/
theorem noLargePage_of_installed (hva : NoLargePage m root va) : NoLargePage m' root va := by
  unfold NoLargePage at hva ⊢
  rw [noLeafAbove_iff] at hva ⊢
  intro leaf hleaf
  by_cases hsame : ∀ k, 1 ≤ k → k ≤ PAGE_LEVEL → tableIndex k va = tableIndex k virt
  · obtain ⟨path, -, -, htarget⟩ := h.reads_target
    rw [htarget _ x86Leaf va hsame] at hleaf
    obtain ⟨leaf₀, hleaf₀, hlevel, -⟩ := climb_x86Leaf_eq_some hleaf
    unfold x86Leaf at hleaf₀
    dsimp only at hleaf₀
    split_ifs at hleaf₀
    rw [← hlevel, ← Option.some.inj hleaf₀]
  · push Not at hsame
    obtain ⟨k, hk, hk4, hne⟩ := hsame
    rw [h.reads_other va k hk hk4 hne] at hleaf
    exact hva leaf hleaf

/-- The page is translated to the address in the entry, whatever the rights. -/
theorem phys_of_installed (hpte : pte = userEntry phys) (hphys : PhysPage phys)
    (hcanon : Canonical va) (hpage : va.toNat / 4096 = virt.toNat / 4096) :
    (translate m' root va).map Translation.phys =
      some (phys + BitVec.ofNat 64 (va.toNat % 4096)) := by
  obtain ⟨path, -, -, htarget⟩ := h.reads_target
  have heval := htarget _ x86Leaf va fun k hk _ => tableIndex_eq_of_div_eq hk hpage
  have hleaf : x86Leaf.leaf 1 pte va = some ⟨1, userEntry phys, true, true⟩ := by
    simp [x86Leaf, hpte, userEntry_present hphys, userEntry_writable hphys, userEntry_user hphys]
  rw [hleaf] at heval
  obtain ⟨leaf, hclimb⟩ :=
    Option.isSome_iff_exists.mp
      (isSome_climb_x86Leaf PAGE_LEVEL path ⟨1, userEntry phys, true, true⟩)
  obtain ⟨leaf₀, hleaf₀, hlevel, hentry⟩ := climb_x86Leaf_eq_some hclimb
  obtain rfl := Option.some.inj hleaf₀
  rw [translate, leafOf, if_pos hcanon, heval, hclimb, Option.map_some, Option.map_some,
    Mapping.phys_translation hlevel.symm hentry.symm hphys]

end Installed

/-! ### One page -/

theorem Stocked.cons {q : Word} (h : Stocked s root (q :: free)) :
    allocPage s = (q, { s with freelist := s.mem q }) ∧
      Stocked { s with freelist := s.mem q } root free := by
  obtain ⟨halloc, hlist⟩ := allocPage_cons h.supply.freeList
  exact ⟨halloc, Supply.of_freeList hlist fun p hp =>
    h.supply.phys p (List.mem_cons_of_mem _ hp), h.table, fun p hp =>
      h.apart p (List.mem_cons_of_mem _ hp)⟩

/-- **`install_page`** with enough pages for its tables. -/
theorem Stocked.installPage (h : Stocked s root free) (hpath : NoLargePage s.mem root virt)
    (henough : missingTables s.mem root virt 1 ≤ free.length) (phys : Word) :
    ∃ taken rest, free.Perm (taken ++ rest) ∧ Stocked (installPage s root phys virt).1 root rest ∧
      Installed x86 x86Good x86Leaf s.mem (AcrnGuest.installPage s root phys virt).1.mem 1 virt
        (userEntry phys) PAGE_LEVEL root taken := by
  obtain ⟨taken, rest, ptPage, hsplit, hptPage, hsupply, hinst⟩ :=
    installPte_spec growsWith_x86Good (Nat.le_refl 1) (by decide) (x86Child_one (userEntry phys))
      (fun h4 => by omega) h.supply h.table h.apart hpath henough
  rw [hptPage rfl] at hsupply
  exact ⟨taken, rest, hsplit, ⟨hsupply, hinst.wf, hinst.notMem_pages hsplit h.supply.nodup h.apart⟩,
    hinst⟩

theorem tablesNeeded_cons (h : Installed x86 x86Good x86Leaf m m' 1 virt pte PAGE_LEVEL root taken)
    (pages : List Word) :
    tablesNeeded m root (virt :: pages) =
      missingTables m root virt 1 + tablesNeeded m' root pages :=
  h.card_missingOn_cons pages

theorem missingTables_le_tablesNeeded (m : Mem) (root virt : Word) (pages : List Word) :
    missingTables m root virt 1 ≤ tablesNeeded m root (virt :: pages) :=
  (Layout.card_missing m 1 PAGE_LEVEL root virt).symm.le.trans
  (Finset.card_le_card Finset.subset_union_left)

theorem tablesNeeded_singleton (m : Mem) (root virt : Word) :
    tablesNeeded m root [virt] = missingTables m root virt 1 := by
  rw [tablesNeeded, Layout.missingOn, Layout.missingOn, Finset.union_empty, Layout.card_missing,
    missingTables]

/-! ### Empty tables -/

section Empty

variable (h : EmptyTable s.mem root)

include h

theorem stocked_of_empty (hlist : FreeList s free) (hfree : ∀ q ∈ free, PhysPage q ∧ q ≠ root) :
    Stocked s root free where
  supply := Supply.of_freeList hlist fun q hq => (hfree q hq).1
  table := h.wf (x86Child_zero _) (growsWith_x86Good.zero _)
  apart q hq hmem := by
    rw [tablePages, PAGE_LEVEL, x86_pages_of_empty h] at hmem
    exact (hfree q hq).2 hmem

theorem noLargePage_of_empty (virt : Word) : NoLargePage s.mem root virt := by
  rw [NoLargePage, PAGE_LEVEL, x86_eval_of_empty h]
  exact fun _ => by decide

theorem missingTables_of_empty (virt : Word) : missingTables s.mem root virt 1 = 3 := by
  rw [missingTables, PAGE_LEVEL, x86_eval_of_empty h]
  rfl

end Empty

end AcrnGuest
