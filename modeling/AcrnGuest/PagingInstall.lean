import AcrnGuest.Paging

/-!
# Installing page-table entries

`installPte_spec` instantiates the rule for radix tables: the loop of
`install_pte` follows present entries and hangs an empty table below absent
ones. From it follow the laws of `install_page` and `install_large_page`: the
entry is found by `get_pte`, every other page keeps its translation, the tables
stay a tree that is disjoint from the free pages, and exactly the missing tables
are taken from the allocator.
-/

namespace AcrnGuest

open Radix

/-! ### Flags of an entry -/

def userEntry (p : Word) : Word := p ||| PT_PRESENT_MASK ||| PT_WRITABLE_MASK ||| PT_USER_MASK

theorem userEntry_eq (p : Word) : userEntry p = p ||| 7#64 := by
  have h : PT_PRESENT_MASK ||| PT_WRITABLE_MASK ||| PT_USER_MASK = 7#64 := by decide
  rw [userEntry, BitVec.or_assoc, BitVec.or_assoc, ← BitVec.or_assoc PT_PRESENT_MASK, h]

theorem userEntry_addr {p : Word} (hp : PhysPage p) : userEntry p &&& PT_ADDR_MASK = p := by
  rw [userEntry_eq]
  exact hp.or_and_mask (by decide)

theorem userEntry_present {p : Word} (hp : PhysPage p) :
    userEntry p &&& PT_PRESENT_MASK = 1#64 := by
  rw [userEntry_eq, hp.or_and_flags (by decide)]
  decide

theorem userEntry_writable {p : Word} (hp : PhysPage p) :
    userEntry p &&& PT_WRITABLE_MASK = 2#64 := by
  rw [userEntry_eq, hp.or_and_flags (by decide)]
  decide

theorem userEntry_user {p : Word} (hp : PhysPage p) : userEntry p &&& PT_USER_MASK = 4#64 := by
  rw [userEntry_eq, hp.or_and_flags (by decide)]
  decide

theorem userEntry_pageSize {p : Word} (hp : PhysPage p) :
    userEntry p &&& PT_PAGE_SIZE_MASK = 0#64 := by
  rw [userEntry_eq, hp.or_and_flags (by decide)]
  decide

/-! ### Well-formed page tables -/

/-- A present entry of the root table is not marked as a large page. -/
def x86Good (level : Nat) (e : Word) : Prop :=
  level = 4 → e &&& PT_PRESENT_MASK ≠ 0#64 → e &&& PT_PAGE_SIZE_MASK = 0#64

instance (level : Nat) (e : Word) : Decidable (x86Good level e) :=
  inferInstanceAs
    (Decidable (level = 4 → e &&& PT_PRESENT_MASK ≠ 0#64 → e &&& PT_PAGE_SIZE_MASK = 0#64))

/-- A requirement on entries that empty tables and the pointers to them meet. -/
structure GrowsWith (good : Nat → Word → Prop) : Prop where
  zero : ∀ level, good level 0#64
  link : ∀ level p, PhysPage p → good level (userEntry p)

theorem growsWith_x86Good : GrowsWith x86Good where
  zero _ _ h := (h (by decide)).elim
  link _ _ hp _ _ := userEntry_pageSize hp

/-- The tables at `cr3` are a tree of page-table pages. -/
def PageTable (m : Mem) (cr3 : Word) : Prop := x86.WF x86Good m PAGE_LEVEL cr3

def tablePages (m : Mem) (cr3 : Word) : Set Word := x86.pages m PAGE_LEVEL cr3

/-- The walk ends in no leaf above level `tgt`. -/
def noLeafAbove (tgt : Nat) : Reading Word Word Prop where
  stuck := True
  leaf level e _ := tgt < level → e &&& PT_PRESENT_MASK = 0#64
  node _ _ v := v

theorem x86Child_of_absent {level : Nat} {e : Word} (h : e &&& PT_PRESENT_MASK = 0#64) :
    x86Child level e = none := by
  simp [x86Child, h]

theorem x86Child_userEntry {level : Nat} {p : Word} (hp : PhysPage p) (hlevel : level ≠ 1) :
    x86Child level (userEntry p) = some p := by
  simp [x86Child, userEntry_present hp, userEntry_pageSize hp, userEntry_addr hp, hlevel]

theorem x86Child_of_large {level : Nat} {e : Word}
    (h : (level = 2 ∨ level = 3) ∧ e &&& PT_PAGE_SIZE_MASK ≠ 0#64) : x86Child level e = none := by
  unfold x86Child
  split_ifs <;> rfl

theorem x86Child_of_pointer {level : Nat} {e : Word} (hpresent : e &&& PT_PRESENT_MASK ≠ 0#64)
    (hlevel : level ≠ 1) (hsmall : ¬ ((level = 2 ∨ level = 3) ∧ e &&& PT_PAGE_SIZE_MASK ≠ 0#64)) :
    x86Child level e = some (e &&& PT_ADDR_MASK) := by
  rw [x86Child, if_neg hpresent, if_neg hlevel, if_neg hsmall]

theorem x86Child_eq_some {level : Nat} {e : Word} (hc : x86Child level e ≠ none) :
    x86Child level e = some (e &&& PT_ADDR_MASK) := by
  unfold x86Child at hc ⊢
  split_ifs at hc ⊢
  · exact (hc rfl).elim
  · exact (hc rfl).elim
  · exact (hc rfl).elim
  · rfl

theorem x86Child_zero (level : Nat) : x86Child level 0#64 = none := x86Child_of_absent (by decide)

theorem x86_pages_of_empty {m : Mem} {p : Word} {l : Nat} (h : EmptyTable m p) :
    x86.pages m (l + 1) p = {p} := h.pages (x86Child_zero _)

theorem x86_eval_of_empty {V : Type} {m : Mem} {p : Word} {l : Nat} (h : EmptyTable m p)
    (r : Reading Word Word V) (va : Word) :
    x86.eval r m (l + 1) p va = r.leaf (l + 1) 0#64 va := h.eval (x86Child_zero _) r va

/-- The walk of an address ends in no leaf above level `tgt` if its leaf, should it have one, is not
    above. -/
theorem noLeafAbove_iff {m : Mem} {l : Nat} {p va : Word} (tgt : Nat) :
    x86.eval (noLeafAbove tgt) m l p va ↔ ∀ leaf, x86.eval x86Leaf m l p va = some leaf →
      leaf.level ≤ tgt := by
  induction l generalizing p with
  | zero => exact iff_of_true trivial fun leaf h => absurd h.symm (Option.some_ne_none leaf)
  | succ l ih =>
      cases hc : x86.child (l + 1) (x86.entry m (l + 1) p va) with
      | none =>
          rw [Layout.eval_none hc, Layout.eval_none hc]
          unfold noLeafAbove x86Leaf
          dsimp only
          split_ifs with habsent
          · simp [habsent]
          · simp [habsent]
      | some c =>
          rw [Layout.eval_some hc, Layout.eval_some hc]
          refine ih.trans ⟨fun h leaf hleaf => ?_, fun h found hfound => ?_⟩
          · obtain ⟨found, hfound, rfl⟩ := Option.map_eq_some_iff.mp hleaf
            exact h found hfound
          · have hlevel := h _ (Option.map_eq_some_iff.mpr ⟨found, hfound, rfl⟩)
            exact hlevel

/-! ### One iteration -/

theorem installPteStep_opens {good : Nat → Word → Prop} (hgrows : GrowsWith good) (virt : Word)
    {tgt l : Nat} (htgt : 1 ≤ tgt) (hl : tgt ≤ l) :
    Opens x86 good x86Leaf (fun st : Machine × Word => st.1.mem) Supply
      (fun level st p => x86.eval (noLeafAbove tgt) st.1.mem level p virt)
      (fun level st => some (installPteStep virt level st)) virt l := by
  rintro ⟨s, ptPage⟩ p free hsupply hnodup hwf hfree hready hne
  have hentry : entryAddr p (PGDIR_OFFSET virt (l + 1)) = slot p (tableIndex (l + 1) virt) :=
    entryAddr_PGDIR_OFFSET p virt (l + 1)
  by_cases habsent : s.mem (slot p (tableIndex (l + 1) virt)) &&& PT_PRESENT_MASK = 0#64
  · -- an empty table is created below the absent entry
    have hold : x86Child (l + 1) (s.mem (slot p (tableIndex (l + 1) virt))) = none :=
      x86Child_of_absent habsent
    have hempty : x86Child l 0#64 = none := x86Child_zero l
    obtain ⟨q, rest, s', ptPage', htake, hq, hopen, hzero⟩ :=
      opened_linkTable (r := x86Leaf) userEntry (by omega) hsupply hwf hfree
        (hne (Layout.eval_none hold)) hold
        (fun q hq => ⟨x86Child_userEntry hq (by omega), hgrows.link _ _ hq⟩)
        ⟨hempty, hgrows.zero _⟩ (fun q va' _ => by simp [x86Leaf, habsent])
    refine ⟨_, q, [q], rest, congrArg some ?_, hopen, ?_⟩
    · simp only [installPteStep, hentry, if_pos habsent, htake, virtToPhys, physToVirt]
      refine congrArg₂ Prod.mk rfl ?_
      rw [linkTable_self]
      exact userEntry_addr hq
    · obtain ⟨k, rfl⟩ : ∃ k, l = k + 1 := ⟨l - 1, by omega⟩
      have hends : ∀ i, x86Child (k + 1)
          (linkTable s'.mem q (slot p (tableIndex (k + 1 + 1) virt)) (userEntry q) (slot q i)) =
            none :=
        fun i => (hzero i).symm ▸ hempty
      refine (Layout.eval_none (hends _)).mpr fun _ => ?_
      exact (congrArg (· &&& PT_PRESENT_MASK) (hzero _)).trans (by decide)
  · -- the entry is a pointer, since no leaf lies above the target
    have hc : x86.child (l + 1) (x86.entry s.mem (l + 1) p virt) =
        some (s.mem (slot p (tableIndex (l + 1) virt)) &&& PT_ADDR_MASK) := by
      refine x86Child_eq_some fun hnone => habsent ?_
      rw [Layout.eval_none hnone] at hready
      exact hready (by omega)
    have hstep : installPteStep virt (l + 1) ((s, ptPage), p) =
        ((s, ptPage), s.mem (slot p (tableIndex (l + 1) virt)) &&& PT_ADDR_MASK) := by
      simp only [installPteStep, hentry, if_neg habsent, physToVirt]
    refine ⟨_, _, [], free, congrArg some hstep, Opened.existing hsupply hwf hc, ?_⟩
    rw [Layout.eval_some hc] at hready
    exact hready

/-! ### The whole walk -/

/-- The number of tables that are missing on the way to level `tgt`. -/
def missingTables (m : Mem) (cr3 virt : Word) (tgt : Nat) : Nat :=
  x86.eval stopLevel m PAGE_LEVEL cr3 virt - tgt

/-- Without a page from the caller the loop never gets one. -/
theorem installPteStep_ptPage {virt : Word} {level : Nat} {st : (Machine × Word) × Word}
    (h : st.1.2 = 0#64) : (installPteStep virt level st).1.2 = 0#64 := by
  unfold installPteStep
  dsimp only
  split_ifs
  · simp only [takePage, h, if_true]
  · exact h

/-- **`install_pte`** installs its entry and takes the missing tables from the supply. -/
theorem installPte_spec {good : Nat → Word → Prop} (hgrows : GrowsWith good) {s : Machine}
    {cr3 virt pte ptPage : Word} {tgt : Nat} {free : List Word} (htgt : 1 ≤ tgt)
    (htgt4 : tgt ≤ PAGE_LEVEL) (hleaf : x86Child tgt pte = none) (hgood : good tgt pte)
    (hsupply : Supply (s, ptPage) free) (hwf : x86.WF good s.mem PAGE_LEVEL cr3)
    (hfree : ∀ q ∈ free, q ∉ tablePages s.mem cr3)
    (hpath : x86.eval (noLeafAbove tgt) s.mem PAGE_LEVEL cr3 virt)
    (henough : missingTables s.mem cr3 virt tgt ≤ free.length) :
    ∃ taken rest ptPage', free.Perm (taken ++ rest) ∧ (ptPage = 0#64 → ptPage' = 0#64) ∧
      Supply ((installPte s cr3 tgt virt pte ptPage).1, ptPage') rest ∧
      Installed x86 good x86Leaf s.mem (installPte s cr3 tgt virt pte ptPage).1.mem tgt virt pte
        PAGE_LEVEL cr3 taken := by
  have hopens := fun l (hl : tgt ≤ l) => installPteStep_opens hgrows virt htgt hl
  obtain ⟨⟨s', ptPage'⟩, p', taken, rest, hdown, hsplit, hsupply', hpage, hwritten, hinst⟩ :=
    install_spec htgt hopens hleaf hgood htgt4 hsupply hsupply.nodup hwf hfree hpath henough
  have hdown' :=
    (Loop.tryDown_some (installPteStep virt) tgt PAGE_LEVEL ((s, ptPage), cr3)).symm.trans
    hdown
  have hmem : (installPte s cr3 tgt virt pte ptPage).1 =
      { s' with mem := Function.update s'.mem (slot p' (tableIndex tgt virt)) pte } := by
    simp only [installPte, Option.some.inj hdown', Nat.min_eq_left htgt4, entryAddr_PGDIR_OFFSET]
  have hnone : ptPage = 0#64 → ptPage' = 0#64 := fun h0 =>
    Loop.tryDown_invariant (fun st : (Machine × Word) × Word => st.1.2 = 0#64)
      (fun level st st' hst hstep => Option.some.inj hstep ▸ installPteStep_ptPage hst) h0 hdown
  rw [hmem]
  exact ⟨taken, rest, ptPage', hsplit, hnone,
    hsupply'.write_slot hsplit hsupply.nodup hfree hpage hwritten _, hinst⟩

/-! ### Lookups after an installation -/

def lastEntry : Reading Word Word Word where
  stuck := 0#64
  leaf _ e _ := e
  node _ _ v := v

/-- `find_pte_level` with lowest level 1 stops where the walk ends. -/
theorem findPteLoop_find (m : Mem) (virt : Word) (l : Nat) (pt : Word) :
    findPteLoop m virt 1 (l + 1) pt =
      ⟨(x86.find m virt 1 (l + 1) pt).1, (x86.find m virt 1 (l + 1) pt).2⟩ := by
  induction l generalizing pt with
  | zero =>
      have hentry : entryAddr pt ((virt >>> ((0 + 1 - 1) * PGDIR_WIDTH + 12)) &&& PGDIR_MASK) =
          slot pt (tableIndex 1 virt) := entryAddr_PGDIR_OFFSET pt virt 1
      rw [Layout.find_top (Nat.le_refl 1)]
      simp only [findPteLoop, hentry]
      split_ifs <;> rfl
  | succ l ih =>
      have hentry : entryAddr pt ((virt >>> ((l + 1 + 1 - 1) * PGDIR_WIDTH + 12)) &&& PGDIR_MASK) =
          slot pt (tableIndex (l + 1 + 1) virt) := entryAddr_PGDIR_OFFSET pt virt (l + 1 + 1)
      have hmask : (0xffffffffff000#64 : Word) = PT_ADDR_MASK := by decide
      have hone : ¬ l + 1 + 1 = 1 := by omega
      rw [findPteLoop]
      simp only [hentry, hmask, if_neg hone, physToVirt]
      by_cases hpresent : m (slot pt (tableIndex (l + 1 + 1) virt)) &&& PT_PRESENT_MASK = 0#64
      · have hc : x86.child (l + 1 + 1) (x86.entry m (l + 1 + 1) pt virt) = none :=
          x86Child_of_absent hpresent
        rw [if_pos hpresent, Layout.find_none hc]
        rfl
      · rw [if_neg hpresent]
        by_cases hlarge : (l + 1 + 1 = 2 ∨ l + 1 + 1 = 3) ∧
            m (slot pt (tableIndex (l + 1 + 1) virt)) &&& PT_PAGE_SIZE_MASK ≠ 0#64
        · have hc : x86.child (l + 1 + 1) (x86.entry m (l + 1 + 1) pt virt) = none :=
            x86Child_of_large hlarge
          rw [if_pos hlarge, Layout.find_none hc]
          rfl
        · have hc : x86.child (l + 1 + 1) (x86.entry m (l + 1 + 1) pt virt) =
              some (m (slot pt (tableIndex (l + 1 + 1) virt)) &&& PT_ADDR_MASK) :=
            x86Child_of_pointer hpresent hone hlarge
          rw [if_neg hlarge, Layout.find_some (by omega) hc]
          exact ih _

theorem findPteLoop_eq (m : Mem) (virt : Word) (l : Nat) (pt : Word) :
    (findPteLoop m virt 1 (l + 1) pt).level = x86.eval stopLevel m (l + 1) pt virt ∧
      m (findPteLoop m virt 1 (l + 1) pt).pte = x86.eval lastEntry m (l + 1) pt virt := by
  rw [findPteLoop_find, Layout.eval_eq_leaf_find (fun _ _ _ => rfl),
    Layout.eval_eq_leaf_find (fun _ _ _ => rfl)]
  exact ⟨rfl, rfl⟩

/-- An entry of level `l` that maps a page: one of level 1, present or not, or a large page. -/
def IsLeaf (l : Nat) (e : Word) : Prop :=
  l = 1 ∨ (l = 2 ∨ l = 3) ∧ e &&& PT_PRESENT_MASK ≠ 0#64 ∧ e &&& PT_PAGE_SIZE_MASK ≠ 0#64

theorem findPteLevel_one (m : Mem) (cr3 virt : Word) :
    findPteLevel m cr3 virt 1 = some (findPteLoop m virt 1 PAGE_LEVEL cr3) := by
  simp [findPteLevel, PAGE_LEVEL]

theorem foundLeafPte_iff (m : Mem) (search : PteSearch) :
    foundLeafPte m search = true ↔ IsLeaf search.level (m search.pte) := by
  simp only [foundLeafPte, foundHugePte, IsLeaf, decide_eq_true_eq]

theorem getPte_eq_some_iff (m : Mem) (cr3 virt pte : Word) :
    getPte m cr3 virt = some pte ↔
      pte = (findPteLoop m virt 1 PAGE_LEVEL cr3).pte ∧
        IsLeaf (findPteLoop m virt 1 PAGE_LEVEL cr3).level
          (m (findPteLoop m virt 1 PAGE_LEVEL cr3).pte) := by
  rw [getPte, findPteLevel_one, Option.bind_some, ← foundLeafPte_iff]
  split_ifs with hleaf
  · rw [Option.some_inj, eq_comm, and_iff_left hleaf]
  · exact iff_of_false not_false fun h => hleaf h.2

/-- A walk that ends at level 1 is found by `get_pte`. -/
theorem getPte_of_stopLevel_one {m : Mem} {cr3 virt : Word}
    (hstop : x86.eval stopLevel m PAGE_LEVEL cr3 virt = 1) :
    ∃ pte, getPte m cr3 virt = some pte ∧ m pte = x86.eval lastEntry m PAGE_LEVEL cr3 virt := by
  obtain ⟨hlevel, hentry⟩ := findPteLoop_eq m virt 3 cr3
  exact ⟨_, (getPte_eq_some_iff m cr3 virt _).mpr ⟨rfl, Or.inl (hlevel.trans hstop)⟩, hentry⟩

/-! ### `install_page` -/

/-- The path of `virt` holds no large-page entry. -/
def NoLargePage (m : Mem) (cr3 virt : Word) : Prop := x86.eval (noLeafAbove 1) m PAGE_LEVEL cr3 virt

theorem Canonical.div_ne {va virt : Word} (hva : Canonical va) (hvirt : Canonical virt) {tgt : Nat}
    (htgt : 1 ≤ tgt) (htgt4 : tgt ≤ PAGE_LEVEL)
    (hne : va.toNat / 2 ^ PGDIR_BITS tgt ≠ virt.toNat / 2 ^ PGDIR_BITS tgt) :
    va.toNat % 2 ^ 48 / 2 ^ PGDIR_BITS tgt ≠ virt.toNat % 2 ^ 48 / 2 ^ PGDIR_BITS tgt := by
  unfold PAGE_LEVEL at htgt4
  unfold Canonical at hva hvirt
  rcases (by omega : tgt = 1 ∨ tgt = 2 ∨ tgt = 3 ∨ tgt = 4) with rfl | rfl | rfl | rfl
  all_goals simp only [PGDIR_BITS, PGDIR_WIDTH, PAGE_SHIFT] at hne ⊢
  all_goals omega

/-- An installation keeps the leaf of every address outside its page. -/
theorem leafOf_other {good : Nat → Word → Prop} {m m' : Mem} {cr3 virt pte va : Word} {tgt : Nat}
    {taken : List Word} (hinst : Installed x86 good x86Leaf m m' tgt virt pte PAGE_LEVEL cr3 taken)
    (htgt : 1 ≤ tgt) (htgt4 : tgt ≤ PAGE_LEVEL) (hvirt : Canonical virt)
    (hva : va.toNat / 2 ^ PGDIR_BITS tgt ≠ virt.toNat / 2 ^ PGDIR_BITS tgt) :
    leafOf m' cr3 va = leafOf m cr3 va := by
  unfold leafOf
  split_ifs with hcanon
  · obtain ⟨k, hk, hk4, hne⟩ :=
      exists_tableIndex_ne htgt htgt4 (hcanon.div_ne hvirt htgt htgt4 hva)
    exact hinst.reads_other va k hk hk4 hne
  · rfl

/-- **`install_page`** maps its page and nothing else. For every page table whose
    path for `virt` holds no large page, `get_pte` finds the new entry afterwards,
    and every address of every other page translates as before. -/
theorem installPage_maps {s : Machine} {cr3 phys virt : Word} {pages : List Word}
    (htable : PageTable s.mem cr3) (hphys : PhysPage phys) (hvirt : IsPage virt)
    (hcanon : Canonical virt) (hpath : NoLargePage s.mem cr3 virt) (hlist : FreeList s pages)
    (hpages : ∀ p ∈ pages, PhysPage p ∧ p ∉ tablePages s.mem cr3)
    (henough : missingTables s.mem cr3 virt 1 ≤ pages.length) :
    (∃ pte, getPte (installPage s cr3 phys virt).1.mem cr3 virt = some pte ∧
      (installPage s cr3 phys virt).1.mem pte =
        phys ||| PT_PRESENT_MASK ||| PT_WRITABLE_MASK ||| PT_USER_MASK ∧
      (installPage s cr3 phys virt).1.mem pte &&& PT_ADDR_MASK = phys) ∧
    ∀ va, pageOf va ≠ virt →
      translate (installPage s cr3 phys virt).1.mem cr3 va = translate s.mem cr3 va := by
  obtain ⟨taken, rest, -, -, -, -, hinst⟩ :=
    installPte_spec growsWith_x86Good (Nat.le_refl 1) (by decide) (x86Child_one (userEntry phys))
      (fun h => by omega) (Supply.of_freeList hlist fun p hp => (hpages p hp).1)
      htable (fun p hp => (hpages p hp).2) hpath henough
  refine ⟨?_, fun va hva => ?_⟩
  · obtain ⟨path, -, -, htarget⟩ := hinst.reads_target
    have hstop := htarget Nat stopLevel virt fun _ _ _ => rfl
    have hlast := htarget Word lastEntry virt fun _ _ _ => rfl
    rw [Reading.climb_of_node_eq fun _ _ _ => rfl] at hstop hlast
    obtain ⟨pte, hget, hpte⟩ := getPte_of_stopLevel_one hstop
    refine ⟨pte, hget, hpte.trans hlast, ?_⟩
    rw [show (installPage s cr3 phys virt).1.mem pte = userEntry phys from hpte.trans hlast]
    exact userEntry_addr hphys
  · have hpage : va.toNat / 4096 ≠ virt.toNat / 4096 := fun heq =>
      hva ((pageOf_eq_pageOf_iff.mpr heq).trans hvirt)
    unfold translate
    exact congrArg _ (leafOf_other hinst (Nat.le_refl 1) (by decide) hcanon hpage)

def emptyTableMachine : Machine where
  mem a := if a = 0x2000#64 then 0x3000#64 else if a = 0x3000#64 then 0x4000#64 else 0#64
  freelist := 0x2000#64

theorem emptyTableMachine_freeList :
    FreeList emptyTableMachine [0x2000#64, 0x3000#64, 0x4000#64] where
  chain := by simp [emptyTableMachine]
  nodup := by decide
  isPage := by
    rw [List.forall_mem_cons, List.forall_mem_cons, List.forall_mem_singleton]
    decide

theorem emptyTableMachine_emptyTable : EmptyTable emptyTableMachine.mem 0x1000#64 where
  isPage := by decide
  zero a ha := by
    have h2 : a ≠ 0x2000#64 := by
      rintro rfl
      exact absurd ha (by decide)
    have h3 : a ≠ 0x3000#64 := by
      rintro rfl
      exact absurd ha (by decide)
    simp only [emptyTableMachine, if_neg h2, if_neg h3]

/-- A first mapping in an empty table takes three pages for the missing tables. -/
theorem installPage_maps_in_empty_table :
    ∃ pte, getPte (installPage emptyTableMachine 0x1000#64 0x7000#64 0xfffffffffffff000#64).1.mem
        0x1000#64 0xfffffffffffff000#64 = some pte ∧
      (installPage emptyTableMachine 0x1000#64 0x7000#64 0xfffffffffffff000#64).1.mem pte =
        0x7000#64 ||| PT_PRESENT_MASK ||| PT_WRITABLE_MASK ||| PT_USER_MASK := by
  have hempty := emptyTableMachine_emptyTable
  have hpages : ∀ p ∈ [0x2000#64, 0x3000#64, 0x4000#64],
      PhysPage p ∧ p ∉ tablePages emptyTableMachine.mem 0x1000#64 := by
    intro p hp
    rw [tablePages, PAGE_LEVEL, x86_pages_of_empty hempty]
    simp only [List.mem_cons, List.not_mem_nil, or_false] at hp
    rcases hp with rfl | rfl | rfl
    all_goals exact ⟨by decide, fun h => absurd (Set.mem_singleton_iff.mp h) (by decide)⟩
  have hpath : NoLargePage emptyTableMachine.mem 0x1000#64 0xfffffffffffff000#64 := by
    rw [NoLargePage, PAGE_LEVEL, x86_eval_of_empty hempty]
    exact fun _ => by decide
  have henough : missingTables emptyTableMachine.mem 0x1000#64 0xfffffffffffff000#64 1 ≤ 3 := by
    rw [missingTables, PAGE_LEVEL, x86_eval_of_empty hempty]
    decide
  have htable : PageTable emptyTableMachine.mem 0x1000#64 :=
    hempty.wf (x86Child_zero _) (growsWith_x86Good.zero _)
  obtain ⟨⟨pte, hget, hpte, -⟩, -⟩ :=
    installPage_maps htable (by decide : PhysPage 0x7000#64)
      (by decide) (by decide) hpath emptyTableMachine_freeList hpages henough
  exact ⟨pte, hget, hpte⟩

end AcrnGuest
