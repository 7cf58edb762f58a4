import AcrnGuest.Vmalloc

/-!
# What the lookups say about a translation (`lib/x86/vm.c`)

`get_pte` finds the entry at which the processor's walk ends, whatever the size of the
page. Two functions build on it and go wrong in their own ways.

`virt_to_pte_phys` adds the offset of the address in a page of 4K to the address field of
the entry. In a large page the bits between the two are lost.

`any_present_pages` looks at one address in each 4K step from the start of its range, so
that the page of the last address may be left out. It compares wrapped addresses: a range
that ends at the end of the address space counts as empty, and one that ends in the last
page may never be left. And it takes addresses for mapped that the processor rejects as
not canonical.
-/

namespace AcrnGuest

open Radix

variable {m : Mem} {cr3 va virt : Word} {leaf : Mapping} {l : Nat} {p : Word}

/-! ### Where the walk ends -/

theorem x86Child_lastEntry (m : Mem) (l : Nat) (p va : Word) :
    x86Child (x86.eval stopLevel m (l + 1) p va) (x86.eval lastEntry m (l + 1) p va) = none := by
  rw [Layout.eval_eq_leaf_find (fun _ _ _ => rfl), Layout.eval_eq_leaf_find (fun _ _ _ => rfl)]
  exact Layout.child_find_one x86 m va l p

theorem isSome_x86Leaf_iff (m : Mem) (l : Nat) (p va : Word) :
    (x86.eval x86Leaf m (l + 1) p va).isSome ↔
      x86.eval lastEntry m (l + 1) p va &&& PT_PRESENT_MASK ≠ 0#64 := by
  induction l generalizing p with
  | zero =>
      have hc : x86.child 1 (x86.entry m 1 p va) = none := x86Child_one _
      rw [Layout.eval_none hc, Layout.eval_none hc]
      simp only [x86Leaf, lastEntry]
      split_ifs with habsent <;> simp [habsent]
  | succ l ih =>
      cases hc : x86.child (l + 1 + 1) (x86.entry m (l + 1 + 1) p va) with
      | none =>
          rw [Layout.eval_none hc, Layout.eval_none hc]
          simp only [x86Leaf, lastEntry]
          split_ifs with habsent <;> simp [habsent]
      | some c =>
          rw [Layout.eval_some hc, Layout.eval_some hc]
          exact (iff_of_eq (congrArg (· = true) Option.isSome_map)).trans (ih c)

/-- A present entry that ends a walk maps a page of 4K, 2M or 1G. -/
theorem leaf_level_of_present {level : Nat} {e : Word} (hpresent : e &&& PT_PRESENT_MASK ≠ 0#64)
    (hend : x86Child level e = none) :
    level = 1 ∨ (level = 2 ∨ level = 3) ∧ e &&& PT_PAGE_SIZE_MASK ≠ 0#64 := by
  unfold x86Child at hend
  split_ifs at hend with habsent hone hlarge
  · exact absurd habsent hpresent
  · exact Or.inl hone
  · exact Or.inr hlarge

/-- **`get_pte`** finds the entry of every mapped address. -/
theorem getPte_of_present
    (h : x86.eval lastEntry m PAGE_LEVEL cr3 virt &&& PT_PRESENT_MASK ≠ 0#64) :
    ∃ pte, getPte m cr3 virt = some pte ∧ m pte = x86.eval lastEntry m PAGE_LEVEL cr3 virt := by
  obtain ⟨hlevel, hentry⟩ := findPteLoop_eq m virt 3 cr3
  refine ⟨_, (getPte_eq_some_iff m cr3 virt _).mpr ⟨rfl, ?_⟩, hentry⟩
  rw [show PAGE_LEVEL = 3 + 1 from rfl] at h ⊢
  rw [hlevel, hentry]
  rcases leaf_level_of_present h (x86Child_lastEntry m 3 cr3 virt) with hone | ⟨hlevel', hlarge⟩
  · exact Or.inl hone
  · exact Or.inr ⟨hlevel', h, hlarge⟩

theorem entry_of_getPte {pte : Word} (h : getPte m cr3 virt = some pte) :
    m pte = x86.eval lastEntry m PAGE_LEVEL cr3 virt := by
  obtain ⟨rfl, -⟩ := (getPte_eq_some_iff m cr3 virt pte).mp h
  exact (findPteLoop_eq m virt 3 cr3).2

/-! ### Tables with one pointer in a page -/

/-- The tables below `p` are a tree in the given pages. -/
structure TreeIn (m : Mem) (l : Nat) (p : Word) (pages : List Word) : Prop where
  wf : x86.WF x86Good m l p
  inside : ∀ q ∈ x86.pages m l p, q ∈ pages

section Sparse

variable {used : List Word}

/-- In a memory that is zero but for some words, the entries of a page have what zero has and what
    those of the words have that lie in the page. -/
theorem entries_of_sparse (good : Word → Word → Prop) (hsparse : ∀ a, a ∉ used → m a = 0#64)
    (hpage : IsPage p) (hzero : ∀ a, good a 0#64)
    (hused : used.Forall fun a => pageOf a = p → good a (m a)) (i : Fin 512) :
    good (slot p i) (m (slot p i)) := by
  by_cases hmem : slot p i ∈ used
  · exact List.forall_iff_forall_mem.mp hused _ hmem (pageOf_slot hpage i)
  · rw [hsparse _ hmem]
    exact hzero _

theorem TreeIn.ends (hsparse : ∀ a, a ∉ used → m a = 0#64) (hpage : IsPage p)
    (hused : used.Forall fun a => pageOf a = p → x86Good (l + 1) (m a) ∧
      x86Child (l + 1) (m a) = none) :
    TreeIn m (l + 1) p [p] := by
  have hentries := entries_of_sparse (fun _ e => x86Good (l + 1) e ∧
    x86Child (l + 1) e = none) hsparse hpage
    (fun _ => ⟨growsWith_x86Good.zero _, x86Child_zero _⟩) hused
  have hends : ∀ i, x86.child (l + 1) (m (x86.slot p i)) = none := fun i => (hentries i).2
  refine ⟨Layout.wf_of_ends hpage (fun i => (hentries i).1) hends, fun q hq => ?_⟩
  rw [Layout.pages_of_ends hends] at hq
  exact List.mem_singleton.mpr hq

theorem TreeIn.child (i : Fin 512) (c : Word) {pages : List Word}
    (hsparse : ∀ a, a ∉ used → m a = 0#64) (hpage : IsPage p)
    (hused : used.Forall fun a => pageOf a = p →
      x86Good (l + 1) (m a) ∧ (a ≠ slot p i → x86Child (l + 1) (m a) = none))
    (hc : x86Child (l + 1) (m (slot p i)) = some c) (h : TreeIn m l c pages) (hp : p ∉ pages) :
    TreeIn m (l + 1) p (p :: pages) := by
  have hentries := entries_of_sparse
    (fun a e => x86Good (l + 1) e ∧ (a ≠ slot p i → x86Child (l + 1) e = none)) hsparse hpage
    (fun _ => ⟨growsWith_x86Good.zero _, fun _ => x86Child_zero _⟩) hused
  have honly : ∀ j, j ≠ i → x86.child (l + 1) (m (x86.slot p j)) = none := fun j hj =>
    (hentries j).2 fun heq => hj (slot_injective hpage heq)
  refine ⟨Layout.wf_of_only_child hpage (fun j => (hentries j).1) hc honly h.wf
    fun hmem => hp (h.inside p hmem), fun q hq => ?_⟩
  rw [Layout.pages_of_only_child hc honly] at hq
  rcases hq with rfl | hq
  · exact List.mem_cons_self
  · exact List.mem_cons_of_mem _ (h.inside q hq)

end Sparse

/-! ### `virt_to_pte_phys` -/

theorem leaf_of_leafOf (h : leafOf m cr3 va = some leaf) :
    x86.eval x86Leaf m PAGE_LEVEL cr3 va = some leaf := by
  unfold leafOf at h
  split_ifs at h
  exact h

theorem leaf_level_cases (h : leafOf m cr3 va = some leaf) :
    leaf.level = 1 ∨ leaf.level = 2 ∨ leaf.level = 3 := by
  have hleaf := leaf_of_leafOf h
  obtain ⟨hstop, hlast⟩ := eval_of_leaf hleaf
  have hpresent := (isSome_x86Leaf_iff m 3 cr3 va).mp (Option.isSome_of_eq_some hleaf)
  have hend := x86Child_lastEntry m 3 cr3 va
  rw [show 3 + 1 = PAGE_LEVEL from rfl] at hpresent hend
  rw [hstop] at hend
  rcases leaf_level_of_present hpresent hend with hone | ⟨hlarge, -⟩
  · exact Or.inl hone
  · exact Or.inr hlarge

theorem virtToPtePhys_eq (h : leafOf m cr3 va = some leaf) :
    virtToPtePhys m cr3 va = some
      ((leaf.entry &&& PT_ADDR_MASK) + (va &&& (PAGE_SIZE - 1#64))) := by
  have hleaf := leaf_of_leafOf h
  have hpresent := (isSome_x86Leaf_iff m 3 cr3 va).mp (Option.isSome_of_eq_some hleaf)
  obtain ⟨pte, hget, hpte⟩ := getPte_of_present hpresent
  rw [virtToPtePhys, hget, Option.map_some, hpte, (eval_of_leaf hleaf).2]

theorem toNat_pte_phys (e va : Word) :
    ((e &&& PT_ADDR_MASK) + (va &&& (PAGE_SIZE - 1#64))).toNat
      = e.toNat % 2 ^ 52 / 4096 * 4096 + va.toNat % 4096 := by
  have hmask : PAGE_SIZE - 1#64 = 4095#64 := by decide
  have hoffset : (va &&& 4095#64).toNat = va.toNat % 4096 := by
    rw [BitVec.toNat_and]
    exact Nat.and_two_pow_sub_one_eq_mod va.toNat 12
  rw [hmask, BitVec.toNat_add, PT_ADDR_MASK, toNat_and_addrMask, hoffset]
  omega

theorem toNat_translation_phys (leaf : Mapping) (va : Word) {b : Nat}
    (hb : PGDIR_BITS leaf.level = b) :
    (leaf.translation va).phys.toNat
      = (leaf.entry.toNat % 2 ^ 52 / 2 ^ b * 2 ^ b + va.toNat % 2 ^ b) % 2 ^ 64 := by
  have hoffset : va.toNat % 2 ^ b < 2 ^ 64 := Nat.lt_of_le_of_lt (Nat.mod_le _ _) va.isLt
  rw [Mapping.translation, hb, BitVec.toNat_add, toNat_and_GENMASK_ULL _ (by omega),
    BitVec.toNat_ofNat, Nat.mod_eq_of_lt hoffset]

/-- The two sums agree if the entry and the address agree in the bits from 12 up to the size of the
    page. -/
theorem pte_phys_eq_translation_iff (h : leaf.level = 1 ∨ leaf.level = 2 ∨ leaf.level = 3)
    (va : Word) :
    (leaf.entry &&& PT_ADDR_MASK) + (va &&& (PAGE_SIZE - 1#64)) = (leaf.translation va).phys ↔
      leaf.entry.toNat / 4096 % 512 ^ (leaf.level - 1) =
        va.toNat / 4096 % 512 ^ (leaf.level - 1) := by
  rw [← BitVec.toNat_inj, toNat_pte_phys]
  rcases h with h | h | h
  · rw [toNat_translation_phys leaf va (b := 12) (by rw [h]; rfl), h]
    omega
  · rw [toNat_translation_phys leaf va (b := 21) (by rw [h]; rfl), h]
    omega
  · rw [toNat_translation_phys leaf va (b := 30) (by rw [h]; rfl), h]
    omega

/-- **`virt_to_pte_phys`** returns the address of the processor's walk exactly if the entry holds,
in the bits from 12 up to the size of its page, the number of the 4K page of the address in it. -/
theorem virtToPtePhys_translates_iff (h : leafOf m cr3 va = some leaf) :
    virtToPtePhys m cr3 va = (translate m cr3 va).map Translation.phys ↔
      leaf.entry.toNat / 4096 % 512 ^ (leaf.level - 1) =
        va.toNat / 4096 % 512 ^ (leaf.level - 1) := by
  rw [virtToPtePhys_eq h, translate, h, Option.map_some, Option.map_some, Option.some_inj]
  exact pte_phys_eq_translation_iff (leaf_level_cases h) va

/-- A table that maps the first 2M by a large page, to the address `0x200000`. -/
def largePageMem : Mem := fun a =>
  if a = 0x1000#64 then 0x2003#64 else if a = 0x2000#64 then 0x3003#64
  else if a = 0x3000#64 then 0x200083#64 else 0#64

theorem largePageMem_sparse :
    ∀ a, a ∉ [0x1000#64, 0x2000#64, 0x3000#64] → largePageMem a = 0#64 := by
  intro a ha
  simp only [List.mem_cons, List.not_mem_nil, or_false, not_or] at ha
  simp [largePageMem, ha]

theorem largePageMem_pageTable : PageTable largePageMem 0x1000#64 :=
  (TreeIn.child 0 0x2000#64 largePageMem_sparse (by decide) (by decide) (by decide)
    (TreeIn.child 0 0x3000#64 largePageMem_sparse (by decide) (by decide) (by decide)
      (TreeIn.ends largePageMem_sparse (by decide) (by decide)) (by decide)) (by decide)).wf

/-- In its first 4K the two agree. -/
theorem virtToPtePhys_translates_first_4k :
    virtToPtePhys largePageMem 0x1000#64 0x123#64
      = (translate largePageMem 0x1000#64 0x123#64).map Translation.phys :=
  (virtToPtePhys_translates_iff
    (by decide : leafOf largePageMem 0x1000#64 0x123#64 = some ⟨2, 0x200083#64, true, false⟩)).mpr
    (by decide)

/-- **The slip**: the second 4K of the large page is said to be at the address of the first. -/
theorem virtToPtePhys_drops_large_offset :
    PageTable largePageMem 0x1000#64 ∧
      translate largePageMem 0x1000#64 0x1000#64 = some ⟨0x201000#64, true, false⟩ ∧
      virtToPtePhys largePageMem 0x1000#64 0x1000#64 = some 0x200000#64 := by
  refine ⟨largePageMem_pageTable, by decide, by decide⟩

/-! ### `any_present_pages` -/

/-- The test `ptep && (*ptep & PT_PRESENT_MASK)` on the result of `get_pte`. -/
def presentPte (m : Mem) (cr3 curr : Word) : Bool :=
  match getPte m cr3 curr with
  | some ptep => m ptep &&& PT_PRESENT_MASK ≠ 0#64
  | none => false

def anyPresentPages (m : Mem) (cr3 virt len : Word) : Option Bool :=
  let max := virt + len
  Loop.scan (fun curr => ¬ curr < max) (fun curr => presentPte m cr3 curr = true) (· + PAGE_SIZE)
    LOOP_BOUND virt

/-- The walk of the address, canonical or not, ends in a present entry. -/
def WalkPresent (m : Mem) (cr3 va : Word) : Prop := (x86.eval x86Leaf m PAGE_LEVEL cr3 va).isSome

theorem presentPte_iff (m : Mem) (cr3 va : Word) : presentPte m cr3 va = true ↔
    WalkPresent m cr3 va := by
  rw [WalkPresent, show PAGE_LEVEL = 3 + 1 from rfl, isSome_x86Leaf_iff]
  constructor
  · intro h
    unfold presentPte at h
    split at h
    · next pte hget =>
        rw [decide_eq_true_eq, entry_of_getPte hget] at h
        exact h
    · cases h
  · intro h
    obtain ⟨pte, hget, hpte⟩ := getPte_of_present h
    simp only [presentPte, hget, hpte, decide_eq_true_eq]
    exact h

/-- The addresses of a 4K page have the same walk. -/
theorem walkPresent_congr {va va' : Word} (h : va'.toNat / 4096 = va.toNat / 4096) :
    WalkPresent m cr3 va' ↔ WalkPresent m cr3 va := by
  have hdiv : va'.toNat / 2 ^ PGDIR_BITS 1 = va.toNat / 2 ^ PGDIR_BITS 1 := h
  have heval : x86.eval x86Leaf m PAGE_LEVEL cr3 va' = x86.eval x86Leaf m PAGE_LEVEL cr3 va := by
    refine Layout.eval_congr_idx (fun k hk _ => ?_) fun _ _ => rfl
    exact tableIndex_eq_of_div_eq (Nat.le_trans (Layout.one_le_stopLevel x86 m 3 cr3 va) hk) hdiv
  rw [WalkPresent, WalkPresent, heval]

def IsMapped (m : Mem) (cr3 va : Word) : Prop := (leafOf m cr3 va).isSome

theorem isMapped_iff : IsMapped m cr3 va ↔ Canonical va ∧ WalkPresent m cr3 va := by
  unfold IsMapped WalkPresent leafOf
  split_ifs with hcanonical
  · simp [hcanonical]
  · simp [hcanonical]

def SomeMapped (m : Mem) (cr3 virt len : Word) : Prop :=
  ∃ va, virt.toNat ≤ va.toNat ∧ va.toNat < virt.toNat + len.toNat ∧ IsMapped m cr3 va

def sample (virt : Word) (k : Nat) : Word := (· + PAGE_SIZE)^[k] virt

def samples (len : Word) : Nat := (len.toNat + 4095) / 4096

theorem toNat_sample (virt : Word) (k : Nat) :
    (sample virt k).toNat = (virt.toNat + 4096 * k) % 2 ^ 64 := by
  induction k with
  | zero =>
      have := virt.isLt
      change virt.toNat = _
      omega
  | succ k ih =>
      have hnext : sample virt (k + 1) = sample virt k + PAGE_SIZE :=
        Function.iterate_succ_apply' ..
      rw [hnext, BitVec.toNat_add, ih, toNat_PAGE_SIZE]
      omega

/-- Where the loop does what it is meant to do. A range that ends at the end of the address space
    looks empty to it; a range that ends in the last page, behind the offset of its start, is never
    left; in any other range a page behind the last sample is not looked at, and samples that are
    not canonical count as mapped. -/
def ScanFaithful (m : Mem) (cr3 virt len : Word) : Prop :=
  if virt.toNat + len.toNat = 2 ^ 64 then ¬ SomeMapped m cr3 virt len
  else if 2 ^ 64 - 4096 + virt.toNat % 4096 < virt.toNat + len.toNat then SomeMapped m cr3 virt len
  else
    (∀ va, virt.toNat ≤ va.toNat → va.toNat < virt.toNat + len.toNat →
      virt.toNat / 4096 + samples len ≤ va.toNat / 4096 → IsMapped m cr3 va →
        ∃ k, k < samples len ∧ WalkPresent m cr3 (sample virt k)) ∧
    ∀ k, k < samples len → ¬ Canonical (sample virt k) → WalkPresent m cr3 (sample virt k) →
      SomeMapped m cr3 virt len

section

variable {len : Word}

theorem toNat_max (h : virt.toNat + len.toNat < 2 ^ 64) :
    (virt + len).toNat = virt.toNat + len.toNat := by
  rw [BitVec.toNat_add, Nat.mod_eq_of_lt h]

/-- A mapped address whose page is sampled is found. -/
theorem exists_sample_of_mapped {va : Word} (hlow : virt.toNat ≤ va.toNat) (h : IsMapped m cr3 va) :
    WalkPresent m cr3 (sample virt (va.toNat / 4096 - virt.toNat / 4096)) := by
  have hva := va.isLt
  refine (walkPresent_congr ?_).mpr (isMapped_iff.mp h).2
  rw [toNat_sample]
  omega

/-- The loop over a range that ends before the last page, or in it up to the offset of its start. -/
theorem anyPresentPages_of_end (m : Mem) (cr3 : Word)
    (h : virt.toNat + len.toNat ≤ 2 ^ 64 - 4096 + virt.toNat % 4096) :
    ∃ b, anyPresentPages m cr3 virt len = some b ∧
      (b = true ↔ ∃ k, k < samples len ∧ WalkPresent m cr3 (sample virt k)) := by
  have hmax := toNat_max (by omega : virt.toNat + len.toNat < 2 ^ 64)
  have hcount : samples len = (len.toNat + 4095) / 4096 := rfl
  have hlive : ∀ k, k < samples len → ¬ ¬ sample virt k < virt + len := by
    intro k hk
    rw [not_not, BitVec.lt_def, hmax, toNat_sample]
    omega
  have hdone : ¬ sample virt (samples len) < virt + len := by
    rw [BitVec.lt_def, hmax, toNat_sample]
    omega
  obtain ⟨b, hscan, hb⟩ := Loop.scan_of_done (fun curr => ¬ curr < virt + len)
    (fun curr => presentPte m cr3 curr = true) (· + PAGE_SIZE) (s := virt) hlive hdone
    (by unfold LOOP_BOUND; omega : samples len < LOOP_BOUND)
  refine ⟨b, hscan, hb.trans ?_⟩
  exact exists_congr fun k => and_congr_right fun _ => presentPte_iff m cr3 _

/-- The loop over a range that ends in the last page, behind the offset of its start. -/
theorem anyPresentPages_of_no_end (hlt : virt.toNat + len.toNat < 2 ^ 64)
    (h : 2 ^ 64 - 4096 + virt.toNat % 4096 < virt.toNat + len.toNat) :
    (∃ b, anyPresentPages m cr3 virt len = some b ∧ (b = true ↔ SomeMapped m cr3 virt len)) ↔
      SomeMapped m cr3 virt len := by
  have hlive : ∀ k, ¬ ¬ sample virt k < virt + len := by
    intro k
    rw [not_not, BitVec.lt_def, toNat_max hlt, toNat_sample]
    omega
  have hscan := Loop.scan_of_live (fun curr => ¬ curr < virt + len)
    (fun curr => presentPte m cr3 curr = true) (· + PAGE_SIZE) (s := virt) LOOP_BOUND hlive
  constructor
  · rintro ⟨b, hresult, hb⟩
    rcases hscan with ⟨hsome, -⟩ | ⟨hnone, -⟩
    · exact hb.mp (Option.some.inj (hresult.symm.trans hsome))
    · exact absurd (hresult.symm.trans hnone) (Option.some_ne_none b)
  · intro hmapped
    obtain ⟨va, hlow, hhigh, hva⟩ := hmapped
    refine ⟨true, ?_, fun _ => ⟨va, hlow, hhigh, hva⟩, fun _ => rfl⟩
    rcases hscan with ⟨hsome, -⟩ | ⟨-, hno⟩
    · exact hsome
    · have hk : va.toNat / 4096 - virt.toNat / 4096 < LOOP_BOUND := by
        have := va.isLt
        unfold LOOP_BOUND
        omega
      exact absurd ((presentPte_iff m cr3 _).mpr (exists_sample_of_mapped hlow hva)) (hno _ hk)

end

/-- **`any_present_pages`** answers whether some address of its range is mapped exactly if
    `ScanFaithful` holds. The tables are arbitrary; an entry with reserved bits set, at which a
    processor faults, counts here as the pointer or the page that its other bits describe. -/
theorem anyPresentPages_exact_iff (m : Mem) (cr3 : Word) {virt len : Word}
    (hrange : virt.toNat + len.toNat ≤ 2 ^ 64) :
    (∃ b, anyPresentPages m cr3 virt len = some b ∧ (b = true ↔ SomeMapped m cr3 virt len)) ↔
      ScanFaithful m cr3 virt len := by
  unfold ScanFaithful
  split_ifs with hend hlast
  · -- the sum wraps to zero, and the loop ends at once
    have hmax : virt + len = 0#64 := by
      apply BitVec.eq_of_toNat_eq
      rw [BitVec.toNat_add, hend]
      rfl
    have hfalse : anyPresentPages m cr3 virt len = some false := by
      unfold anyPresentPages
      rw [hmax]
      exact Loop.scan_done (by rw [BitVec.lt_def]; exact Nat.not_lt_zero _)
    rw [hfalse]
    constructor
    · rintro ⟨b, hb, hiff⟩ hmapped
      obtain rfl := Option.some.inj hb
      exact absurd (hiff.mpr hmapped) (by decide)
    · intro hno
      exact ⟨false, rfl, fun h => absurd h (by decide), fun h => absurd h hno⟩
  · exact anyPresentPages_of_no_end (by omega) hlast
  · obtain ⟨b, hscan, hb⟩ := anyPresentPages_of_end m cr3
      (by omega : virt.toNat + len.toNat ≤ 2 ^ 64 - 4096 + virt.toNat % 4096)
    have hcount : samples len = (len.toNat + 4095) / 4096 := rfl
    constructor
    · rintro ⟨b', hscan', hb'⟩
      obtain rfl := Option.some.inj (hscan.symm.trans hscan')
      refine ⟨fun va hlow hhigh _ hva => ?_, fun k hk _ hpresent => ?_⟩
      · exact hb.mp (hb'.mpr ⟨va, hlow, hhigh, hva⟩)
      · exact hb'.mp (hb.mpr ⟨k, hk, hpresent⟩)
    · rintro ⟨hunseen, hnoncanonical⟩
      refine ⟨b, hscan, hb.trans ⟨?_, ?_⟩⟩
      · rintro ⟨k, hk, hpresent⟩
        by_cases hcanonical : Canonical (sample virt k)
        · have hsample := toNat_sample virt k
          exact ⟨sample virt k, by omega, by omega, isMapped_iff.mpr ⟨hcanonical, hpresent⟩⟩
        · exact hnoncanonical k hk hcanonical hpresent
      · rintro ⟨va, hlow, hhigh, hva⟩
        by_cases hseen : virt.toNat / 4096 + samples len ≤ va.toNat / 4096
        · exact hunseen va hlow hhigh hseen hva
        · exact ⟨_, by omega, exists_sample_of_mapped hlow hva⟩

def onePageMem : Mem := fun a =>
  if a = 0x1000#64 then 0x2003#64 else if a = 0x2000#64 then 0x3003#64
  else if a = 0x3000#64 then 0x4003#64 else if a = 0x4010#64 then 0x5003#64 else 0#64

theorem onePageMem_sparse :
    ∀ a, a ∉ [0x1000#64, 0x2000#64, 0x3000#64, 0x4010#64] → onePageMem a = 0#64 := by
  intro a ha
  simp only [List.mem_cons, List.not_mem_nil, or_false, not_or] at ha
  simp [onePageMem, ha]

theorem onePageMem_pageTable : PageTable onePageMem 0x1000#64 :=
  (TreeIn.child 0 0x2000#64 onePageMem_sparse (by decide) (by decide) (by decide)
    (TreeIn.child 0 0x3000#64 onePageMem_sparse (by decide) (by decide) (by decide)
      (TreeIn.child 0 0x4000#64 onePageMem_sparse (by decide) (by decide) (by decide)
        (TreeIn.ends onePageMem_sparse (by decide) (by decide)) (by decide)) (by decide))
          (by decide)).wf

theorem onePageMem_mapped : IsMapped onePageMem 0x1000#64 0x2000#64 := by
  unfold IsMapped
  decide

/-- A range in the mapped page is seen to be mapped. -/
theorem anyPresentPages_exact_in_page :
    ∃ b, anyPresentPages onePageMem 0x1000#64 0x2000#64 0x10#64 = some b ∧
      (b = true ↔ SomeMapped onePageMem 0x1000#64 0x2000#64 0x10#64) := by
  have hmapped : SomeMapped onePageMem 0x1000#64 0x2000#64 0x10#64 :=
    ⟨0x2000#64, by decide, by decide, onePageMem_mapped⟩
  have hpresent : WalkPresent onePageMem 0x1000#64 (sample 0x2000#64 0) :=
    (isMapped_iff.mp onePageMem_mapped).2
  refine (anyPresentPages_exact_iff onePageMem 0x1000#64 (by decide)).mpr ?_
  unfold ScanFaithful
  rw [if_neg (by decide), if_neg (by decide)]
  exact ⟨fun _ _ _ _ _ => ⟨0, by decide, hpresent⟩, fun _ _ _ _ => hmapped⟩

/-- **The slip**: of the two addresses `0x1fff` and `0x2000` only the first is looked at, and the
    second one is mapped. -/
theorem anyPresentPages_misses_last_page :
    PageTable onePageMem 0x1000#64 ∧ SomeMapped onePageMem 0x1000#64 0x1fff#64 2#64 ∧
      anyPresentPages onePageMem 0x1000#64 0x1fff#64 2#64 = some false := by
  refine ⟨onePageMem_pageTable, ⟨0x2000#64, by decide, by decide, onePageMem_mapped⟩, ?_⟩
  obtain ⟨b, hscan, hb⟩ := anyPresentPages_of_end onePageMem 0x1000#64
    (by decide : (0x1fff#64).toNat + (2#64).toNat ≤ 2 ^ 64 - 4096 + (0x1fff#64).toNat % 4096)
  have hno : ¬ ∃ k, k < samples 2#64 ∧ WalkPresent onePageMem 0x1000#64 (sample 0x1fff#64 k) := by
    rintro ⟨k, hk, hpresent⟩
    have hcount : samples 2#64 = 1 := by decide
    obtain rfl : k = 0 := by omega
    revert hpresent
    unfold WalkPresent
    decide
  rw [hscan, Bool.eq_false_iff.mpr fun h => hno (hb.mp h)]

end AcrnGuest
