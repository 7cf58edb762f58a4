import AcrnGuest.PagingInstall

/-!
# The identity map of physical memory (`setup_mmu`)

`setup_mmu` maps the memory one to one, with 2 MiB pages as long as a whole one
fits and with 4 KiB pages for the rest. `MappedBelow` is the invariant of both
loops: exactly the addresses below `n` are mapped, every pointer of the tables
grants write and user access, and `frontier` says how far the tables for the
addresses from `n` on are already there. The last part is what makes the number
of table pages exact.
-/

namespace AcrnGuest

open Radix

/-! ### The source -/

/-- One iteration of the loop of `install_pages`, on the machine, `phys` and `virt`. -/
def installPagesStep (cr3 max : Word) (st : Machine × Word × Word) :
    (Machine × Word × Word) ⊕ Machine :=
  if st.2.1 + PAGE_SIZE ≤ max then
    .inl ((installPage st.1 cr3 st.2.1 st.2.2).1, st.2.1 + PAGE_SIZE, st.2.2 + PAGE_SIZE)
  else .inr st.1

theorem installPagesStep_next {s : Machine} {cr3 max phys virt : Word}
    (h : phys + PAGE_SIZE ≤ max) :
    installPagesStep cr3 max (s, phys, virt) =
      .inl ((installPage s cr3 phys virt).1, phys + PAGE_SIZE, virt + PAGE_SIZE) := if_pos h

theorem installPagesStep_done {s : Machine} {cr3 max phys virt : Word}
    (h : ¬ phys + PAGE_SIZE ≤ max) : installPagesStep cr3 max (s, phys, virt) = .inr s := if_neg h

/-- `install_pages`. The result is `none` when an assertion fails. -/
def installPages (s : Machine) (cr3 phys len virt : Word) : Option Machine :=
  let max := len + phys
  if ¬ phys % PAGE_SIZE = 0#64 then none
  else if ¬ virt % PAGE_SIZE = 0#64 then none
  else if ¬ len % PAGE_SIZE = 0#64 then none
  else Loop.run (installPagesStep cr3 max) LOOP_BOUND (s, phys, virt)

/-- One iteration of the loop of `setup_mmu_range`, on the machine and `phys`. -/
def setupMmuRangeStep (cr3 max : Word) (st : Machine × Word) :
    (Machine × Word) ⊕ (Machine × Word) :=
  if st.2 + LARGE_PAGE_SIZE ≤ max then
    .inl ((installLargePage st.1 cr3 st.2 st.2).1, st.2 + LARGE_PAGE_SIZE)
  else .inr st

theorem setupMmuRangeStep_next {s : Machine} {cr3 max phys : Word}
    (h : phys + LARGE_PAGE_SIZE ≤ max) :
    setupMmuRangeStep cr3 max (s, phys) =
      .inl ((installLargePage s cr3 phys phys).1, phys + LARGE_PAGE_SIZE) := if_pos h

theorem setupMmuRangeStep_done {s : Machine} {cr3 max phys : Word}
    (h : ¬ phys + LARGE_PAGE_SIZE ≤ max) : setupMmuRangeStep cr3 max (s, phys) = .inr (s, phys) :=
  if_neg h

def setupMmuRange (s : Machine) (cr3 start len : Word) : Option Machine :=
  let max := len + start
  (Loop.run (setupMmuRangeStep cr3 max) LOOP_BOUND (s, start)).bind fun st =>
    installPages st.1 cr3 st.2 (max - st.2) st.2

/-- `setup_mmu` of the x86_64 build, up to the loading of the control registers.
    The first component is the returned root table. -/
def setupMmu (s : Machine) (endOfMemory : Word) : Option (Word × Machine) :=
  let root := allocPage s
  let cr3 := root.1
  let cleared := { root.2 with mem := memset root.2.mem cr3 0#8 PAGE_SIZE }
  let endOfMemory := if endOfMemory < 1#64 <<< 32 then 1#64 <<< 32 else endOfMemory
  (setupMmuRange cleared cr3 0#64 endOfMemory).map fun s' => (cr3, s')

/-! ### Tables whose pointers restrict nothing -/

/-- Well formed, and a pointer grants write and user access. -/
def x86Open (level : Nat) (e : Word) : Prop :=
  x86Good level e ∧
    (x86Child level e ≠ none → e &&& PT_WRITABLE_MASK ≠ 0#64 ∧ e &&& PT_USER_MASK ≠ 0#64)

theorem growsWith_x86Open : GrowsWith x86Open where
  zero level := ⟨growsWith_x86Good.zero level, fun h => (h (x86Child_of_absent (by decide))).elim⟩
  link level p hp := ⟨growsWith_x86Good.link level p hp, fun _ => by
    rw [userEntry_writable hp, userEntry_user hp]
    decide⟩

/-- Along open pointers the access rights are those of the leaf. -/
theorem climb_x86Leaf_of_open {l : Nat} {path : List Word} (h : x86.IsPath x86Open l path)
    (leaf : Option Mapping) : x86Leaf.climb l path leaf = leaf := by
  induction path generalizing l with
  | nil => rfl
  | cons e path ih =>
      obtain ⟨⟨-, hopen⟩, ⟨c, hc⟩, hpath⟩ := h
      obtain ⟨hw, hu⟩ := hopen (by rw [show x86Child l e = some c from hc]; simp)
      rw [Reading.climb, ih hpath]
      cases leaf with
      | none => rfl
      | some found => simp [x86Leaf, hw, hu]

/-- The walk of an address without a leaf ends in an absent entry. -/
theorem noLeafAbove_of_leaf_none {m : Mem} {l : Nat} {p va : Word} (tgt : Nat)
    (h : x86.eval x86Leaf m l p va = none) : x86.eval (noLeafAbove tgt) m l p va :=
  (noLeafAbove_iff tgt).mpr fun leaf hleaf =>
    absurd (h.symm.trans hleaf).symm (Option.some_ne_none leaf)

/-! ### The frontier of the tables -/

/-- Where the walk of `va` ends if exactly the tables for the addresses below `n`
    exist: at the first level where no address below `n` shares the table. -/
def frontier (n va : Nat) : Nat :=
  if n ≤ va / 2 ^ 39 * 2 ^ 39 then 4
  else if n ≤ va / 2 ^ 30 * 2 ^ 30 then 3
  else if n ≤ va / 2 ^ 21 * 2 ^ 21 then 2
  else 1

/-- A block of `2 ^ b` addresses starts behind the page at `n` if `n` lies in an earlier one. -/
theorem add_le_div_mul_iff {n va b c : Nat} (hc : c ≤ b) (hn : n % 2 ^ c = 0) (hva : n ≤ va) :
    n + 2 ^ c ≤ va / 2 ^ b * 2 ^ b ↔ va / 2 ^ b ≠ n / 2 ^ b := by
  obtain ⟨d, rfl⟩ := Nat.exists_eq_add_of_le hc
  obtain ⟨q, rfl⟩ := Nat.dvd_of_mod_eq_zero hn
  have hmono : 2 ^ c * q / 2 ^ (c + d) ≤ va / 2 ^ (c + d) := Nat.div_le_div_right hva
  have hblock : 2 ^ c * q / 2 ^ (c + d) = q / 2 ^ d := by
    rw [Nat.pow_add, Nat.mul_div_mul_left _ _ (Nat.two_pow_pos c)]
  have hstart : va / 2 ^ (c + d) * 2 ^ (c + d) = 2 ^ c * (va / 2 ^ (c + d) * 2 ^ d) := by
    rw [Nat.mul_left_comm, ← Nat.pow_add]
  rw [hstart, ← Nat.mul_add_one, Nat.mul_le_mul_left_iff (Nat.two_pow_pos c), Nat.add_one_le_iff,
    hblock, ← Nat.div_lt_iff_lt_mul (Nat.two_pow_pos d)]
  omega

/-- A table that starts at `n` or behind is not passed. -/
theorem le_frontier {n va k : Nat} (hk4 : k ≤ PAGE_LEVEL)
    (hle : n ≤ va / 2 ^ PGDIR_BITS k * 2 ^ PGDIR_BITS k) : k ≤ frontier n va := by
  have h4 : k = 4 → n ≤ va / 2 ^ 39 * 2 ^ 39 := fun h => by rwa [h] at hle
  have h3 : k = 3 → n ≤ va / 2 ^ 30 * 2 ^ 30 := fun h => by rwa [h] at hle
  have h2 : k = 2 → n ≤ va / 2 ^ 21 * 2 ^ 21 := fun h => by rwa [h] at hle
  unfold PAGE_LEVEL at hk4
  unfold frontier
  split_ifs <;> omega

/-- The tables above the frontier start before `n`. -/
theorem frontier_le {n va k : Nat} (hk : 1 ≤ k)
    (habove : ∀ j, k < j → j ≤ PAGE_LEVEL → ¬ n ≤ va / 2 ^ PGDIR_BITS j * 2 ^ PGDIR_BITS j) :
    frontier n va ≤ k := by
  have h4 : k < 4 → ¬ n ≤ va / 2 ^ 39 * 2 ^ 39 := fun h => habove 4 h (by decide)
  have h3 : k < 3 → ¬ n ≤ va / 2 ^ 30 * 2 ^ 30 := fun h => habove 3 h (by decide)
  have h2 : k < 2 → ¬ n ≤ va / 2 ^ 21 * 2 ^ 21 := fun h => habove 2 h (by decide)
  unfold frontier
  split_ifs <;> omega

/-- Mapping the page at `n` moves the frontier of the later addresses to the
    level where their walk leaves that of `n`. -/
theorem frontier_add {n va k tgt : Nat} (htgt : 1 ≤ tgt)
    (hn : n % 2 ^ PGDIR_BITS tgt = 0) (hva : n ≤ va) (hk : tgt ≤ k) (hk4 : k ≤ PAGE_LEVEL)
    (hsame : ∀ j, k < j → j ≤ PAGE_LEVEL → va / 2 ^ PGDIR_BITS j = n / 2 ^ PGDIR_BITS j)
    (hne : va / 2 ^ PGDIR_BITS k ≠ n / 2 ^ PGDIR_BITS k) :
    frontier (n + 2 ^ PGDIR_BITS tgt) va = min (frontier n va) k := by
  have hblock : ∀ j, k ≤ j → (n + 2 ^ PGDIR_BITS tgt ≤ va / 2 ^ PGDIR_BITS j * 2 ^ PGDIR_BITS j ↔
      va / 2 ^ PGDIR_BITS j ≠ n / 2 ^ PGDIR_BITS j) := by
    intro j hj
    refine add_le_div_mul_iff ?_ hn hva
    unfold PGDIR_BITS PGDIR_WIDTH
    omega
  have hle := (hblock k (Nat.le_refl k)).mpr hne
  have hbehind : frontier (n + 2 ^ PGDIR_BITS tgt) va ≤ k := by
    refine frontier_le (by omega) fun j hj hj4 hblk => ?_
    exact (hblock j (Nat.le_of_lt hj)).mp hblk (hsame j hj hj4)
  have hbefore : k ≤ frontier n va := le_frontier hk4 (by omega)
  rw [Nat.min_eq_right hbefore]
  exact Nat.le_antisymm hbehind (le_frontier hk4 hle)

/-! ### The loop invariant -/

/-- Exactly the addresses below `n` are mapped, one to one and with full access.
    The free pages `free` are not used by the tables. -/
structure MappedBelow (s : Machine) (cr3 : Word) (free : List Word) (n : Nat) : Prop where
  supply : Supply (s, 0#64) free
  wf : x86.WF x86Open s.mem PAGE_LEVEL cr3
  apart : ∀ q ∈ free, q ∉ tablePages s.mem cr3
  maps : ∀ va, translate s.mem cr3 va = if va.toNat < n then some ⟨va, true, true⟩ else none
  stops : ∀ va : Word, n ≤ va.toNat → va.toNat < 2 ^ 47 →
    x86.eval stopLevel s.mem PAGE_LEVEL cr3 va = frontier n va.toNat

/-- An empty root table maps nothing. -/
theorem mappedBelow_zero {s : Machine} {cr3 : Word} {free : List Word}
    (hempty : EmptyTable s.mem cr3) (hsupply : Supply (s, 0#64) free) (hcr3 : cr3 ∉ free) :
    MappedBelow s cr3 free 0 where
  supply := hsupply
  wf := hempty.wf (x86Child_zero _) (growsWith_x86Open.zero _)
  apart q hq hmem := by
    rw [tablePages, PAGE_LEVEL, x86_pages_of_empty hempty] at hmem
    exact hcr3 (Set.mem_singleton_iff.mp hmem ▸ hq)
  maps va := by
    have hnone : leafOf s.mem cr3 va = none := by
      unfold leafOf PAGE_LEVEL
      rw [x86_eval_of_empty hempty]
      split_ifs <;> rfl
    rw [translate, hnone, if_neg (Nat.not_lt_zero _)]
    rfl
  stops va _ _ := by
    rw [PAGE_LEVEL, x86_eval_of_empty hempty, frontier, if_pos (Nat.zero_le _)]
    rfl

section Install

variable {s : Machine} {cr3 virt pte : Word} {free : List Word} {n tgt : Nat}

theorem MappedBelow.missingTables_eq (h : MappedBelow s cr3 free n) (tgt : Nat)
    (hvirt : virt.toNat = n) (hlow : n < 2 ^ 47) :
    missingTables s.mem cr3 virt tgt = frontier n n - tgt := by
  rw [missingTables, h.stops virt (by omega) (by omega), hvirt]

/-- **Mapping the next page.** An entry for the page at `n` that maps it to itself
    moves the bound of the mapped addresses behind that page. -/
theorem MappedBelow.install (h : MappedBelow s cr3 free n) (htgt : 1 ≤ tgt) (htgt2 : tgt ≤ 2)
    (hvirt : virt.toNat = n) (hn : n % 2 ^ PGDIR_BITS tgt = 0)
    (hend : n + 2 ^ PGDIR_BITS tgt ≤ 2 ^ 47) (hleaf : x86Child tgt pte = none)
    (hgood : x86Open tgt pte) (hself : ∀ va : Word,
      va.toNat / 2 ^ PGDIR_BITS tgt = virt.toNat / 2 ^ PGDIR_BITS tgt →
      (x86Leaf.leaf tgt pte va).map (fun leaf => leaf.translation va) = some ⟨va, true, true⟩)
    (henough : frontier n n - tgt ≤ free.length) :
    ∃ rest, MappedBelow (installPte s cr3 tgt virt pte 0#64).1 cr3 rest (n + 2 ^ PGDIR_BITS tgt) ∧
      rest.length + (frontier n n - tgt) = free.length := by
  have hlow : n < 2 ^ 47 := by
    have := Nat.two_pow_pos (PGDIR_BITS tgt)
    omega
  have hcanon : Canonical virt := Or.inl (by omega)
  have htgt4 : tgt ≤ PAGE_LEVEL := Nat.le_trans htgt2 (by decide)
  have hmissing := h.missingTables_eq tgt hvirt hlow
  have hpath : x86.eval (noLeafAbove tgt) s.mem PAGE_LEVEL cr3 virt := by
    have hnone := h.maps virt
    rw [if_neg (by omega), translate, Option.map_eq_none_iff, leafOf, if_pos hcanon] at hnone
    exact noLeafAbove_of_leaf_none tgt hnone
  obtain ⟨taken, rest, ptPage', hsplit, hptPage, hsupply, hinst⟩ :=
    installPte_spec growsWith_x86Open htgt htgt4 hleaf hgood h.supply h.wf h.apart hpath (by omega)
  obtain ⟨path, -, hopen, htarget⟩ := hinst.reads_target
  have hlength := hsplit.length_eq
  have hcount := hinst.count
  rw [List.length_append] at hlength
  rw [hptPage rfl] at hsupply
  refine ⟨rest, ⟨hsupply, hinst.wf, ?_, ?_, ?_⟩, ?_⟩
  · exact hinst.notMem_pages hsplit h.supply.nodup h.apart
  · intro va
    by_cases hpage : va.toNat / 2 ^ PGDIR_BITS tgt = virt.toNat / 2 ^ PGDIR_BITS tgt
    · have hrange := (div_eq_iff_of_aligned (hvirt ▸ hn)).mp hpage
      have hva : Canonical va := Or.inl (by omega)
      rw [translate, leafOf, if_pos hva,
        htarget _ x86Leaf va fun k hk _ => tableIndex_eq_of_div_eq hk hpage,
        climb_x86Leaf_of_open hopen, hself va hpage, if_pos (by omega)]
    · have hrange := mt (div_eq_iff_of_aligned (hvirt ▸ hn)).mpr hpage
      have hkept : translate (installPte s cr3 tgt virt pte 0#64).1.mem cr3 va =
          translate s.mem cr3 va := congrArg _ (leafOf_other hinst htgt htgt4 hcanon hpage)
      rw [hkept, h.maps va]
      exact if_congr (by omega) rfl rfl
  · intro va hva hva47
    have hpage : va.toNat / 2 ^ PGDIR_BITS tgt ≠ virt.toNat / 2 ^ PGDIR_BITS tgt := fun heq => by
      have := (div_eq_iff_of_aligned (hvirt ▸ hn)).mp heq
      omega
    obtain ⟨j, hj, hj4, hne⟩ :=
      exists_tableIndex_ne htgt htgt4 (Canonical.div_ne (Or.inl hva47) hcanon htgt htgt4 hpage)
    obtain ⟨k, hk, hk4, hne, hsame⟩ :=
      exists_highest_ne (tableIndex · va) (tableIndex · virt) hj4 hne
    rw [hinst.stops_other va k (by omega) hk4 hsame hne, h.stops va (by omega) hva47]
    refine (frontier_add htgt hn (by omega) (by omega) hk4 ?_ ?_).symm
    · intro i hi hi4
      by_contra hdiff
      rw [← hvirt] at hdiff
      obtain ⟨j', hj', hj4', hne'⟩ :=
        exists_tableIndex_ne (by omega) hi4
          (Canonical.div_ne (Or.inl hva47) hcanon (by omega) hi4 hdiff)
      exact hne' (hsame j' (by omega) hj4')
    · exact fun heq => hne (tableIndex_eq_of_div_eq (Nat.le_refl k) (hvirt ▸ heq))
  · change taken.length = missingTables s.mem cr3 virt tgt at hcount
    omega

end Install

/-! ### Pages that are mapped to themselves -/

def largeEntry (p : Word) : Word := userEntry p ||| PT_PAGE_SIZE_MASK

/-- A leaf with full access whose frame is the page of `virt` maps that page to itself. -/
theorem leaf_maps_self {tgt : Nat} {e virt va : Word}
    (hframe : e &&& GENMASK_ULL 51 (PGDIR_BITS tgt) = virt)
    (hpresent : e &&& PT_PRESENT_MASK = 1#64) (hwritable : e &&& PT_WRITABLE_MASK = 2#64)
    (huser : e &&& PT_USER_MASK = 4#64)
    (hva : va.toNat / 2 ^ PGDIR_BITS tgt = virt.toNat / 2 ^ PGDIR_BITS tgt) :
    (x86Leaf.leaf tgt e va).map (fun leaf => leaf.translation va) = some ⟨va, true, true⟩ := by
  have hphys : virt + BitVec.ofNat 64 (va.toNat % 2 ^ PGDIR_BITS tgt) = va := by
    have hbase : virt.toNat = virt.toNat / 2 ^ PGDIR_BITS tgt * 2 ^ PGDIR_BITS tgt := by
      conv_lhs => rw [← hframe, toNat_and_GENMASK_ULL _ (by omega)]
      conv_rhs => rw [← hframe, toNat_and_GENMASK_ULL _ (by omega)]
      rw [Nat.mul_div_cancel _ (Nat.two_pow_pos _)]
    have hsum := Nat.div_add_mod' va.toNat (2 ^ PGDIR_BITS tgt)
    have hlt := va.isLt
    apply BitVec.eq_of_toNat_eq
    rw [BitVec.toNat_add, BitVec.toNat_ofNat, Nat.add_mod_mod, hbase, ← hva, hsum,
      Nat.mod_eq_of_lt hlt]
  simp [x86Leaf, Mapping.translation, hpresent, hwritable, huser, hframe, hphys]

section Install

variable {s : Machine} {cr3 virt : Word} {free : List Word} {n : Nat}

theorem MappedBelow.installPage (h : MappedBelow s cr3 free n) (hvirt : virt.toNat = n)
    (hn : n % 2 ^ 12 = 0) (hend : n + 2 ^ 12 ≤ 2 ^ 47) (henough : frontier n n - 1 ≤ free.length) :
    ∃ rest, MappedBelow (installPage s cr3 virt virt).1 cr3 rest (n + 2 ^ 12) ∧
      rest.length + (frontier n n - 1) = free.length := by
  have hphys : PhysPage virt := physPage_iff.mpr ⟨by omega, by omega⟩
  refine h.install (Nat.le_refl 1) (by omega) hvirt hn hend (x86Child_one _)
    ⟨fun h4 => by omega, fun hc => (hc (x86Child_one _)).elim⟩ (fun va hva => ?_) henough
  exact leaf_maps_self (userEntry_addr hphys) (userEntry_present hphys) (userEntry_writable hphys)
    (userEntry_user hphys) hva

theorem MappedBelow.installLargePage (h : MappedBelow s cr3 free n) (hvirt : virt.toNat = n)
    (hn : n % 2 ^ 21 = 0) (hend : n + 2 ^ 21 ≤ 2 ^ 47) (henough : frontier n n - 2 ≤ free.length) :
    ∃ rest, MappedBelow (installLargePage s cr3 virt virt).1 cr3 rest (n + 2 ^ 21) ∧
      rest.length + (frontier n n - 2) = free.length := by
  have hphys : PhysPage virt := physPage_iff.mpr ⟨by omega, by omega⟩
  have hflag : ∀ f, PT_PAGE_SIZE_MASK &&& f = 0#64 → largeEntry virt &&& f = userEntry virt &&& f :=
    fun f hf => by rw [largeEntry, BitVec.and_or_distrib_right, hf, BitVec.or_zero]
  have hsize : largeEntry virt &&& PT_PAGE_SIZE_MASK ≠ 0#64 := by
    rw [largeEntry, BitVec.and_or_distrib_right, userEntry_pageSize hphys]
    decide
  have hframe : largeEntry virt &&& GENMASK_ULL 51 (PGDIR_BITS 2) = virt := by
    rw [hflag _ (by decide), userEntry_eq, BitVec.and_or_distrib_right,
      show 7#64 &&& GENMASK_ULL 51 (PGDIR_BITS 2) = 0#64 by decide, BitVec.or_zero]
    apply BitVec.eq_of_toNat_eq
    rw [toNat_and_GENMASK_ULL _ (by omega), PGDIR_BITS, PGDIR_WIDTH, PAGE_SHIFT]
    omega
  have hleaf : x86Child 2 (largeEntry virt) = none := x86Child_of_large ⟨Or.inl rfl, hsize⟩
  refine h.install (by omega) (Nat.le_refl 2) hvirt hn hend hleaf
    ⟨fun h4 => by omega, fun hc => (hc hleaf).elim⟩ (fun va hva => ?_) henough
  refine leaf_maps_self hframe ?_ ?_ ?_ hva
  · exact (hflag _ (by decide)).trans (userEntry_present hphys)
  · exact (hflag _ (by decide)).trans (userEntry_writable hphys)
  · exact (hflag _ (by decide)).trans (userEntry_user hphys)

end Install

/-! ### The loops -/

/-- The tables of levels 3 and 2 for the addresses below `n`. -/
def upperTables (n : Nat) : Nat := (n + 2 ^ 39 - 1) / 2 ^ 39 + (n + 2 ^ 30 - 1) / 2 ^ 30

/-- The pages of the whole table: the root, the upper tables and a table of level 1
    if the memory does not end at a 2 MiB boundary. -/
def tableCount (n : Nat) : Nat := 1 + upperTables n + if n % 2 ^ 21 = 0 then 0 else 1

/-- The tables that are missing for the next large page. -/
theorem upperTables_next {n x : Nat} (hn : n % 2 ^ 21 = 0) (hlt : n < x) (hle : x ≤ n + 2 ^ 21) :
    upperTables x = upperTables n + (frontier n n - 2) ∧ 2 ≤ frontier n n := by
  have hstart : ∀ k, n ≤ n / k * k ↔ n % k = 0 := fun k => by
    have := Nat.div_add_mod' n k
    omega
  simp only [upperTables, frontier, hstart, if_pos hn]
  split_ifs with hroot hupper
  · omega
  · omega
  · omega

theorem toNat_add_of_le {phys size : Word} (hphys : phys.toNat ≤ 2 ^ 47)
    (hsize : size.toNat ≤ 2 ^ 21) :
    (phys + size).toNat = phys.toNat + size.toNat := by
  rw [BitVec.toNat_add]
  omega

/-- The invariant of the loop of `install_pages` when it maps less than a large page
    from `start` to `max`. Tables are only missing before the first iteration; `left`
    pages are never needed. -/
structure TailMapped (cr3 start max : Word) (left : Nat) (s : Machine) (phys : Word) : Prop where
  low : start.toNat ≤ phys.toNat
  high : phys.toNat ≤ max.toNat
  aligned : phys.toNat % 2 ^ 12 = 0
  mapped : ∃ free, MappedBelow s cr3 free phys.toNat ∧ left ≤ free.length ∧
    (phys.toNat < max.toNat → left + (frontier phys.toNat phys.toNat - 1) ≤ free.length)

theorem TailMapped.step {s : Machine} {cr3 start max phys : Word} {left : Nat}
    (h : TailMapped cr3 start max left s phys) (hstart : start.toNat % 2 ^ 21 = 0)
    (hmax47 : max.toNat ≤ 2 ^ 47) (hrest : max.toNat < start.toNat + 2 ^ 21)
    (hnext : phys + PAGE_SIZE ≤ max) :
    TailMapped cr3 start max left (installPage s cr3 phys phys).1 (phys + PAGE_SIZE) := by
  obtain ⟨hlow, hhigh, haligned, free, hmap, -, hneed⟩ := h
  have hadd : (phys + PAGE_SIZE).toNat = phys.toNat + 2 ^ 12 :=
    toNat_add_of_le (by omega) (by decide)
  rw [BitVec.le_def, hadd] at hnext
  have hfirst := hneed (by omega)
  obtain ⟨rest, hmap', hrestLen⟩ := hmap.installPage rfl haligned (by omega) (by omega)
  refine ⟨by omega, by omega, by omega, rest, hadd ▸ hmap', by omega, fun _ => ?_⟩
  have hfrontier : frontier (phys.toNat + 2 ^ 12) (phys.toNat + 2 ^ 12) = 1 := by
    unfold frontier
    rw [if_neg (by omega), if_neg (by omega), if_neg (by omega)]
  rw [hadd, hfrontier]
  omega

theorem run_installPagesStep {cr3 start max : Word} (hstart : start.toNat % 2 ^ 21 = 0)
    (hmax : max.toNat % 2 ^ 12 = 0) (hmax47 : max.toNat ≤ 2 ^ 47)
    (hrest : max.toNat < start.toNat + 2 ^ 21) {s : Machine} {phys : Word} {left bound : Nat}
    (h : TailMapped cr3 start max left s phys) (hbound : max.toNat - phys.toNat < bound) :
    ∃ s' free, Loop.run (installPagesStep cr3 max) bound (s, phys, phys) = some s' ∧
      MappedBelow s' cr3 free max.toNat ∧ left ≤ free.length := by
  induction bound generalizing s phys with
  | zero => omega
  | succ bound ih =>
      have hadd : (phys + PAGE_SIZE).toNat = phys.toNat + 2 ^ 12 :=
        toNat_add_of_le (Nat.le_trans h.high hmax47) (by decide)
      by_cases hnext : phys + PAGE_SIZE ≤ max
      · have hnext' := h.step hstart hmax47 hrest hnext
        have hhigh := hnext'.high
        rw [Loop.run_succ_inl (installPagesStep_next hnext)]
        exact ih hnext' (by omega)
      · obtain ⟨-, hhigh, haligned, free, hmap, hleft, -⟩ := h
        rw [Loop.run_succ_inr (installPagesStep_done hnext)]
        rw [BitVec.le_def, hadd] at hnext
        have hend : phys.toNat = max.toNat := by omega
        exact ⟨s, free, rfl, hend ▸ hmap, hleft⟩

/-- `install_pages` for the memory that is left behind the last large page. -/
theorem installPages_spec {s : Machine} {cr3 phys max : Word} {free : List Word} {left : Nat}
    (h : MappedBelow s cr3 free phys.toNat) (hphys : phys.toNat % 2 ^ 21 = 0)
    (hmax : max.toNat % 2 ^ 12 = 0) (hmax47 : max.toNat ≤ 2 ^ 47) (hle : phys.toNat ≤ max.toNat)
    (hrest : max.toNat < phys.toNat + 2 ^ 21) (hleft : left ≤ free.length)
    (henough : phys.toNat < max.toNat → left + (frontier phys.toNat phys.toNat - 1) ≤ free.length) :
    ∃ s' rest, installPages s cr3 phys (max - phys) phys = some s' ∧
      MappedBelow s' cr3 rest max.toNat ∧ left ≤ rest.length := by
  have hpage : phys % PAGE_SIZE = 0#64 := umod_PAGE_SIZE_eq_zero_iff.mpr (isPage_iff.mpr (by omega))
  have hlen : (max - phys) % PAGE_SIZE = 0#64 := by
    rw [umod_PAGE_SIZE_eq_zero_iff, isPage_iff, BitVec.toNat_sub]
    omega
  rw [installPages, if_neg (not_not.mpr hpage), if_neg (not_not.mpr hpage),
    if_neg (not_not.mpr hlen), BitVec.sub_add_cancel]
  exact run_installPagesStep hphys hmax hmax47 hrest
    ⟨Nat.le_refl _, hle, by omega, free, h, hleft, henough⟩ (by unfold LOOP_BOUND; omega)

/-- The loop of `setup_mmu_range` stops less than a large page before the end. The
    `total` pages it was given are in the tables of levels 3 and 2 or still free. -/
theorem run_setupMmuRangeStep {cr3 max : Word} (hmax47 : max.toNat ≤ 2 ^ 47) {s : Machine}
    {phys : Word} {free : List Word} {total bound : Nat} (h : MappedBelow s cr3 free phys.toNat)
    (hphys : phys.toNat % 2 ^ 21 = 0) (hle : phys.toNat ≤ max.toNat)
    (htotal : free.length + upperTables phys.toNat = total)
    (henough : upperTables max.toNat ≤ total) (hbound : max.toNat - phys.toNat < bound) :
    ∃ s' phys' rest, Loop.run (setupMmuRangeStep cr3 max) bound (s, phys) = some (s', phys') ∧
      MappedBelow s' cr3 rest phys'.toNat ∧ phys'.toNat % 2 ^ 21 = 0 ∧
      phys'.toNat ≤ max.toNat ∧ max.toNat < phys'.toNat + 2 ^ 21 ∧
      rest.length + upperTables phys'.toNat = total := by
  induction bound generalizing s phys free with
  | zero => omega
  | succ bound ih =>
      have hadd : (phys + LARGE_PAGE_SIZE).toNat = phys.toNat + 2 ^ 21 :=
        toNat_add_of_le (by omega) (by decide)
      by_cases hnext : phys + LARGE_PAGE_SIZE ≤ max
      · rw [Loop.run_succ_inl (setupMmuRangeStep_next hnext)]
        rw [BitVec.le_def, hadd] at hnext
        obtain ⟨hcount, -⟩ := upperTables_next hphys (by omega) (Nat.le_refl (phys.toNat + 2 ^ 21))
        have hmono : upperTables (phys.toNat + 2 ^ 21) ≤ upperTables max.toNat :=
          Nat.add_le_add (Nat.div_le_div_right (by omega)) (Nat.div_le_div_right (by omega))
        obtain ⟨rest, hmap, hrest⟩ := h.installLargePage rfl hphys (by omega) (by omega)
        rw [← hadd] at hmap hcount
        exact ih hmap (by omega) (by omega) (by omega) (by omega)
      · rw [Loop.run_succ_inr (setupMmuRangeStep_done hnext)]
        rw [BitVec.le_def, hadd] at hnext
        exact ⟨s, phys, free, rfl, h, hphys, hle, by omega, htotal⟩

/-- `setup_mmu_range` from address 0 maps everything below `len`. -/
theorem setupMmuRange_spec {s : Machine} {cr3 len : Word} {free : List Word} {left : Nat}
    (h : MappedBelow s cr3 free 0) (hlen : len.toNat % 2 ^ 12 = 0) (hlen47 : len.toNat ≤ 2 ^ 47)
    (henough : left + tableCount len.toNat ≤ 1 + free.length) :
    ∃ s' rest, setupMmuRange s cr3 0#64 len = some s' ∧ MappedBelow s' cr3 rest len.toNat ∧
      left ≤ rest.length := by
  have hcount : left + upperTables len.toNat + (if len.toNat % 2 ^ 21 = 0 then 0 else 1) ≤
      free.length := by
    unfold tableCount at henough
    omega
  have hstart : MappedBelow s cr3 free (0#64).toNat := h
  have hnone : free.length + upperTables (0#64).toNat = free.length := rfl
  have hbound : len.toNat - (0#64).toNat < LOOP_BOUND := by
    unfold LOOP_BOUND
    omega
  obtain ⟨s₁, phys, rest, hrun, hmap, hphys, hle, hlt, htotal⟩ :=
    run_setupMmuRangeStep hlen47 hstart rfl (Nat.zero_le _) hnone (by omega) hbound
  have hmono : upperTables phys.toNat ≤ upperTables len.toNat :=
    Nat.add_le_add (Nat.div_le_div_right (by omega)) (Nat.div_le_div_right (by omega))
  have htail : phys.toNat < len.toNat →
      left + (frontier phys.toNat phys.toNat - 1) ≤ rest.length := by
    intro hlt'
    obtain ⟨hupper, hfrontier⟩ := upperTables_next hphys hlt' (by omega)
    rw [if_neg (by omega)] at hcount
    omega
  obtain ⟨s', rest', hpages, hmapped, hleft⟩ :=
    installPages_spec hmap hphys hlen hlen47 hle hlt (by omega) htail
  refine ⟨s', rest', ?_, hmapped, hleft⟩
  rw [setupMmuRange, BitVec.add_zero, hrun]
  exact hpages

/-! ### `setup_mmu` -/

theorem setupMmu_spec {s : Machine} {endOfMemory : Word} {pages : List Word} {left : Nat}
    (hlist : FreeList s pages) (hpages : ∀ p ∈ pages, PhysPage p) (hend : IsPage endOfMemory)
    (hend47 : endOfMemory.toNat ≤ 2 ^ 47)
    (henough : left + tableCount (max endOfMemory.toNat (2 ^ 32)) ≤ pages.length) :
    ∃ cr3 s' rest, setupMmu s endOfMemory = some (cr3, s') ∧
      MappedBelow s' cr3 rest (max endOfMemory.toNat (2 ^ 32)) ∧ left ≤ rest.length := by
  cases pages with
  | nil =>
      unfold tableCount at henough
      simp at henough
  | cons cr3 free =>
      obtain ⟨halloc, hfree⟩ := allocPage_cons hlist
      have hcr3 : PhysPage cr3 := hpages cr3 (by simp)
      have hnotMem : cr3 ∉ free := (List.nodup_cons.mp hlist.nodup).1
      let cleared : Machine := { mem := memset s.mem cr3 0#8 PAGE_SIZE, freelist := s.mem cr3 }
      have hempty : EmptyTable cleared.mem cr3 := ⟨hcr3.isPage, fun a ha => by
        simp only [cleared, memset_zero_page hcr3.isPage, if_pos ha]⟩
      have hfree' : FreeList cleared free := by
        refine hfree.frame rfl fun p hp => ?_
        have hpage : pageOf p = p := hlist.isPage p (by simp [hp])
        have hne : pageOf p ≠ cr3 := by
          rw [hpage]
          rintro rfl
          exact hnotMem hp
        simp only [cleared, memset_zero_page hcr3.isPage, if_neg hne]
      have hroot := mappedBelow_zero hempty
        (Supply.of_freeList hfree' fun p hp => hpages p (by simp [hp])) hnotMem
      let top : Word := if endOfMemory < 1#64 <<< 32 then 1#64 <<< 32 else endOfMemory
      have htop : top.toNat = max endOfMemory.toNat (2 ^ 32) := by
        have hbit : (1#64 <<< 32 : Word).toNat = 2 ^ 32 := by decide
        simp only [top, BitVec.lt_def, hbit]
        split_ifs
        · rw [hbit]
          omega
        · omega
      have htop4096 : top.toNat % 2 ^ 12 = 0 := by
        have := isPage_iff.mp hend
        omega
      rw [← htop] at henough ⊢
      rw [List.length_cons] at henough
      obtain ⟨s', rest, hrange, hmapped, hleft⟩ :=
        setupMmuRange_spec hroot htop4096 (by omega) (by omega : left + _ ≤ 1 + free.length)
      refine ⟨cr3, s', rest, ?_, hmapped, hleft⟩
      simp only [setupMmu, halloc]
      rw [hrange]
      rfl

/-- **The identity map of `setup_mmu`.** With a page-aligned end of memory up to
    `2 ^ 47` and enough free pages for the tables, the addresses below the end of
    memory, or below 4 GiB if that is more, are mapped to themselves with write and
    user access, and no other address is mapped. -/
theorem setupMmu_maps_identity {s : Machine} {endOfMemory : Word} {pages : List Word}
    (hlist : FreeList s pages) (hpages : ∀ p ∈ pages, PhysPage p) (hend : IsPage endOfMemory)
    (hend47 : endOfMemory.toNat ≤ 2 ^ 47)
    (henough : tableCount (max endOfMemory.toNat (2 ^ 32)) ≤ pages.length) :
    ∃ cr3 s', setupMmu s endOfMemory = some (cr3, s') ∧
      ∀ va, translate s'.mem cr3 va =
        if va.toNat < max endOfMemory.toNat (2 ^ 32) then
          some { phys := va, writable := true, user := true }
        else none := by
  obtain ⟨cr3, s', rest, hsetup, hmapped, -⟩ :=
    setupMmu_spec hlist hpages hend hend47 (by omega : 0 + tableCount _ ≤ pages.length)
  exact ⟨cr3, s', hsetup, hmapped.maps⟩

def sixPageMachine : Machine where
  mem a := if a < 0x6000#64 then a + 0x1000#64 else 0#64
  freelist := 0x1000#64

theorem sixPageMachine_freeList : FreeList sixPageMachine
    [0x1000#64, 0x2000#64, 0x3000#64, 0x4000#64, 0x5000#64, 0x6000#64] where
  chain := by simp [sixPageMachine]
  nodup := by decide
  isPage := by
    simp only [List.mem_cons, List.not_mem_nil, or_false, forall_eq_or_imp, forall_eq]
    decide

/-- Six pages are exactly enough to map 4 GiB. -/
theorem setupMmu_maps_identity_from_six_pages :
    ∃ cr3 s', setupMmu sixPageMachine 0x8000#64 = some (cr3, s') ∧
      translate s'.mem cr3 0xfee00123#64 = some ⟨0xfee00123#64, true, true⟩ ∧
      translate s'.mem cr3 0x100000000#64 = none := by
  have hpages : ∀ p ∈ [0x1000#64, 0x2000#64, 0x3000#64, 0x4000#64, 0x5000#64, 0x6000#64],
      PhysPage p := by
    simp only [List.mem_cons, List.not_mem_nil, or_false, forall_eq_or_imp, forall_eq]
    decide
  obtain ⟨cr3, s', hsetup, hmaps⟩ := setupMmu_maps_identity sixPageMachine_freeList hpages
    (by decide : IsPage 0x8000#64) (by decide) (by decide)
  refine ⟨cr3, s', hsetup, ?_, ?_⟩
  · rw [hmaps, if_pos (by decide)]
  · rw [hmaps, if_neg (by decide)]

end AcrnGuest
