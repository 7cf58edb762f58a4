import AcrnGuest.AllocPage
import AcrnGuest.RadixTable

/-!
# Tables of 512 entries that grow from the page allocator

The page-table code of `lib/x86/vm.c` and the EPT code of
`x86/hsi_virtual_spec.c` walk tables of the same shape: 512 entries of 64 bits
in a page, nine address bits per level, and a page address in the bits 51:12 of
an entry. Both take missing tables from an optional page of the caller and then
from the page allocator. This module fixes the layout and the supply of pages;
which entries are pointers is left to the two users.
-/

namespace AcrnGuest

open Radix

/-! ### Indices -/

def PAGE_LEVEL : Nat := 4
def PGDIR_WIDTH : Nat := 9
def PGDIR_MASK : Word := 511#64

def PGDIR_BITS (lvl : Nat) : Nat := (lvl - 1) * PGDIR_WIDTH + PAGE_SHIFT
def PGDIR_OFFSET (va : Word) (lvl : Nat) : Word := (va >>> PGDIR_BITS lvl) &&& PGDIR_MASK

def tableIndex (lvl : Nat) (va : Word) : Fin 512 :=
  ⟨va.toNat / 2 ^ PGDIR_BITS lvl % 512, Nat.mod_lt _ (by omega)⟩

theorem PGDIR_OFFSET_eq (va : Word) (lvl : Nat) :
    PGDIR_OFFSET va lvl = BitVec.ofNat 64 (tableIndex lvl va) := by
  have hmask : (511 : Nat) = 2 ^ 9 - 1 := by decide
  apply BitVec.eq_of_toNat_eq
  rw [PGDIR_OFFSET, PGDIR_MASK, BitVec.toNat_and, BitVec.toNat_ushiftRight, BitVec.toNat_ofNat,
    BitVec.toNat_ofNat, Nat.mod_eq_of_lt (by omega : 511 < 2 ^ 64), hmask,
    Nat.and_two_pow_sub_one_eq_mod, Nat.shiftRight_eq_div_pow]
  have hlt := (tableIndex lvl va).isLt
  rw [Nat.mod_eq_of_lt (by omega : (tableIndex lvl va : Nat) < 2 ^ 64)]
  rfl

theorem entryAddr_PGDIR_OFFSET (pt va : Word) (lvl : Nat) :
    entryAddr pt (PGDIR_OFFSET va lvl) = slot pt (tableIndex lvl va) := by
  rw [PGDIR_OFFSET_eq, slot]

/-- Addresses in the same page of level `tgt` use the same entries from there up. -/
theorem tableIndex_eq_of_div_eq {a b : Word} {tgt k : Nat} (hk : tgt ≤ k)
    (h : a.toNat / 2 ^ PGDIR_BITS tgt = b.toNat / 2 ^ PGDIR_BITS tgt) :
    tableIndex k a = tableIndex k b := by
  obtain ⟨d, hd⟩ : ∃ d, PGDIR_BITS k = PGDIR_BITS tgt + d :=
    Nat.exists_eq_add_of_le (Nat.add_le_add_right (Nat.mul_le_mul_right _ (by omega)) _)
  apply Fin.ext
  simp only [tableIndex, hd, Nat.pow_add, ← Nat.div_div_eq_div_mul, h]

theorem PGDIR_BITS_succ {lvl : Nat} (h : 1 ≤ lvl) : PGDIR_BITS (lvl + 1) = PGDIR_BITS lvl + 9 := by
  unfold PGDIR_BITS PGDIR_WIDTH
  omega

/-- The page of a level is the page of the level above and the entry in it. -/
theorem mod_div_eq_of_index {x y w b : Nat} (hb : b + 9 ≤ w)
    (hup : x % 2 ^ w / 2 ^ (b + 9) = y % 2 ^ w / 2 ^ (b + 9))
    (hindex : x / 2 ^ b % 512 = y / 2 ^ b % 512) :
    x % 2 ^ w / 2 ^ b = y % 2 ^ w / 2 ^ b := by
  have hdigit : ∀ z : Nat, z % 2 ^ w / 2 ^ b % 512 = z / 2 ^ b % 512 := by
    intro z
    obtain ⟨d, rfl⟩ := Nat.exists_eq_add_of_le hb
    rw [Nat.add_assoc, Nat.pow_add, Nat.mod_mul_right_div_self, Nat.pow_add]
    exact Nat.mod_mul_right_mod _ 512 _
  rw [Nat.pow_add, ← Nat.div_div_eq_div_mul, ← Nat.div_div_eq_div_mul] at hup
  rw [← Nat.div_add_mod (x % 2 ^ w / 2 ^ b) 512, ← Nat.div_add_mod (y % 2 ^ w / 2 ^ b) 512, hdigit,
    hdigit, hindex]
  exact congrArg (512 * · + y / 2 ^ b % 512) hup

/-- Addresses in different pages of level `tgt` differ in the entry of some level. -/
theorem exists_tableIndex_ne {a b : Word} {tgt : Nat} (htgt : 1 ≤ tgt) (htgt4 : tgt ≤ PAGE_LEVEL)
    (h : a.toNat % 2 ^ 48 / 2 ^ PGDIR_BITS tgt ≠ b.toNat % 2 ^ 48 / 2 ^ PGDIR_BITS tgt) :
    ∃ k, tgt ≤ k ∧ k ≤ PAGE_LEVEL ∧ tableIndex k a ≠ tableIndex k b := by
  by_contra hall
  push Not at hall
  -- from the top down, the entries used so far determine the page
  have hsame : ∀ d, d + tgt ≤ PAGE_LEVEL + 1 →
      a.toNat % 2 ^ 48 / 2 ^ PGDIR_BITS (PAGE_LEVEL + 1 - d) =
        b.toNat % 2 ^ 48 / 2 ^ PGDIR_BITS (PAGE_LEVEL + 1 - d) := by
    intro d
    induction d with
    | zero =>
        intro _
        change a.toNat % 2 ^ 48 / 2 ^ 48 = b.toNat % 2 ^ 48 / 2 ^ 48
        omega
    | succ d ih =>
        intro hd
        have hindex := congrArg Fin.val (hall (PAGE_LEVEL + 1 - (d + 1)) (by omega) (by omega))
        have hlevel : PAGE_LEVEL + 1 - d = PAGE_LEVEL + 1 - (d + 1) + 1 := by omega
        have hup := ih (by omega)
        rw [hlevel, PGDIR_BITS_succ (by omega)] at hup
        refine mod_div_eq_of_index ?_ hup hindex
        unfold PGDIR_BITS PGDIR_WIDTH PAGE_SHIFT PAGE_LEVEL
        omega
  have htop := hsame (PAGE_LEVEL + 1 - tgt) (by omega)
  rw [Nat.sub_sub_self (by omega : tgt ≤ PAGE_LEVEL + 1)] at htop
  exact h htop

/-! ### Page addresses in entries -/

/-- A page-aligned address below `2 ^ 52`, which fits the address field of an entry. -/
def PhysPage (p : Word) : Prop := p &&& GENMASK_ULL 51 12 = p

instance (p : Word) : Decidable (PhysPage p) :=
  inferInstanceAs (Decidable (p &&& GENMASK_ULL 51 12 = p))

theorem toNat_and_addrMask (e : Word) :
    (e &&& GENMASK_ULL 51 12).toNat = e.toNat % 2 ^ 52 / 4096 * 4096 := by
  rw [toNat_and_GENMASK_ULL e (by omega)]
  omega

theorem physPage_iff {p : Word} : PhysPage p ↔ p.toNat % 4096 = 0 ∧ p.toNat < 2 ^ 52 := by
  rw [PhysPage, ← BitVec.toNat_inj, toNat_and_addrMask]
  omega

theorem PhysPage.isPage {p : Word} (h : PhysPage p) : IsPage p :=
  isPage_iff.mpr (physPage_iff.mp h).1

theorem physPage_and_mask (e : Word) : PhysPage (e &&& GENMASK_ULL 51 12) := by
  rw [PhysPage, BitVec.and_assoc, BitVec.and_self]

theorem PhysPage.or_and_mask {p f : Word} (hp : PhysPage p) (hf : f &&& GENMASK_ULL 51 12 = 0#64) :
    (p ||| f) &&& GENMASK_ULL 51 12 = p := by
  rw [BitVec.and_or_distrib_right, hp, hf, BitVec.or_zero]

theorem PhysPage.or_and_flags {p f k : Word} (hp : PhysPage p)
    (hk : GENMASK_ULL 51 12 &&& k = 0#64) : (p ||| f) &&& k = f &&& k := by
  have hpk : p &&& k = 0#64 := by
    rw [← (hp : p &&& GENMASK_ULL 51 12 = p), BitVec.and_assoc, hk, BitVec.and_zero]
  rw [BitVec.and_or_distrib_right, hpk, BitVec.zero_or]

/-! ### Layout -/

/-- Tables of 512 words, with the given notion of a pointer. -/
def wordLayout (child : Nat → Word → Option Word) (hone : ∀ e, child 1 e = none) :
    Layout Word Word Word Word (Fin 512) where
  slot := slot
  owner := pageOf
  idx := tableIndex
  child := child
  Page := IsPage
  owner_slot := pageOf_slot
  slot_injective := slot_injective
  child_one := hone

/-! ### Empty tables -/

structure EmptyTable (m : Mem) (p : Word) : Prop where
  isPage : IsPage p
  zero : ∀ a, pageOf a = p → m a = 0#64

namespace EmptyTable

variable {child : Nat → Word → Option Word} {hone : ∀ e, child 1 e = none} {m : Mem} {p : Word}
  {l : Nat}

theorem ends (h : EmptyTable m p) (hchild : child (l + 1) 0#64 = none) (i : Fin 512) :
    child (l + 1) (m (slot p i)) = none := by
  rw [h.zero _ (pageOf_slot h.isPage i)]
  exact hchild

theorem wf {good : Nat → Word → Prop} (h : EmptyTable m p) (hchild : child (l + 1) 0#64 = none)
    (hgood : good (l + 1) 0#64) : (wordLayout child hone).WF good m (l + 1) p := by
  refine Layout.wf_of_ends h.isPage (fun i => ?_) (h.ends hchild)
  change good (l + 1) (m (slot p i))
  rw [h.zero _ (pageOf_slot h.isPage i)]
  exact hgood

theorem pages (h : EmptyTable m p) (hchild : child (l + 1) 0#64 = none) :
    (wordLayout child hone).pages m (l + 1) p = {p} :=
  Layout.pages_of_ends (h.ends hchild)

/-- Every walk through an empty table ends in an absent entry. -/
theorem eval {V : Type} (h : EmptyTable m p) (hchild : child (l + 1) 0#64 = none)
    (r : Reading Word Word V) (va : Word) :
    (wordLayout child hone).eval r m (l + 1) p va = r.leaf (l + 1) 0#64 va := by
  have hentry : (wordLayout child hone).entry m (l + 1) p va = 0#64 :=
    h.zero _ (pageOf_slot h.isPage _)
  rw [Layout.eval_none (h.ends hchild _), hentry]

end EmptyTable

/-! ### The supply of table pages -/

/-- `new_pt = pt_page; if (!new_pt) new_pt = alloc_page(); else pt_page = 0;` -/
def takePage (st : Machine × Word) : Word × (Machine × Word) :=
  if st.2 = 0#64 then
    let r := allocPage st.1
    (r.1, (r.2, st.2))
  else (st.2, (st.1, 0#64))

/-- The pages that the walk may take: the caller's page, then the free list. -/
structure Supply (st : Machine × Word) (free : List Word) : Prop where
  list : ∃ pages, FreeList st.1 pages ∧ free = (if st.2 = 0#64 then [] else [st.2]) ++ pages
  phys : ∀ p ∈ free, PhysPage p
  nodup : free.Nodup

theorem Supply.of_freeList {s : Machine} {pages : List Word} (h : FreeList s pages)
    (hphys : ∀ p ∈ pages, PhysPage p) : Supply (s, 0#64) pages :=
  ⟨⟨pages, h, rfl⟩, hphys, h.nodup⟩

theorem Supply.freeList {s : Machine} {free : List Word} (h : Supply (s, 0#64) free) :
    FreeList s free := by
  obtain ⟨pages, hlist, rfl⟩ := h.list
  simpa using hlist

theorem Supply.frame {s : Machine} {ptPage : Word} {free : List Word} {m : Mem}
    (h : Supply (s, ptPage) free) (hmem : ∀ p ∈ free, m p = s.mem p) :
    Supply ({ s with mem := m }, ptPage) free := by
  obtain ⟨pages, hlist, hfree⟩ := h.list
  refine ⟨⟨pages, hlist.frame rfl fun p hp => hmem p ?_, hfree⟩, h.phys, h.nodup⟩
  rw [hfree]
  exact List.mem_append_right _ hp

/-- Writing an entry of a table page keeps the supply. The page `p` is an old table,
    disjoint from the free pages, or one of the pages taken from them. -/
theorem Supply.write_slot {s : Machine} {ptPage p e : Word} {free taken rest : List Word}
    {tables : Set Word} (h : Supply (s, ptPage) rest) (hsplit : free.Perm (taken ++ rest))
    (hnodup : free.Nodup) (hfree : ∀ q ∈ free, q ∉ tables) (hpage : IsPage p)
    (hp : p ∈ tables ∨ p ∈ taken) (i : Fin 512) :
    Supply ({ s with mem := Function.update s.mem (slot p i) e }, ptPage) rest := by
  refine h.frame fun a ha => Function.update_of_ne ?_ _ _
  rintro rfl
  have haPage : pageOf (slot p i) = slot p i := (h.phys _ ha).isPage
  rw [pageOf_slot hpage] at haPage
  rw [← haPage] at ha
  rcases hp with htable | htaken
  · exact hfree p (hsplit.mem_iff.mpr (List.mem_append_right _ ha)) htable
  · exact (List.nodup_append'.mp (hsplit.nodup_iff.mp hnodup)).2.2 htaken ha

theorem takePage_spec {s : Machine} {ptPage : Word} {free : List Word}
    (h : Supply (s, ptPage) free) (hne : free ≠ []) :
    ∃ q rest s' ptPage', takePage (s, ptPage) = (q, (s', ptPage')) ∧ free = q :: rest ∧
      Supply (s', ptPage') rest ∧ s'.mem = s.mem := by
  obtain ⟨pages, hlist, hfree⟩ := h.list
  by_cases hpt : ptPage = 0#64
  · subst hpt
    simp only [if_true, List.nil_append] at hfree
    subst hfree
    cases free with
    | nil => exact (hne rfl).elim
    | cons q rest =>
        obtain ⟨halloc, hrest⟩ := allocPage_cons hlist
        refine ⟨q, rest, _, 0#64, ?_, rfl, ⟨⟨rest, hrest, rfl⟩, ?_, ?_⟩, rfl⟩
        · simp only [takePage, if_true, halloc]
        · exact fun p hp => h.phys p (List.mem_cons_of_mem _ hp)
        · exact (List.nodup_cons.mp h.nodup).2
  · simp only [if_neg hpt] at hfree
    subst hfree
    refine ⟨ptPage, pages, s, 0#64, ?_, rfl, ⟨⟨pages, hlist, rfl⟩, ?_, hlist.nodup⟩, rfl⟩
    · simp only [takePage, if_neg hpt]
    · exact fun p hp => h.phys p (List.mem_append_right _ hp)

/-! ### Linking a zeroed table -/

/-- `memset(new_pt, 0, PAGE_SIZE); pt[offset] = value;` -/
def linkTable (m : Mem) (newPt addr value : Word) : Mem :=
  Function.update (memset m newPt 0#8 PAGE_SIZE) addr value

theorem linkTable_self (m : Mem) (newPt addr value : Word) :
    linkTable m newPt addr value addr = value := Function.update_self _ _ _

theorem linkTable_fresh {m : Mem} {newPt addr value a : Word} (hpage : IsPage newPt)
    (ha : pageOf a = newPt) (hne : pageOf addr ≠ newPt) :
    linkTable m newPt addr value a = 0#64 := by
  have haddr : a ≠ addr := by
    rintro rfl
    exact hne ha
  rw [linkTable, Function.update_of_ne haddr, memset_zero_page hpage, if_pos ha]

theorem linkTable_other {m : Mem} {newPt addr value a : Word} (hpage : IsPage newPt)
    (ha : a ≠ addr) (hne : pageOf a ≠ newPt) : linkTable m newPt addr value a = m a := by
  rw [linkTable, Function.update_of_ne ha, memset_zero_page hpage, if_neg hne]

/-! ### Opening a missing table -/

section Open

variable {child : Nat → Word → Option Word} {hone : ∀ e, child 1 e = none}
  {good : Nat → Word → Prop} {V : Type} {r : Reading Word Word V} {s : Machine}
  {ptPage p va : Word} {free : List Word} {l : Nat}

/-- An iteration that links an empty table below an entry that ended the walk. The
    entry `value q` that it writes points to the table `q`. -/
theorem opened_linkTable (value : Word → Word) (hl : 1 ≤ l) (hsupply : Supply (s, ptPage) free)
    (hwf : (wordLayout child hone).WF good s.mem (l + 1) p)
    (hfree : ∀ q ∈ free, q ∉ (wordLayout child hone).pages s.mem (l + 1) p) (hne : free ≠ [])
    (hold : child (l + 1) (s.mem (slot p (tableIndex (l + 1) va))) = none)
    (hlink : ∀ q, PhysPage q → child (l + 1) (value q) = some q ∧ good (l + 1) (value q))
    (hempty : child l 0#64 = none ∧ good l 0#64)
    (hreads : ∀ q va', PhysPage q → r.node (l + 1) (value q) (r.leaf l 0#64 va') =
      r.leaf (l + 1) (s.mem (slot p (tableIndex (l + 1) va))) va') :
    ∃ q rest s' ptPage', takePage (s, ptPage) = (q, (s', ptPage')) ∧ PhysPage q ∧
      Opened (wordLayout child hone) good r (fun st : Machine × Word => st.1.mem) Supply l va
        (s, ptPage) p free
        ({ s' with mem := linkTable s'.mem q (slot p (tableIndex (l + 1) va)) (value q) }, ptPage')
        q [q] rest ∧
      ∀ i, linkTable s'.mem q (slot p (tableIndex (l + 1) va)) (value q) (slot q i) = 0#64 := by
  have hpage : IsPage p := hwf.isPage
  obtain ⟨q, rest, s', ptPage', htake, rfl, hsupply', hmem⟩ := takePage_spec hsupply hne
  have hq : PhysPage q := hsupply.phys q (by simp)
  have hslot : pageOf (slot p (tableIndex (l + 1) va)) ≠ q := by
    rw [pageOf_slot hpage]
    rintro rfl
    exact hfree p (by simp) Layout.self_mem_pages
  have hlinked := linkTable_self s'.mem q (slot p (tableIndex (l + 1) va)) (value q)
  have hzero : ∀ i, linkTable s'.mem q (slot p (tableIndex (l + 1) va)) (value q)
      (slot q i) = 0#64 :=
    fun i => linkTable_fresh hq.isPage (pageOf_slot hq.isPage i) hslot
  refine ⟨q, rest, s', ptPage', htake, hq, ?_, hzero⟩
  refine Opened.fresh hl (List.Perm.refl _) ?_ hq.isPage hold ?_ ?_ ?_ ?_ ?_ ?_
  · -- the free pages that are left are neither the new table nor the page of the entry
    refine hsupply'.frame fun a ha => ?_
    have haFree : a ∈ q :: rest := List.mem_cons_of_mem _ ha
    have haPage : pageOf a = a := (hsupply.phys a haFree).isPage
    refine linkTable_other hq.isPage ?_ ?_
    · rintro rfl
      rw [pageOf_slot hpage] at haPage
      exact hfree _ haFree (haPage ▸ Layout.self_mem_pages)
    · rw [haPage]
      rintro rfl
      exact (List.nodup_cons.mp hsupply.nodup).1 ha
  · exact (congrArg (child (l + 1)) hlinked).trans (hlink q hq).1
  · exact (congrArg (good (l + 1)) hlinked).mpr (hlink q hq).2
  · intro i
    exact (congrArg (good l) (hzero i)).mpr hempty.2
  · intro i
    exact (congrArg (child l) (hzero i)).trans hempty.1
  · intro a ha hqa
    change linkTable s'.mem q _ _ a = s.mem a
    rw [← hmem]
    exact linkTable_other hq.isPage ha hqa
  · intro va' _
    refine Eq.trans ?_ (hreads q va' hq)
    exact congrArg₂ (r.node (l + 1)) hlinked (congrArg (r.leaf l · va') (hzero _))

end Open

end AcrnGuest
