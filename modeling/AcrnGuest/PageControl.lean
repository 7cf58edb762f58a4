import AcrnGuest.PagingLookups

/-!
# Changing a bit of a paging-structure entry (`set_page_control_bit`, `lib/x86/misc.c`)

The function walks the tables by itself. It departs from the processor's walk twice. To
find out whether the address lies in a page of 1G it looks at the entry of the PDPT whose
number is the index into the page directory. And it takes the address of the next table
with `PAGE_MASK`, which keeps the bits 63:52 of an entry; the processor ignores them in a
pointer or takes them as protection bits. A pointer with such a bit leads out of the physical
memory, which the library maps one to one, and following it faults.

Invalidating the TLB entry has no effect on memory and is left out.
-/

namespace AcrnGuest

open Radix

/-! ### The source -/

inductive PageLevel
  | PAGE_PTE
  | PAGE_PDE
  | PAGE_PDPTE
  | PAGE_PML4
deriving DecidableEq

def PageLevel.num : PageLevel → Nat
  | .PAGE_PTE => 1
  | .PAGE_PDE => 2
  | .PAGE_PDPTE => 3
  | .PAGE_PML4 => 4

def PAGE_PS_FLAG : Nat := 7

/-- A word of memory, or `none` for the fault at an address with a bit above 51. -/
def fetch (m : Mem) (a : Word) : Option Word := if a.toNat < 2 ^ 52 then some (m a) else none

def applyBit (entry : Word) (bit : Fin 64) (value : BitVec 32) : Word :=
  if value = 1#32 then entry ||| (1#64 <<< bit.val) else entry &&& ~~~ (1#64 <<< bit.val)

def changeBit (m : Mem) (a : Word) (bit : Fin 64) (value : BitVec 32) : Option Mem :=
  (fetch m a).map fun entry => Function.update m a (applyBit entry bit value)

/-- The address of the entry that the function changes, or `none` if it faults on the way. -/
def controlEntry (m : Mem) (cr3 gva : Word) (level : PageLevel) : Option Word :=
  let pdpteOffset := PGDIR_OFFSET gva 3
  let pml4Offset := PGDIR_OFFSET gva 4
  let pdOffset := PGDIR_OFFSET gva 2
  let ptOffset := PGDIR_OFFSET gva 1
  let pml4 := cr3
  (fetch m (entryAddr pml4 pml4Offset)).bind fun pml4Entry =>
  let pdpte := pml4Entry &&& PAGE_MASK
  (fetch m (entryAddr pdpte pdOffset)).bind fun probed =>
  if probed &&& (1#64 <<< PAGE_PS_FLAG) ≠ 0#64 ∧ (level = .PAGE_PDE ∨ level = .PAGE_PTE) then
    some (entryAddr pdpte pdpteOffset)
  else
    (fetch m (entryAddr pdpte pdpteOffset)).bind fun pdpteEntry =>
    let pd := pdpteEntry &&& PAGE_MASK
    (fetch m (entryAddr pd pdOffset)).bind fun pdEntry =>
    if pdEntry &&& (1#64 <<< PAGE_PS_FLAG) ≠ 0#64 ∧ level = .PAGE_PTE then
      some (entryAddr pd pdOffset)
    else
      let pt := pdEntry &&& PAGE_MASK
      match level with
      | .PAGE_PML4 => some (entryAddr pml4 pml4Offset)
      | .PAGE_PDPTE => some (entryAddr pdpte pdpteOffset)
      | .PAGE_PDE => some (entryAddr pd pdOffset)
      | .PAGE_PTE => some (entryAddr pt ptOffset)

def setPageControlBit (m : Mem) (cr3 gva : Word) (level : PageLevel) (bit : Fin 64)
    (value : BitVec 32) : Option Mem :=
  if gva = 0#64 then some m
  else (controlEntry m cr3 gva level).bind fun a => changeBit m a bit value

/-! ### Bits -/

theorem getLsbD_applyBit (e : Word) (bit : Fin 64) (value : BitVec 32) (j : Nat) :
    (applyBit e bit value).getLsbD j = if j = bit.val then decide (value = 1#32)
      else e.getLsbD j := by
  have hbit := bit.isLt
  have hone : (1#64 <<< bit.val).getLsbD j = decide (j = bit.val) := by
    rw [BitVec.getLsbD_shiftLeft, BitVec.getLsbD_one, Bool.eq_iff_iff]
    simp
    omega
  unfold applyBit
  by_cases hj : j < 64
  · split_ifs with hvalue heq heq
    · rw [BitVec.getLsbD_or, hone, decide_eq_true heq, Bool.or_true, decide_eq_true hvalue]
    · rw [BitVec.getLsbD_or, hone, decide_eq_false heq, Bool.or_false]
    · rw [BitVec.getLsbD_and, BitVec.getLsbD_not, hone, decide_eq_true heq, Bool.not_true,
        Bool.and_false, Bool.and_false, decide_eq_false hvalue]
    · rw [BitVec.getLsbD_and, BitVec.getLsbD_not, hone, decide_eq_false heq, Bool.not_false,
        Bool.and_true, decide_eq_true hj, Bool.and_true]
  · have hne : j ≠ bit.val := by omega
    rw [if_neg hne, BitVec.getLsbD_of_ge _ j (by omega), BitVec.getLsbD_of_ge _ j (by omega)]

theorem applyBit_ne_self (e : Word) (bit : Fin 64) : ∃ value, applyBit e bit value ≠ e := by
  cases hbit : e.getLsbD bit.val with
  | true =>
      refine ⟨0#32, fun heq => ?_⟩
      have h := congrArg (BitVec.getLsbD · bit.val) heq
      simp only [getLsbD_applyBit, if_true, hbit] at h
      revert h
      decide
  | false =>
      refine ⟨1#32, fun heq => ?_⟩
      have h := congrArg (BitVec.getLsbD · bit.val) heq
      simp only [getLsbD_applyBit, if_true, hbit] at h
      revert h
      decide

theorem update_applyBit_inj {m : Mem} {a t : Word} (bit : Fin 64)
    (h : ∀ value, Function.update m a (applyBit (m a) bit value)
      = Function.update m t (applyBit (m t) bit value)) : a = t := by
  by_contra hne
  obtain ⟨value, hvalue⟩ := applyBit_ne_self (m a) bit
  have ha := congrFun (h value) a
  rw [Function.update_self, Function.update_of_ne hne] at ha
  exact hvalue ha

/-! ### Pointers -/

theorem fetch_slot {m : Mem} {p : Word} (hp : PhysPage p) (i : Fin 512) :
    fetch m (slot p i) = some (m (slot p i)) := by
  obtain ⟨haligned, hlt⟩ := physPage_iff.mp hp
  have hi := i.isLt
  rw [fetch, toNat_slot hp.isPage, if_pos (by omega)]

/-- A pointer with a bit above 51 cannot be followed. -/
theorem fetch_slot_high {m : Mem} {e : Word} (h : ¬ e.toNat < 2 ^ 52) (i : Fin 512) :
    fetch m (slot (e &&& PAGE_MASK) i) = none := by
  have hp : IsPage (e &&& PAGE_MASK) := isPage_pageOf e
  have hpage : (e &&& PAGE_MASK).toNat = e.toNat / 4096 * 4096 := toNat_pageOf e
  rw [fetch, toNat_slot hp, hpage, if_neg (by omega)]

/-- Other pointers are followed as the processor follows them. -/
theorem and_PAGE_MASK {e : Word} (h : e.toNat < 2 ^ 52) : e &&& PAGE_MASK = e &&& PT_ADDR_MASK := by
  have hpage : (e &&& PAGE_MASK).toNat = e.toNat / 4096 * 4096 := toNat_pageOf e
  apply BitVec.eq_of_toNat_eq
  rw [hpage, PT_ADDR_MASK, toNat_and_addrMask]
  omega

theorem slot_eq_iff {p q : Word} (hp : IsPage p) (hq : IsPage q) {i j : Fin 512} :
    slot p i = slot q j ↔ p = q ∧ i = j := by
  constructor
  · intro h
    have hpq : p = q := by rw [← pageOf_slot hp i, h, pageOf_slot hq j]
    subst hpq
    exact ⟨rfl, slot_injective hp h⟩
  · rintro ⟨rfl, rfl⟩
    rfl

/-! ### The walk of a mapped address -/

section Walk

variable (m : Mem) (cr3 va : Word)

def pml4e : Word := m (slot cr3 (tableIndex 4 va))

def pdptOf : Word := pml4e m cr3 va &&& PT_ADDR_MASK

def pdpte : Word := m (slot (pdptOf m cr3 va) (tableIndex 3 va))

def pdOf : Word := pdpte m cr3 va &&& PT_ADDR_MASK

def pde : Word := m (slot (pdOf m cr3 va) (tableIndex 2 va))

def ptOf : Word := pde m cr3 va &&& PT_ADDR_MASK

/-- The entry of the PDPT that the function tests. -/
def probedEntry : Word := m (slot (pdptOf m cr3 va) (tableIndex 2 va))

end Walk

/-- The bit that marks a large page, in an entry of level 2 or 3. -/
def Large (e : Word) : Prop := e &&& PT_PAGE_SIZE_MASK ≠ 0#64

instance (e : Word) : Decidable (Large e) :=
  inferInstanceAs (Decidable (e &&& PT_PAGE_SIZE_MASK ≠ 0#64))

def HighClear (e : Word) : Prop := e.toNat < 2 ^ 52

instance (e : Word) : Decidable (HighClear e) := inferInstanceAs (Decidable (e.toNat < 2 ^ 52))

variable {m : Mem} {cr3 gva : Word} {level : PageLevel}

theorem physPage_pdptOf : PhysPage (pdptOf m cr3 gva) := physPage_and_mask _

theorem physPage_pdOf : PhysPage (pdOf m cr3 gva) := physPage_and_mask _

theorem physPage_ptOf : PhysPage (ptOf m cr3 gva) := physPage_and_mask _

/-- The function's way to its entry, with the pointers of the processor's walk. -/
theorem controlEntry_eq (hcr3 : PhysPage cr3) :
    controlEntry m cr3 gva level =
      if ¬ HighClear (pml4e m cr3 gva) then none
      else if Large (probedEntry m cr3 gva) ∧ (level = .PAGE_PDE ∨ level = .PAGE_PTE) then
        some (slot (pdptOf m cr3 gva) (tableIndex 3 gva))
      else if ¬ HighClear (pdpte m cr3 gva) then none
      else if Large (pde m cr3 gva) ∧ level = .PAGE_PTE then
        some (slot (pdOf m cr3 gva) (tableIndex 2 gva))
      else
        match level with
        | .PAGE_PML4 => some (slot cr3 (tableIndex 4 gva))
        | .PAGE_PDPTE => some (slot (pdptOf m cr3 gva) (tableIndex 3 gva))
        | .PAGE_PDE => some (slot (pdOf m cr3 gva) (tableIndex 2 gva))
        | .PAGE_PTE => some (slot (pde m cr3 gva &&& PAGE_MASK) (tableIndex 1 gva)) := by
  have hpml4e : m (slot cr3 (tableIndex 4 gva)) = pml4e m cr3 gva := rfl
  have hpdpt : pml4e m cr3 gva &&& PT_ADDR_MASK = pdptOf m cr3 gva := rfl
  have hpdpte : m (slot (pdptOf m cr3 gva) (tableIndex 3 gva)) = pdpte m cr3 gva := rfl
  have hpd : pdpte m cr3 gva &&& PT_ADDR_MASK = pdOf m cr3 gva := rfl
  have hprobed : ∀ e : Word, e &&& (1#64 <<< PAGE_PS_FLAG) ≠ 0#64 ↔ Large e := fun _ => Iff.rfl
  unfold controlEntry
  simp only [entryAddr_PGDIR_OFFSET, hprobed]
  rw [fetch_slot hcr3, Option.bind_some, hpml4e]
  by_cases h4 : HighClear (pml4e m cr3 gva)
  · rw [if_neg (not_not.mpr h4), and_PAGE_MASK h4, hpdpt, fetch_slot physPage_pdptOf,
      Option.bind_some, fetch_slot physPage_pdptOf, Option.bind_some, hpdpte]
    by_cases hredirect : Large (probedEntry m cr3 gva) ∧ (level = .PAGE_PDE ∨ level = .PAGE_PTE)
    · rw [if_pos hredirect]
      exact if_pos hredirect
    · rw [if_neg hredirect]
      refine (if_neg hredirect).trans ?_
      by_cases h3 : HighClear (pdpte m cr3 gva)
      · rw [if_neg (not_not.mpr h3), and_PAGE_MASK h3, hpd, fetch_slot physPage_pdOf,
          Option.bind_some]
        rfl
      · rw [if_pos h3, fetch_slot_high h3]
        rfl
  · rw [if_pos h4, fetch_slot_high h4]
    rfl

/-- A walk that ends in a leaf only meets present entries. -/
theorem present_of_isSome {l : Nat} {p va : Word} (h : (x86.eval x86Leaf m (l + 1) p va).isSome) :
    m (slot p (tableIndex (l + 1) va)) &&& PT_PRESENT_MASK ≠ 0#64 ∧
      ∀ c, x86Child (l + 1) (m (slot p (tableIndex (l + 1) va))) = some c →
        (x86.eval x86Leaf m l c va).isSome := by
  have hentry : x86.entry m (l + 1) p va = m (slot p (tableIndex (l + 1) va)) := rfl
  cases hc : x86Child (l + 1) (m (slot p (tableIndex (l + 1) va))) with
  | none =>
      rw [Layout.eval_none hc, hentry] at h
      refine ⟨fun habsent => ?_, fun c hcontra => absurd hcontra.symm (Option.some_ne_none c)⟩
      simp [x86Leaf, habsent] at h
  | some c =>
      rw [Layout.eval_some hc] at h
      refine ⟨fun habsent => ?_, fun c' hc' => ?_⟩
      · rw [x86Child_of_absent habsent] at hc
        exact absurd hc.symm (Option.some_ne_none c)
      · obtain rfl := Option.some.inj hc'
        exact (Option.isSome_map).symm.trans h

theorem x86Child_of_present {l : Nat} {e : Word}
    (hpresent : e &&& PT_PRESENT_MASK ≠ 0#64) (hl : l ≠ 1) (hsmall : l = 4 ∨ ¬ Large e) :
    x86Child l e = some (e &&& PT_ADDR_MASK) := by
  apply x86Child_of_pointer hpresent hl
  rintro ⟨hlevel, hlarge⟩
  rcases hsmall with rfl | hsmall
  · omega
  · exact hsmall hlarge

/-- The tables on the way of a mapped address. -/
structure Walk (m : Mem) (cr3 va : Word) : Prop where
  pdpt : x86Child 4 (pml4e m cr3 va) = some (pdptOf m cr3 va)
  pd : ¬ Large (pdpte m cr3 va) → x86Child 3 (pdpte m cr3 va) = some (pdOf m cr3 va)
  pt : ¬ Large (pdpte m cr3 va) → ¬ Large (pde m cr3 va) →
    x86Child 2 (pde m cr3 va) = some (ptOf m cr3 va)

theorem walk_of_present (h : WalkPresent m cr3 gva) : Walk m cr3 gva := by
  obtain ⟨h4, hbelow4⟩ := present_of_isSome (l := 3) h
  have hpdpt : x86Child 4 (pml4e m cr3 gva) = some (pdptOf m cr3 gva) :=
    x86Child_of_present h4 (by decide) (Or.inl rfl)
  obtain ⟨h3, hbelow3⟩ := present_of_isSome (hbelow4 _ hpdpt)
  have hpd : ¬ Large (pdpte m cr3 gva) → x86Child 3 (pdpte m cr3 gva) = some (pdOf m cr3 gva) :=
    fun hsmall => x86Child_of_present h3 (by decide) (Or.inr hsmall)
  refine ⟨hpdpt, hpd, fun hsmall3 hsmall2 => ?_⟩
  have h2 := (present_of_isSome (hbelow3 _ (hpd hsmall3))).1
  exact x86Child_of_present h2 (by decide) (Or.inr hsmall2)

namespace Walk

variable {k : Nat} (h : Walk m cr3 gva)

include h

theorem find_pdpte : x86.find m gva 3 PAGE_LEVEL cr3 =
    (3, slot (pdptOf m cr3 gva) (tableIndex 3 gva)) :=
  (Layout.find_some (by decide) h.pdpt).trans (Layout.find_top (Nat.le_refl 3))

theorem find_of_large (hk : k < 4) (hlarge : Large (pdpte m cr3 gva)) :
    x86.find m gva k PAGE_LEVEL cr3 = (3, slot (pdptOf m cr3 gva) (tableIndex 3 gva)) :=
  (Layout.find_some hk h.pdpt).trans (Layout.find_none (x86Child_of_large ⟨Or.inr rfl, hlarge⟩))

theorem find_pd (hk : k < 3) (hsmall : ¬ Large (pdpte m cr3 gva)) :
    x86.find m gva k PAGE_LEVEL cr3 = x86.find m gva k 2 (pdOf m cr3 gva) :=
  (Layout.find_some (by omega) h.pdpt).trans (Layout.find_some hk (h.pd hsmall))

theorem find_pde (hsmall : ¬ Large (pdpte m cr3 gva)) :
    x86.find m gva 2 PAGE_LEVEL cr3 = (2, slot (pdOf m cr3 gva) (tableIndex 2 gva)) :=
  (h.find_pd (by decide) hsmall).trans (Layout.find_top (Nat.le_refl 2))

theorem find_of_large_pde (hk : k < 3) (hsmall : ¬ Large (pdpte m cr3 gva))
    (hlarge : Large (pde m cr3 gva)) :
    x86.find m gva k PAGE_LEVEL cr3 = (2, slot (pdOf m cr3 gva) (tableIndex 2 gva)) :=
  (h.find_pd hk hsmall).trans (Layout.find_none (x86Child_of_large ⟨Or.inl rfl, hlarge⟩))

theorem find_pte (hsmall3 : ¬ Large (pdpte m cr3 gva)) (hsmall2 : ¬ Large (pde m cr3 gva)) :
    x86.find m gva 1 PAGE_LEVEL cr3 = (1, slot (ptOf m cr3 gva) (tableIndex 1 gva)) :=
  ((h.find_pd (by decide) hsmall3).trans
    (Layout.find_some (by decide) (h.pt hsmall3 hsmall2))).trans
    (Layout.find_top (Nat.le_refl 1))

end Walk

/-! ### The entry that is meant -/

/-- The address of the entry that the processor uses for the address at the requested level, or of
    the entry of the large page if the walk ends above that level. -/
def walkEntry (m : Mem) (cr3 va : Word) (level : PageLevel) : Word :=
  (x86.find m va level.num PAGE_LEVEL cr3).2

/-- What the tables must be like for the function to reach this entry. No pointer that it follows
    has one of the bits 63:52, and for the two lower levels the entry that it tests is marked as a
    large page just when the address lies in a page of 1G. The exception is an accident: the entry
    taken for that of the page directory names the PDPT as page table, and the same index is used in
    both. -/
def ReachesEntry (m : Mem) (cr3 gva : Word) (level : PageLevel) : Prop :=
  HighClear (pml4e m cr3 gva) ∧
    match level with
    | .PAGE_PML4 => HighClear (pdpte m cr3 gva)
    | .PAGE_PDPTE => HighClear (pdpte m cr3 gva)
    | .PAGE_PDE =>
        (Large (probedEntry m cr3 gva) ↔ Large (pdpte m cr3 gva)) ∧
          (¬ Large (probedEntry m cr3 gva) → HighClear (pdpte m cr3 gva))
    | .PAGE_PTE =>
        ((Large (probedEntry m cr3 gva) ↔ Large (pdpte m cr3 gva)) ∨
          ¬ Large (pde m cr3 gva) ∧ ptOf m cr3 gva = pdptOf m cr3 gva ∧
            tableIndex 1 gva = tableIndex 3 gva) ∧
          (¬ Large (probedEntry m cr3 gva) → HighClear (pdpte m cr3 gva) ∧
            (¬ Large (pde m cr3 gva) → HighClear (pde m cr3 gva)))

/-- A change that does not fault is a change of one word. -/
theorem setPageControlBit_eq_some_iff {bit : Fin 64} {value : BitVec 32} {m' : Mem}
    (hgva : gva ≠ 0#64) :
    setPageControlBit m cr3 gva level bit value = some m' ↔
      ∃ a, controlEntry m cr3 gva level = some a ∧ a.toNat < 2 ^ 52 ∧
        m' = Function.update m a (applyBit (m a) bit value) := by
  rw [setPageControlBit, if_neg hgva, Option.bind_eq_some_iff]
  refine exists_congr fun a => and_congr_right fun _ => ?_
  unfold changeBit fetch
  split_ifs with ha
  · rw [Option.map_some, Option.some.injEq, eq_comm, and_iff_right ha]
  · exact iff_of_false (Option.some_ne_none m').symm fun hand => ha hand.1

/-- The changes are right for every bit and value exactly if the right entry is picked. -/
theorem setPageControlBit_exact_iff_controlEntry (hgva : gva ≠ 0#64) (t : Word) :
    (∀ bit value, setPageControlBit m cr3 gva level bit value
        = some (Function.update m t (applyBit (m t) bit value)))
      ↔ controlEntry m cr3 gva level = some t ∧ t.toNat < 2 ^ 52 := by
  simp only [setPageControlBit_eq_some_iff hgva]
  constructor
  · intro h
    obtain ⟨a, hentry, ha, -⟩ := h 0 0#32
    have hat : a = t := update_applyBit_inj 0 fun value => by
      obtain ⟨a', hentry', -, hsame⟩ := h 0 value
      rw [hsame, Option.some.inj (hentry.symm.trans hentry')]
    exact ⟨hat ▸ hentry, hat ▸ ha⟩
  · rintro ⟨hentry, ht⟩ bit value
    exact ⟨t, hentry, ht, rfl⟩

theorem walkEntry_eq (h : Walk m cr3 gva) :
    walkEntry m cr3 gva level =
      match level with
      | .PAGE_PML4 => slot cr3 (tableIndex 4 gva)
      | .PAGE_PDPTE => slot (pdptOf m cr3 gva) (tableIndex 3 gva)
      | .PAGE_PDE =>
          if Large (pdpte m cr3 gva) then slot (pdptOf m cr3 gva) (tableIndex 3 gva)
          else slot (pdOf m cr3 gva) (tableIndex 2 gva)
      | .PAGE_PTE =>
          if Large (pdpte m cr3 gva) then slot (pdptOf m cr3 gva) (tableIndex 3 gva)
          else if Large (pde m cr3 gva) then slot (pdOf m cr3 gva) (tableIndex 2 gva)
          else slot (ptOf m cr3 gva) (tableIndex 1 gva) := by
  unfold walkEntry
  cases level with
  | PAGE_PML4 => exact congrArg Prod.snd (Layout.find_top (Nat.le_refl 4))
  | PAGE_PDPTE => exact congrArg Prod.snd h.find_pdpte
  | PAGE_PDE =>
      by_cases h3 : Large (pdpte m cr3 gva)
      · exact (congrArg Prod.snd (h.find_of_large (by decide) h3)).trans (if_pos h3).symm
      · exact (congrArg Prod.snd (h.find_pde h3)).trans (if_neg h3).symm
  | PAGE_PTE =>
      by_cases h3 : Large (pdpte m cr3 gva)
      · exact (congrArg Prod.snd (h.find_of_large (by decide) h3)).trans (if_pos h3).symm
      · refine Eq.trans ?_ (if_neg h3).symm
        by_cases h2 : Large (pde m cr3 gva)
        · exact (congrArg Prod.snd (h.find_of_large_pde (by decide) h3 h2)).trans (if_pos h2).symm
        · exact (congrArg Prod.snd (h.find_pte h3 h2)).trans (if_neg h2).symm

theorem slot_lt {p : Word} (hp : PhysPage p) (i : Fin 512) : (slot p i).toNat < 2 ^ 52 := by
  obtain ⟨haligned, hlt⟩ := physPage_iff.mp hp
  have hi := i.isLt
  rw [toNat_slot hp.isPage]
  omega

theorem walkEntry_lt (hcr3 : PhysPage cr3) (h : Walk m cr3 gva) :
    (walkEntry m cr3 gva level).toNat < 2 ^ 52 := by
  rw [walkEntry_eq h]
  cases level with
  | PAGE_PML4 => exact slot_lt hcr3 _
  | PAGE_PDPTE => exact slot_lt physPage_pdptOf _
  | PAGE_PDE =>
      show (ite _ _ _ : Word).toNat < 2 ^ 52
      split_ifs
      · exact slot_lt physPage_pdptOf _
      · exact slot_lt physPage_pdOf _
  | PAGE_PTE =>
      show (ite _ _ _ : Word).toNat < 2 ^ 52
      split_ifs
      · exact slot_lt physPage_pdptOf _
      · exact slot_lt physPage_pdOf _
      · exact slot_lt physPage_ptOf _

/-- The tested entry can only mislead if it is not the one of the address. -/
theorem index_ne_of_probed (h : ¬ (Large (probedEntry m cr3 gva) ↔ Large (pdpte m cr3 gva))) :
    tableIndex 2 gva ≠ tableIndex 3 gva := by
  intro heq
  apply h
  unfold probedEntry pdpte
  rw [heq]

/-- In that case no entry that it takes for the one of the page directory is the one of the PDPT. -/
theorem pdSlot_ne_pdptSlot (h : ¬ (Large (probedEntry m cr3 gva) ↔ Large (pdpte m cr3 gva))) :
    slot (pdOf m cr3 gva) (tableIndex 2 gva) ≠ slot (pdptOf m cr3 gva) (tableIndex 3 gva) := by
  intro heq
  exact index_ne_of_probed h ((slot_eq_iff physPage_pdOf.isPage physPage_pdptOf.isPage).mp heq).2

theorem ptSlot_eq_pdptSlot_iff :
    slot (ptOf m cr3 gva) (tableIndex 1 gva) = slot (pdptOf m cr3 gva) (tableIndex 3 gva) ↔
      ptOf m cr3 gva = pdptOf m cr3 gva ∧ tableIndex 1 gva = tableIndex 3 gva :=
  slot_eq_iff physPage_ptOf.isPage physPage_pdptOf.isPage

theorem ptSlot_ne_of_high {t : Word} (h : ¬ HighClear (pde m cr3 gva)) (ht : t.toNat < 2 ^ 52)
    (i : Fin 512) :
    slot (pde m cr3 gva &&& PAGE_MASK) i ≠ t := by
  rintro rfl
  have hfault := fetch_slot_high (m := m) h i
  rw [fetch, if_pos ht] at hfault
  exact absurd hfault (Option.some_ne_none _)

theorem controlEntry_eq_walkEntry_iff (hcr3 : PhysPage cr3) (h : Walk m cr3 gva) :
    controlEntry m cr3 gva level = some (walkEntry m cr3 gva level) ↔
      ReachesEntry m cr3 gva level := by
  rw [controlEntry_eq hcr3, walkEntry_eq h]
  unfold ReachesEntry
  by_cases h4 : HighClear (pml4e m cr3 gva)
  swap
  · simp [h4]
  rw [if_neg (not_not.mpr h4)]
  simp only [h4, true_and]
  cases level with
  | PAGE_PML4 => by_cases hp3 : HighClear (pdpte m cr3 gva) <;> simp [hp3]
  | PAGE_PDPTE => by_cases hp3 : HighClear (pdpte m cr3 gva) <;> simp [hp3]
  | PAGE_PDE =>
      by_cases hlp : Large (probedEntry m cr3 gva)
      · by_cases hl3 : Large (pdpte m cr3 gva)
        · simp [hlp, hl3]
        · simp [hlp, hl3, (pdSlot_ne_pdptSlot (mt (fun h => h.mp hlp) hl3)).symm]
      · by_cases hp3 : HighClear (pdpte m cr3 gva)
        · by_cases hl3 : Large (pdpte m cr3 gva)
          · simp [hlp, hp3, hl3, pdSlot_ne_pdptSlot (mt (fun h => h.mpr hl3) hlp)]
          · simp [hlp, hp3, hl3]
        · simp [hlp, hp3]
  | PAGE_PTE =>
      have hpdpt : (slot (pdptOf m cr3 gva) (tableIndex 3 gva)).toNat < 2 ^ 52 :=
        slot_lt physPage_pdptOf _
      have hpt : (slot (ptOf m cr3 gva) (tableIndex 1 gva)).toNat < 2 ^ 52 :=
        slot_lt physPage_ptOf _
      by_cases hlp : Large (probedEntry m cr3 gva)
      · by_cases hl3 : Large (pdpte m cr3 gva)
        · simp [hlp, hl3]
        · have hne := (pdSlot_ne_pdptSlot (mt (fun h => h.mp hlp) hl3)).symm
          by_cases hl2 : Large (pde m cr3 gva)
          · simp [hlp, hl3, hl2, hne]
          · rw [← ptSlot_eq_pdptSlot_iff, eq_comm (a := slot (ptOf m cr3 gva) _)]
            simp [hlp, hl3, hl2]
      · by_cases hp3 : HighClear (pdpte m cr3 gva)
        · by_cases hl3 : Large (pdpte m cr3 gva)
          · have hne := pdSlot_ne_pdptSlot (mt (fun h => h.mpr hl3) hlp)
            by_cases hl2 : Large (pde m cr3 gva)
            · simp [hlp, hp3, hl3, hl2, hne]
            · by_cases hp2 : HighClear (pde m cr3 gva)
              · rw [← ptSlot_eq_pdptSlot_iff, and_PAGE_MASK hp2]
                simp [hlp, hp3, hl3, hl2, hp2, ptOf]
              · simp [hlp, hp3, hl3, hl2, hp2, ptSlot_ne_of_high hp2 hpdpt]
          · by_cases hl2 : Large (pde m cr3 gva)
            · simp [hlp, hp3, hl3, hl2]
            · by_cases hp2 : HighClear (pde m cr3 gva)
              · rw [and_PAGE_MASK hp2]
                simp [hlp, hp3, hl3, hl2, hp2, ptOf]
              · simp [hlp, hp3, hl3, hl2, hp2, ptSlot_ne_of_high hp2 hpt]
        · simp [hlp, hp3]

/-- Every bit of the entry meant can be set and cleared, and nothing else changes, exactly if the
    tables let the function reach this entry. -/
theorem setPageControlBit_exact_iff (hcr3 : PhysPage cr3) (hgva : gva ≠ 0#64)
    (hmapped : IsMapped m cr3 gva) (level : PageLevel) :
    (∀ bit value, setPageControlBit m cr3 gva level bit value
        = some (Function.update m (walkEntry m cr3 gva level)
            (applyBit (m (walkEntry m cr3 gva level)) bit value)))
      ↔ ReachesEntry m cr3 gva level := by
  have hwalk := walk_of_present (isMapped_iff.mp hmapped).2
  rw [setPageControlBit_exact_iff_controlEntry hgva, ← controlEntry_eq_walkEntry_iff hcr3 hwalk]
  exact and_iff_left (walkEntry_lt hcr3 hwalk)

theorem setPageControlBit_exact_on_page :
    IsMapped onePageMem 0x1000#64 0x2000#64 ∧
      ∀ bit value, setPageControlBit onePageMem 0x1000#64 0x2000#64 .PAGE_PTE bit value
        = some (Function.update onePageMem (walkEntry onePageMem 0x1000#64 0x2000#64 .PAGE_PTE)
            (applyBit (onePageMem (walkEntry onePageMem 0x1000#64 0x2000#64 .PAGE_PTE))
              bit value)) :=
  ⟨onePageMem_mapped,
    (setPageControlBit_exact_iff (by decide) (by decide) onePageMem_mapped .PAGE_PTE).mpr
    ⟨by decide, Or.inl (by decide), fun _ => ⟨by decide, fun _ => by decide⟩⟩⟩

/-- A page of 1G at the second gigabyte and nothing else. -/
def gigaPageMem : Mem := fun a =>
  if a = 0x1000#64 then 0x2003#64 else if a = 0x2008#64 then 0x40000083#64 else 0#64

theorem gigaPageMem_sparse : ∀ a, a ∉ [0x1000#64, 0x2008#64] → gigaPageMem a = 0#64 := by
  intro a ha
  simp only [List.mem_cons, List.not_mem_nil, or_false, not_or] at ha
  simp [gigaPageMem, ha]

/-- **The slip**: the first entry of the PDPT, which is empty, is tested in place of the second one.
    The page of 1G is taken for a page directory, and the bit is set in the word at address 0. -/
theorem setPageControlBit_misses_giga_page :
    PageTable gigaPageMem 0x1000#64 ∧ IsMapped gigaPageMem 0x1000#64 0x40000000#64 ∧
      walkEntry gigaPageMem 0x1000#64 0x40000000#64 .PAGE_PTE = 0x2008#64 ∧
      setPageControlBit gigaPageMem 0x1000#64 0x40000000#64 .PAGE_PTE 3 1#32
        = some (Function.update gigaPageMem 0#64 8#64) := by
  refine ⟨?_, ?_, by decide, ?_⟩
  · exact (TreeIn.child 0 0x2000#64 gigaPageMem_sparse (by decide) (by decide) (by decide)
      (TreeIn.ends gigaPageMem_sparse (by decide) (by decide)) (by decide)).wf
  · unfold IsMapped
    decide
  · have hentry : controlEntry gigaPageMem 0x1000#64 0x40000000#64 .PAGE_PTE = some 0#64 := by
      decide +kernel
    rw [setPageControlBit, if_neg (by decide), hentry]
    rfl

end AcrnGuest
