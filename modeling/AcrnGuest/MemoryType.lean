import AcrnGuest.PageControl

/-!
# Memory types in page-table entries (`set_memory_type_pt`, `lib/x86/memory_type.c`)

The function goes through a range in steps of 4K and writes the bits PWT, PCD and PAT of
the leaf entry of each page with `set_page_control_bit`. It goes wrong in three ways besides
those of `set_page_control_bit`.

* The position of the PAT bit is kept from one page to the next. Once a large page has been
  met, the bit 12 of the later 4K entries is written, which belongs to their address.
* The loop counter is an `int` and becomes negative after 2G. Compared with the size, a
  negative counter is a huge one, and the loop ends.
* `set_page_control_bit` refuses the null pointer, so the page at address 0 is left out.
-/

namespace AcrnGuest

open Radix

/-! ### The source -/

def PT_PWT : Fin 64 := 3
def PT_PCD : Fin 64 := 4
def PT_PAT : Fin 64 := 7
def PT_PAT_LARGE_PAGE : Fin 64 := 12

def PT_PWT_MASK : Word := 1#64 <<< PT_PWT.val
def PT_PCD_MASK : Word := 1#64 <<< PT_PCD.val
def PT_PAT_MASK : Word := 1#64 <<< PT_PAT.val

/-- `PT_MEMORY_TYPE_MASK0` to `PT_MEMORY_TYPE_MASK7`. -/
def PT_MEMORY_TYPE_MASK : Fin 8 → Word
  | 0 => 0#64
  | 1 => PT_PWT_MASK
  | 2 => PT_PCD_MASK
  | 3 => PT_PWT_MASK ||| PT_PCD_MASK
  | 4 => PT_PAT_MASK
  | 5 => PT_PAT_MASK ||| PT_PWT_MASK
  | 6 => PT_PAT_MASK ||| PT_PCD_MASK
  | 7 => PT_PAT_MASK ||| PT_PCD_MASK ||| PT_PWT_MASK

/-- The values that the branches of the `switch` write to PWT, PCD and PAT, or `none` for the
    message about an unknown type. -/
def typeValues (type : Word) : Option (BitVec 32 × BitVec 32 × BitVec 32) :=
  if type = PT_MEMORY_TYPE_MASK 0 then some (0#32, 0#32, 0#32)
  else if type = PT_MEMORY_TYPE_MASK 1 then some (1#32, 0#32, 0#32)
  else if type = PT_MEMORY_TYPE_MASK 2 then some (0#32, 1#32, 0#32)
  else if type = PT_MEMORY_TYPE_MASK 3 then some (1#32, 1#32, 0#32)
  else if type = PT_MEMORY_TYPE_MASK 4 then some (0#32, 0#32, 1#32)
  else if type = PT_MEMORY_TYPE_MASK 5 then some (1#32, 0#32, 1#32)
  else if type = PT_MEMORY_TYPE_MASK 6 then some (0#32, 1#32, 1#32)
  else if type = PT_MEMORY_TYPE_MASK 7 then some (1#32, 1#32, 1#32)
  else none

def setTypeBits (m : Mem) (cr3 nextAddr type : Word) (pat : Fin 64) : Option Mem :=
  match typeValues type with
  | some (pwtValue, pcdValue, patValue) =>
      (setPageControlBit m cr3 nextAddr .PAGE_PTE PT_PWT pwtValue).bind fun m =>
      (setPageControlBit m cr3 nextAddr .PAGE_PTE PT_PCD pcdValue).bind fun m =>
      setPageControlBit m cr3 nextAddr .PAGE_PTE pat patValue
  | none => some m

/-- The variables of the loop that are read again. -/
structure TypeLoop where
  i : BitVec 32
  pat : Fin 64
  mem : Mem

def setMemoryTypePtStep (cr3 address type size : Word) (st : TypeLoop) : TypeLoop ⊕ Option Mem :=
  -- the comparison and the sum convert the `int` to an unsigned 64-bit value
  if ¬ st.i.signExtend 64 < size then .inr (some st.mem)
  else
    let nextAddr := address + st.i.signExtend 64
    let ptep := getPteLevel st.mem cr3 nextAddr 1
    let pat := if ptep = none then PT_PAT_LARGE_PAGE else st.pat
    (setTypeBits st.mem cr3 nextAddr type pat).elim (.inr none) fun mem =>
      .inl ⟨(st.i.signExtend 64 + PAGE_SIZE).setWidth 32, pat, mem⟩

/-- `set_memory_type_pt`. The result is `none` after a fault. -/
def setMemoryTypePt (m : Mem) (cr3 address type size : Word) : Option Mem :=
  (Loop.run (setMemoryTypePtStep cr3 address type size) LOOP_BOUND ⟨0#32, PT_PAT, m⟩).join

/-! ### What it is for -/

/-- The bit of the index that belongs in bit `b` of an entry. -/
def typeBit (idx : Fin 8) (b : Nat) : Bool :=
  if b = PT_PWT.val then idx.val.testBit 0
  else if b = PT_PCD.val then idx.val.testBit 1
  else idx.val.testBit 2

def patBit (level : Nat) : Nat := if level = 1 then PT_PAT.val else PT_PAT_LARGE_PAGE.val

def walkLevel (m : Mem) (cr3 va : Word) : Nat := (x86.find m va 1 PAGE_LEVEL cr3).1

/-- The address of the entry at which it ends. -/
def leafEntry (m : Mem) (cr3 va : Word) : Word := walkEntry m cr3 va .PAGE_PTE

def inRange (address : Word) (i : Nat) : Word := address + BitVec.ofNat 64 i

/-- The range is mapped by pages of 4K and 2M. -/
def RangeMapped (m : Mem) (cr3 address size : Word) : Prop :=
  ∀ i, i < size.toNat → IsMapped m cr3 (inRange address i) ∧
    (walkLevel m cr3 (inRange address i) = 1 ∨ walkLevel m cr3 (inRange address i) = 2)

/-- The leaves of the range in `m'` encode the index, and nothing else differs from `m`. -/
structure Encodes (m m' : Mem) (cr3 address size : Word) (idx : Fin 8) : Prop where
  leaf : ∀ i, i < size.toNat → ∀ b,
    (m' (leafEntry m cr3 (inRange address i))).getLsbD b =
      if b = PT_PWT.val ∨ b = PT_PCD.val ∨
        b = patBit (walkLevel m cr3 (inRange address i)) then typeBit idx b
      else (m (leafEntry m cr3 (inRange address i))).getLsbD b
  frame : ∀ a, (∀ i, i < size.toNat → a ≠ leafEntry m cr3 (inRange address i)) → m' a = m a
  translation : ∀ va, translate m' cr3 va = translate m cr3 va

/-! ### The writes for one index -/

def typeValue (idx : Fin 8) (b : Nat) : BitVec 32 := if typeBit idx b then 1#32 else 0#32

theorem decide_typeValue (idx : Fin 8) (b : Nat) :
    decide (typeValue idx b = 1#32) = typeBit idx b := by
  unfold typeValue
  cases typeBit idx b <;> decide

theorem typeValues_mask : ∀ idx, typeValues (PT_MEMORY_TYPE_MASK idx) =
    some (typeValue idx PT_PWT.val, typeValue idx PT_PCD.val, typeValue idx PT_PAT.val) := by
  decide

theorem typeValue_pat {pat : Fin 64} (h : pat = PT_PAT ∨ pat = PT_PAT_LARGE_PAGE) (idx : Fin 8) :
    typeValue idx PT_PAT.val = typeValue idx pat.val := by
  rcases h with rfl | rfl <;> rfl

variable {m m' : Mem} {cr3 address size v : Word} {idx : Fin 8} {pat : Fin 64}

theorem setTypeBits_mask (h : pat = PT_PAT ∨ pat = PT_PAT_LARGE_PAGE) (m : Mem) (cr3 v : Word)
    (idx : Fin 8) :
    setTypeBits m cr3 v (PT_MEMORY_TYPE_MASK idx) pat =
      (setPageControlBit m cr3 v .PAGE_PTE PT_PWT (typeValue idx PT_PWT.val)).bind fun m =>
      (setPageControlBit m cr3 v .PAGE_PTE PT_PCD (typeValue idx PT_PCD.val)).bind fun m =>
      setPageControlBit m cr3 v .PAGE_PTE pat (typeValue idx pat.val) := by
  rw [setTypeBits, typeValues_mask, ← typeValue_pat h]

/-! ### The loop counter -/

/-- The number of pages visited: a counter of 2G is a negative `int`. -/
def visits (size : Word) : Nat := min ((size.toNat + 4095) / 4096) (2 ^ 19)

def pageAt (address : Word) (k : Nat) : Word := inRange address (4096 * k)

def visitPage (cr3 address type : Word) (k : Nat) (st : Fin 64 × Mem) : Option (Fin 64 × Mem) :=
  let pat := if getPteLevel st.2 cr3 (pageAt address k) 1 = none then PT_PAT_LARGE_PAGE else st.1
  (setTypeBits st.2 cr3 (pageAt address k) type pat).map fun mem => (pat, mem)

theorem signExtend_counter {k : Nat} (hk : k < 2 ^ 19) :
    (BitVec.ofNat 32 (4096 * k)).signExtend 64 = BitVec.ofNat 64 (4096 * k) := by
  have hlt : 4096 * k < 2 ^ 31 := by omega
  have hmsb : (BitVec.ofNat 32 (4096 * k)).msb = false := by
    rw [BitVec.msb_eq_decide, BitVec.toNat_ofNat]
    exact decide_eq_false (by omega)
  apply BitVec.eq_of_toNat_eq
  rw [BitVec.signExtend_eq_setWidth_of_msb_false hmsb, BitVec.toNat_setWidth, BitVec.toNat_ofNat,
    BitVec.toNat_ofNat]
  omega

theorem counter_lt_iff {k : Nat} (hk : k < 2 ^ 19) :
    (BitVec.ofNat 32 (4096 * k)).signExtend 64 < size ↔ 4096 * k < size.toNat := by
  rw [signExtend_counter hk, BitVec.lt_def, BitVec.toNat_ofNat, Nat.mod_eq_of_lt (by omega)]

/-- The counter after 2G is greater than every size that can be mapped. -/
theorem counter_wraps (hsize : size.toNat ≤ 2 ^ 48) :
    ¬ (BitVec.ofNat 32 (4096 * 2 ^ 19)).signExtend 64 < size := by
  have hneg : ((BitVec.ofNat 32 (4096 * 2 ^ 19)).signExtend 64).toNat = 2 ^ 64 - 2 ^ 31 := by decide
  rw [BitVec.lt_def, hneg]
  omega

theorem next_counter {k : Nat} (hk : k < 2 ^ 19) :
    ((BitVec.ofNat 32 (4096 * k)).signExtend 64 + PAGE_SIZE).setWidth 32 =
      BitVec.ofNat 32 (4096 * (k + 1)) := by
  have hpage : PAGE_SIZE.toNat = 4096 := by decide
  apply BitVec.eq_of_toNat_eq
  rw [signExtend_counter hk, BitVec.toNat_setWidth, BitVec.toNat_add, hpage, BitVec.toNat_ofNat,
    BitVec.toNat_ofNat]
  omega

/-- **The loop** visits the pages in turn until the range or the counter ends. -/
theorem setMemoryTypePt_eq (m : Mem) (cr3 address type : Word) (hsize : size.toNat ≤ 2 ^ 48) :
    setMemoryTypePt m cr3 address type size =
      (Loop.tryUp (visitPage cr3 address type) (visits size) (PT_PAT, m)).map Prod.snd := by
  have hstep : ∀ k (st : Fin 64 × Mem), k < visits size →
      setMemoryTypePtStep cr3 address type size ⟨BitVec.ofNat 32 (4096 * k), st.1, st.2⟩ =
        (visitPage cr3 address type k st).elim (Sum.inr none) fun st' =>
          Sum.inl ⟨BitVec.ofNat 32 (4096 * (k + 1)), st'.1, st'.2⟩ := by
    intro k st hk
    unfold visits at hk
    have hcounter : k < 2 ^ 19 := by omega
    have hnext : address + (BitVec.ofNat 32 (4096 * k)).signExtend 64 = pageAt address k := by
      rw [signExtend_counter hcounter, pageAt, inRange]
    rw [setMemoryTypePtStep, if_neg (not_not.mpr ((counter_lt_iff hcounter).mpr (by omega)))]
    simp only [hnext, next_counter hcounter, visitPage]
    cases setTypeBits st.2 cr3 (pageAt address k) type
      (if getPteLevel st.2 cr3 (pageAt address k) 1 = none then PT_PAT_LARGE_PAGE else st.1) <;> rfl
  have hend : ∀ st : Fin 64 × Mem,
      setMemoryTypePtStep cr3 address type size ⟨BitVec.ofNat 32 (4096 * visits size), st.1, st.2⟩ =
        Sum.inr (some st.2) := by
    intro st
    refine if_pos ?_
    unfold visits
    by_cases hcounter : (size.toNat + 4095) / 4096 < 2 ^ 19
    · rw [Nat.min_eq_left (Nat.le_of_lt hcounter), counter_lt_iff hcounter]
      omega
    · rw [Nat.min_eq_right (Nat.le_of_not_lt hcounter)]
      exact counter_wraps hsize
  have hrun := Loop.run_eq_tryUp (visitPage cr3 address type)
    (fun k st => (⟨BitVec.ofNat 32 (4096 * k), st.1, st.2⟩ : TypeLoop)) Prod.snd hstep hend
    (s := (PT_PAT, m)) (by unfold visits LOOP_BOUND; omega : visits size < LOOP_BOUND)
  exact congrArg Option.join hrun

/-! ### Changes that no walk notices -/

theorem one_shiftLeft_ne_zero : ∀ b : Fin 64, (1#64 : Word) <<< b.val ≠ 0#64 := by decide

theorem and_bit_eq_zero_iff (e : Word) (b : Fin 64) : e &&& (1#64 <<< b.val) = 0#64 ↔
    e.getLsbD b.val = false := by
  have hand : e &&& (1#64 <<< b.val) = if e.getLsbD b.val then 1#64 <<< b.val else 0#64 :=
    BitVec.and_twoPow e b.val
  rw [hand]
  cases e.getLsbD b.val with
  | true => simp [one_shiftLeft_ne_zero b]
  | false => simp

theorem present_iff (e : Word) : e &&& PT_PRESENT_MASK = 0#64 ↔ e.getLsbD 0 = false :=
  and_bit_eq_zero_iff e 0

theorem large_iff (e : Word) : Large e ↔ e.getLsbD 7 = true := by
  rw [Large, Ne, show PT_PAGE_SIZE_MASK = 1#64 <<< (7 : Fin 64).val from rfl, and_bit_eq_zero_iff,
    Bool.not_eq_false]
  rfl

theorem x86Child_eq_none_iff (level : Nat) (e : Word) :
    x86Child level e = none ↔
      e.getLsbD 0 = false ∨ level = 1 ∨ (level = 2 ∨ level = 3) ∧ e.getLsbD 7 = true := by
  rw [← present_iff, ← large_iff, Large]
  unfold x86Child
  split_ifs with habsent hone hlarge
  · simp [habsent]
  · simp [hone]
  · exact iff_of_true rfl (Or.inr (Or.inr hlarge))
  · simp [habsent, hone, hlarge]

theorem exists_bit_ne {x y : Word} (h : x ≠ y) : ∃ b, x.getLsbD b ≠ y.getLsbD b := by
  by_contra hsame
  push Not at hsame
  exact h (BitVec.eq_of_getLsbD_eq fun b _ => hsame b)

theorem walkLevel_of_same_table {va va' p : Word} {k l : Nat} (htable : PageTable m cr3)
    (hfind : x86.find m va k PAGE_LEVEL cr3 = (l, p))
    (hpage : pageOf (leafEntry m cr3 va') = pageOf p) :
    walkLevel m cr3 va' = l := by
  have hlevel : (x86.find m va' 1 PAGE_LEVEL cr3).1 = (x86.find m va k PAGE_LEVEL cr3).1 :=
    Layout.WF.find_level_eq htable (hpage.trans (congrArg (fun f => pageOf f.2) hfind).symm)
  rw [walkLevel, hlevel, hfind]

theorem walkLevel_eq_of_leafEntry {va va' : Word} (htable : PageTable m cr3)
    (h : leafEntry m cr3 va = leafEntry m cr3 va') : walkLevel m cr3 va = walkLevel m cr3 va' :=
  walkLevel_of_same_table htable (rfl : x86.find m va' 1 PAGE_LEVEL cr3 =
    (walkLevel m cr3 va', leafEntry m cr3 va'))
    (congrArg pageOf h)

/-- The bits that the function writes in an entry of the given level. -/
def TypePosition (level b : Nat) : Prop :=
  level = 1 ∧ (b = 3 ∨ b = 4 ∨ b = 7 ∨ b = 12) ∨ level = 2 ∧ (b = 3 ∨ b = 4 ∨ b = 12)

/-- The memory `m'` differs from `m` only in such bits of leaves. -/
def Tweaked (m m' : Mem) (cr3 : Word) : Prop :=
  ∀ a b, (m' a).getLsbD b ≠ (m a).getLsbD b →
    ∃ va, leafEntry m cr3 va = a ∧ TypePosition (walkLevel m cr3 va) b

namespace Tweaked

variable {a va p c : Word} {b k l : Nat}

variable (h : Tweaked m m' cr3) (htable : PageTable m cr3)
  (hfind : x86.find m va k PAGE_LEVEL cr3 = (l, p))

include h htable hfind

/-- Changed bits are in tables of the two lowest levels. -/
theorem position (hpage : pageOf a = pageOf p) (hne : (m' a).getLsbD b ≠ (m a).getLsbD b) :
    TypePosition l b := by
  obtain ⟨va', rfl, hposition⟩ := h a b hne
  rwa [walkLevel_of_same_table htable hfind hpage] at hposition

theorem unchanged (hl : 3 ≤ l) (hpage : pageOf a = pageOf p) : m' a = m a := by
  by_contra hne
  obtain ⟨b, hb⟩ := exists_bit_ne hne
  rcases h.position htable hfind hpage hb with ⟨hone, -⟩ | ⟨htwo, -⟩ <;> omega

/-- An entry that a walk passes through is as before. -/
theorem pointer_eq (hc : x86Child l (m p) = some c) : m' p = m p := by
  by_contra hne
  obtain ⟨b, hb⟩ := exists_bit_ne hne
  obtain ⟨va', hentry, -⟩ := h p b hb
  have hend : x86Child (walkLevel m cr3 va') (m (leafEntry m cr3 va')) = none :=
    Layout.child_find_one x86 m va' 3 cr3
  rw [walkLevel_of_same_table htable hfind (congrArg pageOf hentry), hentry, hc] at hend
  exact absurd hend (Option.some_ne_none c)

theorem bit_eq (hb : b ≠ 3 ∧ b ≠ 4 ∧ b ≠ 12) (hl : b ≠ 7 ∨ l ≠ 1) :
    (m' p).getLsbD b = (m p).getLsbD b := by
  by_contra hne
  rcases h.position htable hfind rfl hne with ⟨hone, hposition⟩ | ⟨htwo, hposition⟩ <;> omega

theorem child_eq : x86Child l (m' p) = x86Child l (m p) := by
  cases hc : x86Child l (m p) with
  | some c => rw [h.pointer_eq htable hfind hc, hc]
  | none =>
      by_cases hone : l = 1
      · rw [hone, x86Child_one]
      · -- the bits that make an entry absent or large are as before
        rw [x86Child_eq_none_iff] at hc ⊢
        rwa [h.bit_eq htable hfind (by omega) (Or.inl (by omega)),
          h.bit_eq htable hfind (by omega) (Or.inr hone)]

omit hfind

theorem find_eq (va : Word) (k : Nat) :
    x86.find m' va k PAGE_LEVEL cr3 = x86.find m va k PAGE_LEVEL cr3 :=
  Layout.find_congr fun _ => h.child_eq htable rfl

end Tweaked

/-! ### The entry that is picked -/

section Picked

variable (h : Tweaked m m' cr3) (htable : PageTable m cr3)

include h htable

theorem Tweaked.pml4e_eq : pml4e m' cr3 v = pml4e m cr3 v :=
  h.unchanged htable (Layout.find_top (Nat.le_refl 4) : x86.find m v 4 PAGE_LEVEL cr3 = _)
    (by decide) rfl

theorem Tweaked.pdptOf_eq : pdptOf m' cr3 v = pdptOf m cr3 v :=
  congrArg (· &&& PT_ADDR_MASK) (h.pml4e_eq htable)

variable (hwalk : Walk m cr3 v)

include hwalk

theorem Tweaked.pdpt_slot_eq (i : Fin 512) :
    m' (slot (pdptOf m' cr3 v) i) = m (slot (pdptOf m cr3 v) i) := by
  rw [h.pdptOf_eq htable]
  refine h.unchanged htable hwalk.find_pdpte (Nat.le_refl 3) ?_
  rw [pageOf_slot physPage_pdptOf.isPage, pageOf_slot physPage_pdptOf.isPage]

theorem Tweaked.pdOf_eq : pdOf m' cr3 v = pdOf m cr3 v :=
  congrArg (· &&& PT_ADDR_MASK) (h.pdpt_slot_eq htable hwalk _)

variable (hsmall : ¬ Large (pdpte m cr3 v))

include hsmall

theorem Tweaked.pde_large_iff : Large (pde m' cr3 v) ↔ Large (pde m cr3 v) := by
  rw [large_iff, large_iff, pde, h.pdOf_eq htable hwalk,
    h.bit_eq htable (hwalk.find_pde hsmall) (by omega) (Or.inr (by omega))]
  rfl

theorem Tweaked.pde_eq (hpointer : ¬ Large (pde m cr3 v)) : pde m' cr3 v = pde m cr3 v := by
  rw [pde, h.pdOf_eq htable hwalk]
  exact h.pointer_eq htable (hwalk.find_pde hsmall) (hwalk.pt hsmall hpointer)

/-- The function picks the same entry as before the changes. -/
theorem Tweaked.controlEntry_pte_eq (hcr3 : PhysPage cr3) :
    controlEntry m' cr3 v .PAGE_PTE = controlEntry m cr3 v .PAGE_PTE := by
  have hprobed : probedEntry m' cr3 v = probedEntry m cr3 v := h.pdpt_slot_eq htable hwalk _
  have hpdpte : pdpte m' cr3 v = pdpte m cr3 v := h.pdpt_slot_eq htable hwalk _
  rw [controlEntry_eq hcr3, controlEntry_eq hcr3, h.pml4e_eq htable, hprobed, hpdpte,
    h.pdptOf_eq htable, h.pdOf_eq htable hwalk]
  by_cases hlarge : Large (pde m cr3 v)
  · simp [hlarge, (h.pde_large_iff htable hwalk hsmall).mpr hlarge]
  · rw [h.pde_eq htable hwalk hsmall hlarge]

end Picked

/-! ### One page -/

def encodeEntry (e : Word) (idx : Fin 8) (pat : Fin 64) : Word :=
  applyBit (applyBit (applyBit e PT_PWT (typeValue idx PT_PWT.val)) PT_PCD
    (typeValue idx PT_PCD.val)) pat
    (typeValue idx pat.val)

theorem getLsbD_encodeEntry (e : Word) (idx : Fin 8) (pat : Fin 64) (b : Nat) :
    (encodeEntry e idx pat).getLsbD b =
      if b = PT_PWT.val ∨ b = PT_PCD.val ∨ b = pat.val then typeBit idx b else e.getLsbD b := by
  simp only [encodeEntry, getLsbD_applyBit, decide_typeValue]
  by_cases hpat : b = pat.val
  · rw [if_pos hpat, if_pos (Or.inr (Or.inr hpat)), hpat]
  · rw [if_neg hpat]
    by_cases hpcd : b = PT_PCD.val
    · rw [if_pos hpcd, if_pos (Or.inr (Or.inl hpcd)), hpcd]
    · rw [if_neg hpcd]
      by_cases hpwt : b = PT_PWT.val
      · rw [if_pos hpwt, if_pos (Or.inl hpwt), hpwt]
      · rw [if_neg hpwt, if_neg (by tauto)]

theorem Tweaked.update {mem : Mem} (h : Tweaked m mem cr3) {va : Word} {bit : Fin 64}
    (value : BitVec 32) (hposition : TypePosition (walkLevel m cr3 va) bit.val) :
    Tweaked m (Function.update mem (leafEntry m cr3 va)
      (applyBit (mem (leafEntry m cr3 va)) bit value)) cr3 := by
  intro a b hne
  by_cases ha : a = leafEntry m cr3 va
  · rw [ha, Function.update_self, getLsbD_applyBit] at hne
    split_ifs at hne with hb
    · exact ⟨va, ha.symm, hb ▸ hposition⟩
    · exact h a b (ha ▸ hne)
  · rw [Function.update_of_ne ha] at hne
    exact h a b hne

theorem walk_of_mapped (hmapped : IsMapped m cr3 v) : Walk m cr3 v :=
  walk_of_present (isMapped_iff.mp hmapped).2

/-- A page of 4K or 2M of a well-formed table. -/
structure SmallPage (m : Mem) (cr3 v : Word) : Prop where
  table : PageTable m cr3
  root : PhysPage cr3
  mapped : IsMapped m cr3 v
  level : walkLevel m cr3 v = 1 ∨ walkLevel m cr3 v = 2

namespace SmallPage

variable {mem mem' : Mem} (hv : SmallPage m cr3 v) (h : Tweaked m mem cr3)

include hv

theorem not_large : ¬ Large (pdpte m cr3 v) := by
  intro hlarge
  have hthree : walkLevel m cr3 v = 3 := by
    rw [walkLevel, (walk_of_mapped hv.mapped).find_of_large (by decide) hlarge]
  have := hv.level
  omega

include h

theorem getPteLevel_eq_none_iff : getPteLevel mem cr3 v 1 = none ↔ walkLevel m cr3 v ≠ 1 := by
  rw [getPteLevel, findPteLevel_one, Option.bind_some, show PAGE_LEVEL = 3 + 1 from rfl,
    findPteLoop_find, show 3 + 1 = PAGE_LEVEL from rfl, h.find_eq hv.table]
  simp [walkLevel]

theorem controlEntry_eq_of_tweaked :
    controlEntry mem cr3 v .PAGE_PTE = controlEntry m cr3 v .PAGE_PTE :=
  h.controlEntry_pte_eq hv.table (walk_of_mapped hv.mapped) hv.not_large hv.root

/-- **One bit.** -/
theorem setPageControlBit_eq (hv0 : v ≠ 0#64) (hreach : ReachesEntry m cr3 v .PAGE_PTE)
    (bit : Fin 64) (value : BitVec 32) :
    setPageControlBit mem cr3 v .PAGE_PTE bit value =
      some (Function.update mem (leafEntry m cr3 v)
        (applyBit (mem (leafEntry m cr3 v)) bit value)) := by
  have hwalk := walk_of_mapped hv.mapped
  refine (setPageControlBit_eq_some_iff hv0).mpr
    ⟨leafEntry m cr3 v, ?_, walkEntry_lt hv.root hwalk, rfl⟩
  rw [hv.controlEntry_eq_of_tweaked h]
  exact (controlEntry_eq_walkEntry_iff hv.root hwalk).mpr hreach

/-- **The three bits of a page**, in the entry that is meant. -/
theorem setTypeBits_eq (hv0 : v ≠ 0#64) (hreach : ReachesEntry m cr3 v .PAGE_PTE)
    (hpat : pat = PT_PAT ∧ walkLevel m cr3 v = 1 ∨ pat = PT_PAT_LARGE_PAGE) (idx : Fin 8) :
    setTypeBits mem cr3 v (PT_MEMORY_TYPE_MASK idx) pat =
      some (Function.update mem (leafEntry m cr3 v)
        (encodeEntry (mem (leafEntry m cr3 v)) idx pat)) := by
  have hposition : ∀ bit : Fin 64, bit = PT_PWT ∨ bit = PT_PCD →
      TypePosition (walkLevel m cr3 v) bit.val := by
    rintro bit hbit
    unfold TypePosition
    rcases hv.level with hone | htwo
    · rcases hbit with rfl | rfl
      · exact Or.inl ⟨hone, Or.inl rfl⟩
      · exact Or.inl ⟨hone, Or.inr (Or.inl rfl)⟩
    · rcases hbit with rfl | rfl
      · exact Or.inr ⟨htwo, Or.inl rfl⟩
      · exact Or.inr ⟨htwo, Or.inr (Or.inl rfl)⟩
  have h₁ := h.update (typeValue idx PT_PWT.val) (hposition PT_PWT (Or.inl rfl))
  have h₂ := h₁.update (typeValue idx PT_PCD.val) (hposition PT_PCD (Or.inr rfl))
  rw [setTypeBits_mask (hpat.imp_left And.left), hv.setPageControlBit_eq h hv0 hreach,
    Option.bind_some, hv.setPageControlBit_eq h₁ hv0 hreach, Option.bind_some,
    hv.setPageControlBit_eq h₂ hv0 hreach]
  simp only [Function.update_self, Function.update_idem, encodeEntry]

end SmallPage

theorem setTypeBits_null (h : pat = PT_PAT ∨ pat = PT_PAT_LARGE_PAGE) (mem : Mem) (cr3 : Word)
    (idx : Fin 8) :
    setTypeBits mem cr3 0#64 (PT_MEMORY_TYPE_MASK idx) pat = some mem := by
  have hnull : ∀ (mem : Mem) bit value,
      setPageControlBit mem cr3 0#64 .PAGE_PTE bit value = some mem :=
    fun _ _ _ => if_pos rfl
  rw [setTypeBits_mask h, hnull, Option.bind_some, hnull, Option.bind_some, hnull]

/-! ### A page whose entry is not reached -/

/-- If another word is changed then it is the entry of the PDPT. -/
theorem controlEntry_of_not_reaches (hv : SmallPage m cr3 v)
    (hreach : ¬ ReachesEntry m cr3 v .PAGE_PTE) {c : Word}
    (hentry : controlEntry m cr3 v .PAGE_PTE = some c) (hc : c.toNat < 2 ^ 52) :
    c = slot (pdptOf m cr3 v) (tableIndex 3 v) := by
  have hwalk := walk_of_mapped hv.mapped
  have hne : controlEntry m cr3 v .PAGE_PTE ≠ some (leafEntry m cr3 v) :=
    fun heq => hreach ((controlEntry_eq_walkEntry_iff hv.root hwalk).mp heq)
  have hleaf : leafEntry m cr3 v = if Large (pde m cr3 v) then slot (pdOf m cr3 v) (tableIndex 2 v)
      else slot (ptOf m cr3 v) (tableIndex 1 v) := (walkEntry_eq hwalk).trans (if_neg hv.not_large)
  rw [hentry, hleaf] at hne
  rw [controlEntry_eq hv.root] at hentry
  split_ifs at hentry with h4 hlp h3 hl2
  · exact (Option.some.inj hentry).symm
  · rw [if_pos hl2.1] at hne
    exact absurd hentry.symm hne
  · have hl2' : ¬ Large (pde m cr3 v) := fun hlarge => hl2 ⟨hlarge, rfl⟩
    rw [if_neg hl2'] at hne
    by_cases h2 : HighClear (pde m cr3 v)
    · rw [and_PAGE_MASK h2] at hentry
      exact absurd hentry.symm hne
    · exact absurd (Option.some.inj hentry) (ptSlot_ne_of_high h2 hc _)

/-- The bit in the given place has the value that belongs to the index. -/
def Settled (idx : Fin 8) (mem : Mem) (a : Word) (b : Nat) : Prop :=
  (mem a).getLsbD b = typeBit idx b

theorem Settled.update {mem : Mem} {a c : Word} {b : Nat} {bit : Fin 64}
    (h : Settled idx mem a b ∨ a = c ∧ b = bit.val) :
    Settled idx (Function.update mem c (applyBit (mem c) bit (typeValue idx bit.val))) a b := by
  unfold Settled
  by_cases ha : a = c
  · rw [ha, Function.update_self, getLsbD_applyBit, decide_typeValue]
    split_ifs with hb
    · rw [hb]
    · rcases h with h | ⟨-, hb'⟩
      · exact ha ▸ h
      · exact absurd hb' hb
  · rw [Function.update_of_ne ha]
    exact h.resolve_right fun hplace => ha hplace.1

/-- No write for the index unsettles a bit, wherever it goes. -/
theorem Settled.setPageControlBit {mem mem' : Mem} {a : Word} {b : Nat} {bit : Fin 64}
    (h : Settled idx mem a b)
    (hset : setPageControlBit mem cr3 v .PAGE_PTE bit (typeValue idx bit.val) = some mem') :
    Settled idx mem' a b := by
  by_cases hv0 : v = 0#64
  · rw [AcrnGuest.setPageControlBit, if_pos hv0] at hset
    exact Option.some.inj hset ▸ h
  · obtain ⟨c, -, -, rfl⟩ := (setPageControlBit_eq_some_iff hv0).mp hset
    exact Settled.update (Or.inl h)

theorem Settled.setTypeBits {mem mem' : Mem} {a : Word} {b : Nat} (h : Settled idx mem a b)
    (hpat : pat = PT_PAT ∨ pat = PT_PAT_LARGE_PAGE)
    (hset : setTypeBits mem cr3 v (PT_MEMORY_TYPE_MASK idx) pat = some mem') :
    Settled idx mem' a b := by
  rw [setTypeBits_mask hpat] at hset
  obtain ⟨mem₁, hset₁, hset⟩ := Option.bind_eq_some_iff.mp hset
  obtain ⟨mem₂, hset₂, hset₃⟩ := Option.bind_eq_some_iff.mp hset
  exact ((h.setPageControlBit hset₁).setPageControlBit hset₂).setPageControlBit hset₃

/-- A page whose entry is not reached leaves PWT in the entry of the PDPT. -/
theorem settled_of_not_reaches {mem mem' : Mem} (hv : SmallPage m cr3 v) (h : Tweaked m mem cr3)
    (hv0 : v ≠ 0#64) (hreach : ¬ ReachesEntry m cr3 v .PAGE_PTE)
    (hpat : pat = PT_PAT ∨ pat = PT_PAT_LARGE_PAGE)
    (hset : setTypeBits mem cr3 v (PT_MEMORY_TYPE_MASK idx) pat = some mem') :
    Settled idx mem' (slot (pdptOf m cr3 v) (tableIndex 3 v)) PT_PWT.val := by
  rw [setTypeBits_mask hpat] at hset
  obtain ⟨mem₁, hset₁, hset⟩ := Option.bind_eq_some_iff.mp hset
  obtain ⟨mem₂, hset₂, hset₃⟩ := Option.bind_eq_some_iff.mp hset
  obtain ⟨c, hentry, hc, rfl⟩ := (setPageControlBit_eq_some_iff hv0).mp hset₁
  rw [hv.controlEntry_eq_of_tweaked h] at hentry
  have hplace := controlEntry_of_not_reaches hv hreach hentry hc
  have hfirst : Settled idx (Function.update mem c
      (applyBit (mem c) PT_PWT (typeValue idx PT_PWT.val)))
      (slot (pdptOf m cr3 v) (tableIndex 3 v)) PT_PWT.val :=
        Settled.update (Or.inr ⟨hplace.symm, rfl⟩)
  exact (hfirst.setPageControlBit hset₂).setPageControlBit hset₃

end AcrnGuest
