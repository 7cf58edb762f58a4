import AcrnGuest.MemoryType

/-!
# Memory types over a range

`Visited` describes the memory after some pages, as long as the entry of each of them was
reached: which bits may have changed and which ones belong to the index. From it the main
theorem gets both directions. A range that is `Typable` ends with the right bits; and if the
result is right for all eight indices then the range is typable, because a wrong write stays to
the end: every later write gives a bit the value that belongs to the same index.
-/

namespace AcrnGuest

open Radix

variable {m m' : Mem} {cr3 address size : Word} {idx : Fin 8}

/-! ### Runs over the pages -/

def patAfter (m : Mem) (cr3 address : Word) : Nat → Fin 64
  | 0 => PT_PAT
  | k + 1 =>
    if walkLevel m cr3 (pageAt address k) = 1 then patAfter m cr3 address k else PT_PAT_LARGE_PAGE

section Runs

variable {k j : Nat} {st st' : Fin 64 × Mem}

theorem patAfter_cases (m : Mem) (cr3 address : Word) (k : Nat) :
    patAfter m cr3 address k = PT_PAT ∨ patAfter m cr3 address k = PT_PAT_LARGE_PAGE := by
  induction k with
  | zero => exact Or.inl rfl
  | succ k ih =>
      rw [patAfter]
      split_ifs
      · exact ih
      · exact Or.inr rfl

theorem patAfter_of_large (hj : walkLevel m cr3 (pageAt address j) ≠ 1) (hjk : j < k) :
    patAfter m cr3 address k = PT_PAT_LARGE_PAGE := by
  induction k with
  | zero => omega
  | succ k ih =>
      rw [patAfter]
      split_ifs with hone
      · refine ih (Nat.lt_of_le_of_ne (Nat.le_of_lt_succ hjk) ?_)
        rintro rfl
        exact hj hone
      · rfl

theorem patAfter_of_small (h : ∀ j, j < k → walkLevel m cr3 (pageAt address j) = 1) :
    patAfter m cr3 address k = PT_PAT := by
  induction k with
  | zero => rfl
  | succ k ih =>
    rw [patAfter, if_pos (h k (Nat.lt_succ_self k)), ih fun j hj => h j (Nat.lt_succ_of_lt hj)]

def Writes (m : Mem) (cr3 address : Word) (j : Nat) (a : Word) (b : Nat) : Prop :=
  pageAt address j ≠ 0#64 ∧ leafEntry m cr3 (pageAt address j) = a ∧
    (b = PT_PWT.val ∨ b = PT_PCD.val ∨ b = (patAfter m cr3 address (j + 1)).val)

/-- After `k` pages, when their entries are reached: a bit that was written belongs to the index,
and the others are as before. -/
structure Visited (m : Mem) (cr3 address : Word) (idx : Fin 8) (k : Nat) (st : Fin 64 × Mem) :
    Prop where
  pat : st.1 = patAfter m cr3 address k
  touched : ∀ a b, (st.2 a).getLsbD b ≠ (m a).getLsbD b → ∃ j, j < k ∧ Writes m cr3 address j a b
  written : ∀ j a b, j < k → Writes m cr3 address j a b → Settled idx st.2 a b

theorem typePosition_patAfter (hlevel : walkLevel m cr3 (pageAt address j) = 1 ∨
    walkLevel m cr3 (pageAt address j) = 2)
    {b : Nat} (hb : b = PT_PWT.val ∨ b = PT_PCD.val ∨ b = (patAfter m cr3 address (j + 1)).val) :
    TypePosition (walkLevel m cr3 (pageAt address j)) b := by
  rcases hlevel with hone | htwo
  · refine Or.inl ⟨hone, hb.imp_right (Or.imp_right fun hpat => ?_)⟩
    rcases patAfter_cases m cr3 address (j + 1) with h | h
    · exact Or.inl (hpat.trans (congrArg Fin.val h))
    · exact Or.inr (hpat.trans (congrArg Fin.val h))
  · refine Or.inr ⟨htwo, hb.imp_right (Or.imp_right fun hpat => ?_)⟩
    rw [hpat, patAfter_of_large (by omega) (Nat.lt_succ_self j)]
    rfl

theorem Visited.tweaked (h : Visited m cr3 address idx k st)
    (hpages : ∀ j, j < k → SmallPage m cr3 (pageAt address j)) : Tweaked m st.2 cr3 := by
  intro a b hne
  obtain ⟨j, hj, -, hentry, hb⟩ := h.touched a b hne
  exact ⟨pageAt address j, hentry, typePosition_patAfter (hpages j hj).level hb⟩

theorem Visited.start (m : Mem) (cr3 address : Word) (idx : Fin 8) :
    Visited m cr3 address idx 0 (PT_PAT, m) where
  pat := rfl
  touched _ _ hne := absurd rfl hne
  written _ _ _ hj := absurd hj (Nat.not_lt_zero _)

theorem visitPage_eq (hv : SmallPage m cr3 (pageAt address k)) (h : Tweaked m st.2 cr3)
    (hpat : st.1 = patAfter m cr3 address k) (type : Word) :
    visitPage cr3 address type k st =
      (setTypeBits st.2 cr3 (pageAt address k) type (patAfter m cr3 address (k + 1))).map fun mem =>
        (patAfter m cr3 address (k + 1), mem) := by
  have hnext : (if getPteLevel st.2 cr3 (pageAt address k) 1 = none then PT_PAT_LARGE_PAGE
      else st.1) =
      patAfter m cr3 address (k + 1) := by
    rw [patAfter, hpat]
    by_cases hone : walkLevel m cr3 (pageAt address k) = 1
    · rw [if_pos hone, if_neg (mt (hv.getPteLevel_eq_none_iff h).mp (not_not.mpr hone))]
    · rw [if_neg hone, if_pos ((hv.getPteLevel_eq_none_iff h).mpr hone)]
  rw [visitPage, hnext]

/-- A position that belongs to 4K pages is only left to them. -/
theorem patAfter_succ_cases (m : Mem) (cr3 address : Word) (k : Nat) :
    patAfter m cr3 address (k + 1) = PT_PAT ∧ walkLevel m cr3 (pageAt address k) = 1 ∨
      patAfter m cr3 address (k + 1) = PT_PAT_LARGE_PAGE := by
  by_cases hone : walkLevel m cr3 (pageAt address k) = 1
  · exact (patAfter_cases m cr3 address (k + 1)).imp_left fun hpat => ⟨hpat, hone⟩
  · exact Or.inr (patAfter_of_large hone (Nat.lt_succ_self k))

theorem Visited.skip (h : Visited m cr3 address idx k st) (hnull : pageAt address k = 0#64) :
    Visited m cr3 address idx (k + 1) (patAfter m cr3 address (k + 1), st.2) where
  pat := rfl
  touched a b hne := by
    obtain ⟨j, hj, hwrites⟩ := h.touched a b hne
    exact ⟨j, Nat.lt_succ_of_lt hj, hwrites⟩
  written j a b hj hwrites := by
    refine h.written j a b (Nat.lt_of_le_of_ne (Nat.le_of_lt_succ hj) ?_) hwrites
    rintro rfl
    exact hwrites.1 hnull

theorem Visited.encode (h : Visited m cr3 address idx k st) (hv0 : pageAt address k ≠ 0#64) :
    Visited m cr3 address idx (k + 1) (patAfter m cr3 address (k + 1),
      Function.update st.2 (leafEntry m cr3 (pageAt address k))
        (encodeEntry (st.2 (leafEntry m cr3 (pageAt address k))) idx
          (patAfter m cr3 address (k + 1)))) where
  pat := rfl
  touched a b hne := by
    dsimp only at hne
    by_cases ha : a = leafEntry m cr3 (pageAt address k)
    · rw [ha, Function.update_self, getLsbD_encodeEntry] at hne
      split_ifs at hne with hb
      · exact ⟨k, Nat.lt_succ_self k, hv0, ha.symm, hb⟩
      · obtain ⟨j, hj, hwrites⟩ := h.touched a b (ha ▸ hne)
        exact ⟨j, Nat.lt_succ_of_lt hj, hwrites⟩
    · rw [Function.update_of_ne ha] at hne
      obtain ⟨j, hj, hwrites⟩ := h.touched a b hne
      exact ⟨j, Nat.lt_succ_of_lt hj, hwrites⟩
  written j a b hj hwrites := by
    unfold Settled
    dsimp only
    by_cases ha : a = leafEntry m cr3 (pageAt address k)
    · rw [ha, Function.update_self, getLsbD_encodeEntry]
      split_ifs with hb
      · rfl
      · -- a bit of the same entry that an earlier visit wrote
        have hjk : j ≠ k := fun hjk => hb (hjk ▸ hwrites.2.2)
        exact ha ▸ h.written j a b (Nat.lt_of_le_of_ne (Nat.le_of_lt_succ hj) hjk) hwrites
    · have hjk : j ≠ k := fun hjk => ha (hjk ▸ hwrites.2.1).symm
      rw [Function.update_of_ne ha]
      exact h.written j a b (Nat.lt_of_le_of_ne (Nat.le_of_lt_succ hj) hjk) hwrites

/-- **One page.** -/
theorem Visited.step (h : Visited m cr3 address idx k st)
    (hpages : ∀ j, j < k + 1 → SmallPage m cr3 (pageAt address j))
    (hreach : pageAt address k ≠ 0#64 → ReachesEntry m cr3 (pageAt address k) .PAGE_PTE) :
    ∃ st', visitPage cr3 address (PT_MEMORY_TYPE_MASK idx) k st = some st' ∧
      Visited m cr3 address idx (k + 1) st' := by
  have hv := hpages k (Nat.lt_succ_self k)
  have htweaked := h.tweaked fun j hj => hpages j (Nat.lt_succ_of_lt hj)
  rw [visitPage_eq hv htweaked h.pat]
  by_cases hv0 : pageAt address k = 0#64
  · rw [hv0, setTypeBits_null (patAfter_cases m cr3 address (k + 1))]
    exact ⟨_, rfl, h.skip hv0⟩
  · rw [hv.setTypeBits_eq htweaked hv0 (hreach hv0) (patAfter_succ_cases m cr3 address k)]
    exact ⟨_, rfl, h.encode hv0⟩

/-- **A run** over pages whose entries are reached. -/
theorem Visited.run (idx : Fin 8) (hpages : ∀ j, j < k → SmallPage m cr3 (pageAt address j))
    (hreach : ∀ j, j < k → pageAt address j ≠ 0#64 →
      ReachesEntry m cr3 (pageAt address j) .PAGE_PTE) :
    ∃ st, Loop.tryUp (visitPage cr3 address (PT_MEMORY_TYPE_MASK idx)) k (PT_PAT, m) = some st ∧
      Visited m cr3 address idx k st := by
  induction k with
  | zero => exact ⟨_, rfl, Visited.start m cr3 address idx⟩
  | succ k ih =>
      obtain ⟨st, hrun, hst⟩ := ih (fun j hj => hpages j (Nat.lt_succ_of_lt hj))
        fun j hj => hreach j (Nat.lt_succ_of_lt hj)
      obtain ⟨st', hvisit, hst'⟩ := hst.step hpages (hreach k (Nat.lt_succ_self k))
      exact ⟨st', Loop.tryUp_succ_eq_some_iff.mpr ⟨st, hrun, hvisit⟩, hst'⟩

/-- What is settled stays settled in every run. -/
theorem settled_of_run {n : Nat} {a : Word} {b : Nat}
    (hpat : st.1 = PT_PAT ∨ st.1 = PT_PAT_LARGE_PAGE)
    (hsettled : Settled idx st.2 a b) (hkn : k ≤ n)
    (hk : Loop.tryUp (visitPage cr3 address (PT_MEMORY_TYPE_MASK idx)) k (PT_PAT, m) = some st)
    (hn : Loop.tryUp (visitPage cr3 address (PT_MEMORY_TYPE_MASK idx)) n (PT_PAT, m) = some st') :
    Settled idx st'.2 a b := by
  refine (Loop.tryUp_keeps (fun st => (st.1 = PT_PAT ∨ st.1 = PT_PAT_LARGE_PAGE) ∧
    Settled idx st.2 a b) ?_ hkn hk
    ⟨hpat, hsettled⟩ hn).2
  rintro i t t' ⟨hpat, hsettled⟩ hvisit
  obtain ⟨mem, hset, rfl⟩ := Option.map_eq_some_iff.mp hvisit
  have hpat' : (if getPteLevel t.2 cr3 (pageAt address i) 1 = none then PT_PAT_LARGE_PAGE
      else t.1) = PT_PAT ∨
      (if getPteLevel t.2 cr3 (pageAt address i) 1 = none then PT_PAT_LARGE_PAGE else t.1) =
        PT_PAT_LARGE_PAGE := by
    split_ifs
    · exact Or.inr rfl
    · exact hpat
  exact ⟨hpat', hsettled.setTypeBits hpat' hset⟩

end Runs

/-! ### Translations -/

/-- Only the type bits proper to the size of a page differ, in pages of 4K and 2M. -/
def Retyped (m m' : Mem) (cr3 : Word) : Prop :=
  ∀ a b, (m' a).getLsbD b ≠ (m a).getLsbD b →
    ∃ va, leafEntry m cr3 va = a ∧ (walkLevel m cr3 va = 1 ∨ walkLevel m cr3 va = 2) ∧
      (b = PT_PWT.val ∨ b = PT_PCD.val ∨ b = patBit (walkLevel m cr3 va))

theorem Retyped.tweaked (h : Retyped m m' cr3) : Tweaked m m' cr3 := by
  intro a b hne
  obtain ⟨va, hentry, hlevel, hb⟩ := h a b hne
  refine ⟨va, hentry, ?_⟩
  rcases hlevel with hone | htwo
  · rw [hone] at hb ⊢
    exact Or.inl ⟨rfl, hb.imp_right (Or.imp_right Or.inl)⟩
  · rw [htwo] at hb ⊢
    exact Or.inr ⟨rfl, hb⟩

section Translation

variable {va p : Word} {k l b : Nat} (h : Retyped m m' cr3) (htable : PageTable m cr3)

include h htable

theorem Retyped.frame_eq (hfind : x86.find m va k PAGE_LEVEL cr3 = (l, p)) :
    m' p &&& GENMASK_ULL 51 (PGDIR_BITS l) = m p &&& GENMASK_ULL 51 (PGDIR_BITS l) := by
  apply BitVec.eq_of_getLsbD_eq
  intro b _
  rw [BitVec.getLsbD_and, BitVec.getLsbD_and, getLsbD_GENMASK_ULL (by decide)]
  by_cases hlow : PGDIR_BITS l ≤ b
  · congr 1
    by_contra hne
    obtain ⟨va', hentry, hlevel, hb⟩ := h p b hne
    rw [walkLevel_of_same_table htable hfind (congrArg pageOf hentry)] at hlevel hb
    rcases hlevel with rfl | rfl
    · have hbits : PGDIR_BITS 1 = 12 := by decide
      have hpat : patBit 1 = 7 := by decide
      simp only [PT_PWT, PT_PCD] at hb
      omega
    · have hbits : PGDIR_BITS 2 = 21 := by decide
      have hpat : patBit 2 = 12 := by decide
      simp only [PT_PWT, PT_PCD] at hb
      omega
  · rw [decide_eq_false hlow, Bool.false_and, Bool.and_false, Bool.and_false]

theorem Retyped.leaf_translation (hfind : x86.find m va k PAGE_LEVEL cr3 = (l, p)) :
    (x86Leaf.leaf l (m' p) va).map (Mapping.translation · va) =
      (x86Leaf.leaf l (m p) va).map (Mapping.translation · va) := by
  have hbit : ∀ b : Fin 64, b.val < 3 →
      (m' p &&& (1#64 <<< b.val) = 0#64 ↔ m p &&& (1#64 <<< b.val) = 0#64) := by
    intro b hb
    rw [and_bit_eq_zero_iff, and_bit_eq_zero_iff,
      h.tweaked.bit_eq htable hfind (by omega) (Or.inl (by omega))]
  have hpresent : m' p &&& PT_PRESENT_MASK = 0#64 ↔ m p &&& PT_PRESENT_MASK = 0#64 :=
    hbit 0 (by decide)
  have hwritable : m' p &&& PT_WRITABLE_MASK = 0#64 ↔ m p &&& PT_WRITABLE_MASK = 0#64 :=
    hbit 1 (by decide)
  have huser : m' p &&& PT_USER_MASK = 0#64 ↔ m p &&& PT_USER_MASK = 0#64 := hbit 2 (by decide)
  simp only [x86Leaf, hpresent, ne_eq, hwritable, huser]
  split_ifs
  · rfl
  · simp only [Option.map_some, Mapping.translation, h.frame_eq htable hfind]

theorem Retyped.translate_eq (va : Word) : translate m' cr3 va = translate m cr3 va := by
  unfold translate leafOf
  split_ifs
  · refine Layout.eval_rel (fun v' v : Option Mapping =>
      v'.map (Mapping.translation · va) = v.map (Mapping.translation · va)) rfl ?_ ?_
    · -- the rights of a pointer are combined with those of the translation
      intro k e v v' hv
      have hnode : ∀ w : Option Mapping, (x86Leaf.node k e w).map (Mapping.translation · va) =
          (w.map (Mapping.translation · va)).map fun t =>
            { t with
              writable := t.writable && decide (e &&& PT_WRITABLE_MASK ≠ 0#64)
              user := t.user && decide (e &&& PT_USER_MASK ≠ 0#64) } := by
        intro w
        cases w <;> rfl
      rw [hnode, hnode, hv]
    · intro k
      have hchild := h.tweaked.child_eq htable (rfl : x86.find m va k PAGE_LEVEL cr3 = _)
      cases hc : x86Child (x86.find m va k PAGE_LEVEL cr3).1
        (m (x86.find m va k PAGE_LEVEL cr3).2) with
      | some c => exact Or.inl ⟨⟨c, hc⟩, h.tweaked.pointer_eq htable rfl hc⟩
      | none => exact Or.inr ⟨hc, hchild.trans hc, h.leaf_translation htable rfl⟩
  · rfl

end Translation

/-! ### The whole range -/

/-- What a range must be like for the function to be right. The entries of the visited pages are
    reached, no 4K page is visited after one of 2M, and every leaf of the range belongs to a visited
    page other than that of the null pointer. -/
structure Typable (m : Mem) (cr3 address size : Word) : Prop where
  reaches : ∀ k, k < visits size → pageAt address k ≠ 0#64 →
    ReachesEntry m cr3 (pageAt address k) .PAGE_PTE
  order : ∀ j k, j < k → k < visits size → pageAt address k ≠ 0#64 →
    walkLevel m cr3 (pageAt address j) = 2 →
    walkLevel m cr3 (pageAt address k) = 2
  covers : ∀ i, i < size.toNat → ∃ k, k < visits size ∧ pageAt address k ≠ 0#64 ∧
    leafEntry m cr3 (pageAt address k) = leafEntry m cr3 (inRange address i)

theorem offset_lt {k : Nat} (hk : k < visits size) : 4096 * k < size.toNat := by
  unfold visits at hk
  omega

theorem RangeMapped.size_le (h : RangeMapped m cr3 address size) : size.toNat ≤ 2 ^ 48 := by
  by_contra hlarge
  have hcanonical : ∀ i, i < size.toNat → Canonical (inRange address i) :=
    fun i hi => (isMapped_iff.mp (h i hi).1).1
  have hlt := address.isLt
  -- the first address that is not canonical
  have hhole := hcanonical ((2 ^ 64 + 2 ^ 47 - address.toNat) % 2 ^ 64)
  have hstart := hcanonical 0 (by omega)
  unfold Canonical inRange at hhole hstart
  rw [BitVec.toNat_add, BitVec.toNat_ofNat] at hhole hstart
  omega

theorem RangeMapped.smallPage (h : RangeMapped m cr3 address size) (htable : PageTable m cr3)
    (hcr3 : PhysPage cr3) {k : Nat} (hk : k < visits size) : SmallPage m cr3 (pageAt address k) :=
  ⟨htable, hcr3, (h _ (offset_lt hk)).1, (h _ (offset_lt hk)).2⟩

theorem exists_typeBit_ne (b : Nat) (x : Bool) : ∃ idx, typeBit idx b ≠ x := by
  cases x with
  | false =>
      refine ⟨7, ?_⟩
      unfold typeBit
      split_ifs <;> decide
  | true =>
      refine ⟨0, ?_⟩
      unfold typeBit
      split_ifs <;> decide

section Whole

variable {st : Fin 64 × Mem} (htable : PageTable m cr3) (hcr3 : PhysPage cr3)
  (hrange : RangeMapped m cr3 address size)

include hrange

/-- The order of the pages makes the position of the PAT bit right. -/
theorem Typable.patAfter_eq (h : Typable m cr3 address size) {k : Nat} (hk : k < visits size)
    (hv0 : pageAt address k ≠ 0#64) :
    (patAfter m cr3 address (k + 1)).val = patBit (walkLevel m cr3 (pageAt address k)) := by
  rcases (hrange _ (offset_lt hk)).2 with hone | htwo
  · have hone' : walkLevel m cr3 (pageAt address k) = 1 := hone
    rw [hone', patAfter_of_small]
    · rfl
    · intro j hj
      rcases Nat.lt_or_eq_of_le (Nat.le_of_lt_succ hj) with hjk | rfl
      · refine ((hrange _ (offset_lt (Nat.lt_trans hjk hk))).2).resolve_right fun htwo => ?_
        have := h.order j k hjk hk hv0 htwo
        omega
      · exact hone'
  · have htwo' : walkLevel m cr3 (pageAt address k) = 2 := htwo
    rw [htwo', patAfter_of_large (by omega) (Nat.lt_succ_self k)]
    rfl

include htable

theorem Typable.encodes (h : Typable m cr3 address size)
    (hst : Visited m cr3 address idx (visits size) st) :
    Encodes m st.2 cr3 address size idx := by
  have htouched : ∀ a b, (st.2 a).getLsbD b ≠ (m a).getLsbD b → ∃ j, j < visits size ∧
      leafEntry m cr3 (pageAt address j) = a ∧
      (b = PT_PWT.val ∨ b = PT_PCD.val ∨ b = patBit (walkLevel m cr3 (pageAt address j))) := by
    intro a b hne
    obtain ⟨j, hj, hv0, hentry, hb⟩ := hst.touched a b hne
    rw [h.patAfter_eq hrange hj hv0] at hb
    exact ⟨j, hj, hentry, hb⟩
  have hretyped : Retyped m st.2 cr3 := by
    intro a b hne
    obtain ⟨j, hj, hentry, hb⟩ := htouched a b hne
    exact ⟨pageAt address j, hentry, (hrange _ (offset_lt hj)).2, hb⟩
  refine ⟨fun i hi b => ?_, fun a ha => ?_, hretyped.translate_eq htable⟩
  · obtain ⟨k, hk, hv0, hentry⟩ := h.covers i hi
    have hlevel := walkLevel_eq_of_leafEntry htable hentry
    split_ifs with hb
    · refine hst.written k _ b hk ⟨hv0, hentry, ?_⟩
      rwa [h.patAfter_eq hrange hk hv0, hlevel]
    · by_contra hne
      obtain ⟨j, hj, hentry', hb'⟩ := htouched _ b hne
      rw [walkLevel_eq_of_leafEntry htable hentry'] at hb'
      exact hb hb'
  · by_contra hne
    obtain ⟨b, hb⟩ := exists_bit_ne hne
    obtain ⟨j, hj, hentry, -⟩ := htouched a b hb
    exact ha _ (offset_lt hj) hentry.symm

include hcr3

theorem Typable.run (h : Typable m cr3 address size) (idx : Fin 8) :
    ∃ m', setMemoryTypePt m cr3 address (PT_MEMORY_TYPE_MASK idx) size = some m' ∧
      Encodes m m' cr3 address size idx := by
  obtain ⟨st, hrun, hst⟩ := Visited.run idx (fun j hj => hrange.smallPage htable hcr3 hj) h.reaches
  rw [setMemoryTypePt_eq m cr3 address _ hrange.size_le, hrun]
  exact ⟨st.2, rfl, h.encodes htable hrange hst⟩

-- the result for every index is right
variable (hall : ∀ idx, ∃ m', setMemoryTypePt m cr3 address (PT_MEMORY_TYPE_MASK idx) size =
  some m' ∧
  Encodes m m' cr3 address size idx)

include hall

omit htable hcr3 in
theorem exists_run (idx : Fin 8) :
    ∃ st, Loop.tryUp (visitPage cr3 address (PT_MEMORY_TYPE_MASK idx)) (visits size)
      (PT_PAT, m) = some st ∧
      Encodes m st.2 cr3 address size idx := by
  obtain ⟨m', hset, hencodes⟩ := hall idx
  rw [setMemoryTypePt_eq m cr3 address _ hrange.size_le] at hset
  obtain ⟨st, hrun, rfl⟩ := Option.map_eq_some_iff.mp hset
  exact ⟨st, hrun, hencodes⟩

/-- A page whose entry is not reached spoils the PWT bit of its PDPT entry for some index. -/
theorem reaches_of_encodes (k : Nat) (hk : k < visits size) (hv0 : pageAt address k ≠ 0#64) :
    ReachesEntry m cr3 (pageAt address k) .PAGE_PTE := by
  induction k using Nat.strong_induction_on with
  | _ k ih =>
      by_contra hreach
      have hv := hrange.smallPage htable hcr3 hk
      have hpages : ∀ j, j < k → SmallPage m cr3 (pageAt address j) :=
        fun j hj => hrange.smallPage htable hcr3 (Nat.lt_trans hj hk)
      obtain ⟨idx, hidx⟩ := exists_typeBit_ne PT_PWT.val
        ((m (slot (pdptOf m cr3 (pageAt address k)) (tableIndex 3 (pageAt address k)))).getLsbD
          PT_PWT.val)
      obtain ⟨st, hrun, hencodes⟩ := exists_run hrange hall idx
      obtain ⟨before, hbefore, hvisited⟩ := Visited.run idx hpages
        fun j hj => ih j hj (Nat.lt_trans hj hk)
      obtain ⟨after, hafter⟩ := Loop.tryUp_of_le (Nat.succ_le_of_lt hk) hrun
      obtain ⟨t, ht, hvisit⟩ := Loop.tryUp_succ_eq_some_iff.mp hafter
      obtain rfl := Option.some.inj (hbefore.symm.trans ht)
      rw [visitPage_eq hv (hvisited.tweaked hpages) hvisited.pat] at hvisit
      obtain ⟨mem, hset, rfl⟩ := Option.map_eq_some_iff.mp hvisit
      have hpat := patAfter_cases m cr3 address (k + 1)
      have hsettled := settled_of_run hpat
        (settled_of_not_reaches hv (hvisited.tweaked hpages) hv0 hreach hpat hset)
        (Nat.succ_le_of_lt hk) hafter hrun
      refine hidx (hsettled.symm.trans
        (congrArg (BitVec.getLsbD · PT_PWT.val) (hencodes.frame _ ?_)))
      -- the entry of the PDPT is no leaf of the range
      intro i hi heq
      have hthree := walkLevel_of_same_table htable (walk_of_mapped hv.mapped).find_pdpte
        (congrArg pageOf heq.symm)
      have hlevel := (hrange i hi).2
      omega

/-- The runs as they would be if every entry is reached. -/
theorem exists_visited (idx : Fin 8) :
    ∃ st, Visited m cr3 address idx (visits size) st ∧ Encodes m st.2 cr3 address size idx := by
  obtain ⟨st, hrun, hencodes⟩ := exists_run hrange hall idx
  obtain ⟨st', hrun', hvisited⟩ := Visited.run idx (fun j hj => hrange.smallPage htable hcr3 hj)
    (reaches_of_encodes htable hcr3 hrange hall)
  obtain rfl := Option.some.inj (hrun.symm.trans hrun')
  exact ⟨st, hvisited, hencodes⟩

/-- A 4K page after a large one gets its bit 12 changed for some index. -/
theorem order_of_encodes {j k : Nat} (hjk : j < k) (hk : k < visits size)
    (hv0 : pageAt address k ≠ 0#64) (hj : walkLevel m cr3 (pageAt address j) = 2) :
    walkLevel m cr3 (pageAt address k) = 2 := by
  refine ((hrange _ (offset_lt hk)).2).resolve_left fun hone => ?_
  obtain ⟨idx, hidx⟩ := exists_typeBit_ne PT_PAT_LARGE_PAGE.val
    ((m (leafEntry m cr3 (pageAt address k))).getLsbD PT_PAT_LARGE_PAGE.val)
  obtain ⟨st, hvisited, hencodes⟩ := exists_visited htable hcr3 hrange hall idx
  have hpat : patAfter m cr3 address (k + 1) = PT_PAT_LARGE_PAGE :=
    patAfter_of_large (by omega) (Nat.lt_succ_of_lt hjk)
  have hwritten := hvisited.written k _ PT_PAT_LARGE_PAGE.val hk
    ⟨hv0, rfl, Or.inr (Or.inr (by rw [hpat]))⟩
  have hkept := hencodes.leaf _ (offset_lt hk) PT_PAT_LARGE_PAGE.val
  rw [hone, if_neg (by decide)] at hkept
  exact hidx (hwritten.symm.trans hkept)

/-- A leaf that no visited page has keeps its PWT bit. -/
theorem covers_of_encodes {i : Nat} (hi : i < size.toNat) :
    ∃ k, k < visits size ∧ pageAt address k ≠ 0#64 ∧
      leafEntry m cr3 (pageAt address k) = leafEntry m cr3 (inRange address i) := by
  obtain ⟨idx, hidx⟩ := exists_typeBit_ne PT_PWT.val
    ((m (leafEntry m cr3 (inRange address i))).getLsbD PT_PWT.val)
  obtain ⟨st, hvisited, hencodes⟩ := exists_visited htable hcr3 hrange hall idx
  have hleaf := hencodes.leaf i hi PT_PWT.val
  rw [if_pos (Or.inl rfl)] at hleaf
  obtain ⟨k, hk, hv0, hentry, -⟩ := hvisited.touched _ PT_PWT.val (hleaf ▸ hidx)
  exact ⟨k, hk, hv0, hentry⟩

end Whole

/-- **`set_memory_type_pt`** is right for every index exactly if the range is typable. -/
theorem setMemoryTypePt_encodes_iff (hcr3 : PhysPage cr3) (htable : PageTable m cr3)
    (hrange : RangeMapped m cr3 address size) :
    (∀ idx, ∃ m', setMemoryTypePt m cr3 address (PT_MEMORY_TYPE_MASK idx) size = some m' ∧
        Encodes m m' cr3 address size idx)
      ↔ Typable m cr3 address size := by
  constructor
  · intro hall
    exact ⟨reaches_of_encodes htable hcr3 hrange hall,
      fun _ _ hjk hk hv0 hj => order_of_encodes htable hcr3 hrange hall hjk hk hv0 hj,
      fun _ hi => covers_of_encodes htable hcr3 hrange hall hi⟩
  · exact fun h => h.run htable hcr3 hrange

/-! ### Ranges from the start of a page -/

theorem inRange_div (haddress : IsPage address) (i : Nat) :
    (inRange address i).toNat / 4096 = (pageAt address (i / 4096)).toNat / 4096 := by
  have haligned := isPage_iff.mp haddress
  rw [pageAt, inRange, inRange, BitVec.toNat_add, BitVec.toNat_add, BitVec.toNat_ofNat,
    BitVec.toNat_ofNat]
  omega

theorem find_inRange (haddress : IsPage address) (m : Mem) (cr3 : Word) (i : Nat) :
    x86.find m (inRange address i) 1 PAGE_LEVEL cr3 =
      x86.find m (pageAt address (i / 4096)) 1 PAGE_LEVEL cr3 :=
  Layout.find_congr_idx (fun _ hk => tableIndex_eq_of_div_eq hk (inRange_div haddress i)) m 1 3 cr3

theorem rangeMapped_of_pages (haddress : IsPage address)
    (h : ∀ k, 4096 * k < size.toNat → IsMapped m cr3 (pageAt address k) ∧
      (walkLevel m cr3 (pageAt address k) = 1 ∨ walkLevel m cr3 (pageAt address k) = 2)) :
    RangeMapped m cr3 address size := by
  intro i hi
  have hdiv := inRange_div haddress i
  obtain ⟨hmapped, hlevel⟩ := h (i / 4096) (by omega)
  refine ⟨isMapped_iff.mpr ⟨?_, (walkPresent_congr hdiv).mpr (isMapped_iff.mp hmapped).2⟩, ?_⟩
  · have hcanonical := (isMapped_iff.mp hmapped).1
    unfold Canonical at hcanonical ⊢
    omega
  · rwa [walkLevel, find_inRange haddress]

theorem setMemoryTypePt_encodes_one_page :
    RangeMapped onePageMem 0x1000#64 0x2000#64 0x1000#64 ∧
      ∀ idx, ∃ m', setMemoryTypePt onePageMem 0x1000#64 0x2000#64
        (PT_MEMORY_TYPE_MASK idx) 0x1000#64 = some m' ∧
        Encodes onePageMem m' 0x1000#64 0x2000#64 0x1000#64 idx := by
  have hrange : RangeMapped onePageMem 0x1000#64 0x2000#64 0x1000#64 := by
    refine rangeMapped_of_pages (by decide) fun k hk => ?_
    have hsize : (0x1000#64 : Word).toNat = 4096 := by decide
    obtain rfl : k = 0 := by omega
    exact ⟨onePageMem_mapped, by decide⟩
  have hvisits : visits 0x1000#64 = 1 := by decide
  refine ⟨hrange, (setMemoryTypePt_encodes_iff (by decide) onePageMem_pageTable hrange).mpr
    ⟨fun k hk _ => ?_, fun j k hjk hk => by omega, fun i hi => ⟨0, by decide, by decide, ?_⟩⟩⟩
  · obtain rfl : k = 0 := by omega
    exact ⟨by decide, Or.inl (by decide), fun _ => ⟨by decide, fun _ => by decide⟩⟩
  · have hpage : i / 4096 = 0 := Nat.div_eq_of_lt hi
    have hwalk := find_inRange (by decide : IsPage 0x2000#64) onePageMem 0x1000#64 i
    rw [hpage] at hwalk
    exact (congrArg Prod.snd hwalk).symm

/-- A page of 2M and, right after it, one of 4K at the physical address `0x5000`. -/
def mixedPagesMem : Mem := fun a =>
  if a = 0x1000#64 then 0x2003#64 else if a = 0x2000#64 then 0x3003#64
  else if a = 0x3000#64 then 0x200083#64 else if a = 0x3008#64 then 0x4003#64
  else if a = 0x4000#64 then 0x5003#64 else 0#64

theorem mixedPagesMem_sparse :
    ∀ a, a ∉ [0x1000#64, 0x2000#64, 0x3000#64, 0x3008#64, 0x4000#64] → mixedPagesMem a = 0#64 := by
  intro a ha
  simp only [List.mem_cons, List.not_mem_nil, or_false, not_or] at ha
  simp [mixedPagesMem, ha]

/-- **The slip**: the position of the PAT bit in the large page is kept for the 4K page, and its bit
12 is cleared. The page moves to the physical address `0x4000`. -/
theorem setMemoryTypePt_moves_4k_page :
    PageTable mixedPagesMem 0x1000#64 ∧ RangeMapped mixedPagesMem 0x1000#64 0x1ff000#64 0x2000#64 ∧
      translate mixedPagesMem 0x1000#64 0x200000#64 = some ⟨0x5000#64, true, false⟩ ∧
      ((setMemoryTypePt mixedPagesMem 0x1000#64 0x1ff000#64 (PT_MEMORY_TYPE_MASK 0) 0x2000#64).bind
        fun m' =>
        translate m' 0x1000#64 0x200000#64) = some ⟨0x4000#64, true, false⟩ := by
  refine ⟨?_, ?_, by decide, by decide +kernel⟩
  · exact (TreeIn.child 0 0x2000#64 mixedPagesMem_sparse (by decide) (by decide) (by decide)
      (TreeIn.child 0 0x3000#64 mixedPagesMem_sparse (by decide) (by decide) (by decide)
        (TreeIn.child 1 0x4000#64 mixedPagesMem_sparse (by decide) (by decide) (by decide)
          (TreeIn.ends mixedPagesMem_sparse (by decide) (by decide)) (by decide)) (by decide))
            (by decide)).wf
  · refine rangeMapped_of_pages (by decide) fun k hk => ?_
    have hsize : (0x2000#64 : Word).toNat = 8192 := by decide
    unfold IsMapped
    obtain rfl | rfl : k = 0 ∨ k = 1 := by omega
    · exact ⟨by decide, by decide⟩
    · exact ⟨by decide, by decide⟩

end AcrnGuest
