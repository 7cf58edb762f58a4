import AcrnGuest.Ept

/-!
# Installing entries in extended page tables

`installEptEntry_spec` instantiates the rule for radix tables. An iteration follows
a pointer, links an empty table, or splits a large leaf; a split leaf is read as
before at every address because its 512 parts cover it with the same flags. What
entries must satisfy is a parameter, so that the stricter requirements of later
modules need no new walk.
-/

namespace AcrnGuest

open Radix

/-! ### Flags of an entry -/

/-- The pointer to an empty table. -/
def eptPointer (p : Word) : Word := p ||| EPT_RA ||| EPT_WA ||| EPT_EA

/-- What `split_large_ept_entry` leaves in place of the leaf. -/
def splitPointer (pte newPt : Word) : Word :=
  (pte &&& ~~~ EPT_LARGE_PAGE &&& ~~~ EPT_ADDR_MASK) ||| newPt

def splitEntry (pte : Word) (level : Nat) (i : Fin 512) : Word :=
  splitPrototype pte level |||
    ((pte &&& EPT_ADDR_MASK) + BitVec.ofNat 64 (i * 2 ^ EPT_LEVEL_SHIFT (level - 1)))

theorem eptPointer_eq (p : Word) : eptPointer p = p ||| 7#64 := by
  have h : EPT_RA ||| EPT_WA ||| EPT_EA = 7#64 := by decide
  rw [eptPointer, BitVec.or_assoc, BitVec.or_assoc, ← BitVec.or_assoc EPT_RA, h]

theorem eptPointer_flags {p k : Word} (hp : PhysPage p) (hk : GENMASK_ULL 51 12 &&& k = 0#64) :
    eptPointer p &&& k = 7#64 &&& k := by
  rw [eptPointer_eq, hp.or_and_flags hk]

theorem eptPointer_addr {p : Word} (hp : PhysPage p) : eptPointer p &&& EPT_ADDR_MASK = p := by
  rw [eptPointer_eq]
  exact hp.or_and_mask (by decide)

section Split

variable {pte newPt k : Word} {level : Nat} {i : Fin 512}

theorem splitPointer_flags (hnew : PhysPage newPt) (hk : GENMASK_ULL 51 12 &&& k = 0#64) :
    splitPointer pte newPt &&& k = pte &&& ~~~ EPT_LARGE_PAGE &&& k := by
  rw [splitPointer, BitVec.or_comm, hnew.or_and_flags hk]
  exact and_not_and hk

theorem splitPointer_addr (hnew : PhysPage newPt) :
    splitPointer pte newPt &&& EPT_ADDR_MASK = newPt := by
  rw [splitPointer, BitVec.or_comm]
  exact hnew.or_and_mask (and_not_and_self _ _)

theorem splitPrototype_addr : splitPrototype pte level &&& EPT_ADDR_MASK = 0#64 := by
  unfold splitPrototype
  split_ifs
  · rw [and_not_and (by decide), and_not_and_self]
  · exact and_not_and_self _ _

theorem splitPrototype_flags (hk : GENMASK_ULL 51 12 &&& k = 0#64)
    (hlarge : EPT_LARGE_PAGE &&& k = 0#64) : splitPrototype pte level &&& k = pte &&& k := by
  unfold splitPrototype
  split_ifs
  · rw [and_not_and hlarge]
    exact and_not_and hk
  · exact and_not_and hk

theorem toNat_splitFrame (hlevel : level = 2 ∨ level = 3)
    (haligned : (pte &&& EPT_ADDR_MASK).toNat % 2 ^ EPT_LEVEL_SHIFT level = 0) (i : Fin 512) :
    ((pte &&& EPT_ADDR_MASK) + BitVec.ofNat 64 (i * 2 ^ EPT_LEVEL_SHIFT (level - 1))).toNat =
      (pte &&& EPT_ADDR_MASK).toNat + i * 2 ^ EPT_LEVEL_SHIFT (level - 1) ∧
    (pte &&& EPT_ADDR_MASK).toNat + i * 2 ^ EPT_LEVEL_SHIFT (level - 1) < 2 ^ 52 := by
  have hlt : (pte &&& EPT_ADDR_MASK).toNat < 2 ^ 52 :=
    (physPage_iff.mp (physPage_and_mask pte)).2
  have hi := i.isLt
  rw [BitVec.toNat_add, BitVec.toNat_ofNat]
  rcases hlevel with rfl | rfl
  all_goals simp only [EPT_LEVEL_SHIFT, EPT_PGDIR_WIDTH] at haligned ⊢
  all_goals omega

theorem physPage_splitFrame (hlevel : level = 2 ∨ level = 3)
    (haligned : (pte &&& EPT_ADDR_MASK).toNat % 2 ^ EPT_LEVEL_SHIFT level = 0) (i : Fin 512) :
    PhysPage ((pte &&& EPT_ADDR_MASK) + BitVec.ofNat 64 (i * 2 ^ EPT_LEVEL_SHIFT (level - 1))) := by
  obtain ⟨heq, hlt⟩ := toNat_splitFrame hlevel haligned i
  rw [physPage_iff, heq]
  refine ⟨?_, hlt⟩
  rcases hlevel with rfl | rfl
  all_goals simp only [EPT_LEVEL_SHIFT, EPT_PGDIR_WIDTH] at haligned ⊢
  all_goals omega

theorem splitEntry_addr (hlevel : level = 2 ∨ level = 3)
    (haligned : (pte &&& EPT_ADDR_MASK).toNat % 2 ^ EPT_LEVEL_SHIFT level = 0) :
    splitEntry pte level i &&& EPT_ADDR_MASK =
      (pte &&& EPT_ADDR_MASK) + BitVec.ofNat 64 (i * 2 ^ EPT_LEVEL_SHIFT (level - 1)) := by
  rw [splitEntry, BitVec.or_comm]
  exact (physPage_splitFrame hlevel haligned i).or_and_mask splitPrototype_addr

theorem splitEntry_flags (hlevel : level = 2 ∨ level = 3)
    (haligned : (pte &&& EPT_ADDR_MASK).toNat % 2 ^ EPT_LEVEL_SHIFT level = 0)
    (hk : GENMASK_ULL 51 12 &&& k = 0#64) :
    splitEntry pte level i &&& k = splitPrototype pte level &&& k := by
  rw [splitEntry, BitVec.or_comm, (physPage_splitFrame hlevel haligned i).or_and_flags hk]

/-- The leaves of a 1 GiB split are large, those of a 2 MiB split have level 1. -/
theorem eptChild_splitEntry (hlevel : level = 2 ∨ level = 3)
    (haligned : (pte &&& EPT_ADDR_MASK).toNat % 2 ^ EPT_LEVEL_SHIFT level = 0)
    (hlarge : pte &&& EPT_LARGE_PAGE ≠ 0#64) :
    eptChild (level - 1) (splitEntry pte level i) = none := by
  rcases hlevel with rfl | rfl
  · exact eptChild_one _
  · have hflag : splitEntry pte 3 i &&& EPT_LARGE_PAGE = pte &&& EPT_LARGE_PAGE := by
      rw [splitEntry_flags (Or.inr rfl) haligned (by decide), splitPrototype, if_neg (by decide),
        and_not_and (by decide)]
    unfold eptChild
    split_ifs with habsent hone hleaf
    · rfl
    · rfl
    · rfl
    · exact (hleaf ⟨Or.inl rfl, hflag ▸ hlarge⟩).elim

theorem memType_eq (e : Word) :
    (e >>> EPT_MEM_TYPE_SHIFT) &&& 7#64 = (e &&& 0x38#64) >>> EPT_MEM_TYPE_SHIFT := by
  rw [BitVec.ushiftRight_and_distrib]
  rfl

/-- Frame and offset of a part add up to the host address in the whole leaf. -/
theorem splitEntry_host (hlevel : level = 2 ∨ level = 3)
    (haligned : (pte &&& EPT_ADDR_MASK).toNat % 2 ^ EPT_LEVEL_SHIFT level = 0) (guestAddr : Word) :
    (splitEntry pte level (tableIndex (level - 1) guestAddr) &&&
        GENMASK_ULL 51 (EPT_LEVEL_SHIFT (level - 1))) +
        BitVec.ofNat 64 (guestAddr.toNat % 2 ^ EPT_LEVEL_SHIFT (level - 1)) =
      (pte &&& GENMASK_ULL 51 (EPT_LEVEL_SHIFT level)) +
        BitVec.ofNat 64 (guestAddr.toNat % 2 ^ EPT_LEVEL_SHIFT level) := by
  have hbase : pte.toNat % 2 ^ 52 / 4096 * 4096 = (pte &&& EPT_ADDR_MASK).toNat :=
    (toNat_and_addrMask pte).symm
  have hframe : (splitEntry pte level (tableIndex (level - 1) guestAddr)).toNat % 2 ^ 52 / 4096 *
      4096 =
      (pte &&& EPT_ADDR_MASK).toNat +
        (tableIndex (level - 1) guestAddr : Nat) * 2 ^ EPT_LEVEL_SHIFT (level - 1) := by
    rw [← (toNat_splitFrame hlevel haligned _).1, ← splitEntry_addr hlevel haligned]
    exact (toNat_and_addrMask _).symm
  have hshift : 2 ^ EPT_LEVEL_SHIFT level = 2 ^ EPT_LEVEL_SHIFT (level - 1) * 512 := by
    rcases hlevel with rfl | rfl <;> rfl
  have hlow : guestAddr.toNat % 2 ^ EPT_LEVEL_SHIFT level =
      guestAddr.toNat % 2 ^ EPT_LEVEL_SHIFT (level - 1) +
        2 ^ EPT_LEVEL_SHIFT (level - 1) * (tableIndex (level - 1) guestAddr : Nat) := by
    rw [hshift, Nat.mod_mul]
    rfl
  have hparts : ((pte &&& EPT_ADDR_MASK).toNat +
      (tableIndex (level - 1) guestAddr : Nat) * 2 ^ EPT_LEVEL_SHIFT (level - 1)) %
        2 ^ EPT_LEVEL_SHIFT (level - 1) = 0 := by
    rw [Nat.add_mul_mod_self_right]
    apply Nat.mod_eq_zero_of_dvd
    apply Nat.dvd_trans _ (Nat.dvd_of_mod_eq_zero haligned)
    exact ⟨512, hshift⟩
  apply BitVec.eq_of_toNat_eq
  rw [BitVec.toNat_add, BitVec.toNat_add, toNat_and_GENMASK_ULL _ (by omega),
    toNat_and_GENMASK_ULL _ (by omega), BitVec.toNat_ofNat, BitVec.toNat_ofNat,
    div_mul_eq_of_frame hframe (by unfold EPT_LEVEL_SHIFT; omega) hparts,
    div_mul_eq_of_frame hbase (by unfold EPT_LEVEL_SHIFT; omega) haligned, hlow,
    Nat.add_mod_mod, Nat.add_mod_mod, Nat.mul_comm (2 ^ EPT_LEVEL_SHIFT (level - 1)),
    Nat.add_comm (guestAddr.toNat % 2 ^ EPT_LEVEL_SHIFT (level - 1)), Nat.add_assoc]

/-- The parts of a split leaf are read as the leaf itself. -/
theorem eptLeaf_split (hlevel : level = 2 ∨ level = 3)
    (haligned : (pte &&& EPT_ADDR_MASK).toNat % 2 ^ EPT_LEVEL_SHIFT level = 0)
    (hpresent : pte &&& EPT_PRESENT ≠ 0#64) (hnew : PhysPage newPt) (guestAddr : Word) :
    eptLeaf.node level (splitPointer pte newPt)
        (eptLeaf.leaf (level - 1)
          (splitEntry pte level (tableIndex (level - 1) guestAddr)) guestAddr) =
      eptLeaf.leaf level pte guestAddr := by
  have hflags : ∀ k, GENMASK_ULL 51 12 &&& k = 0#64 → EPT_LARGE_PAGE &&& k = 0#64 →
      splitEntry pte level (tableIndex (level - 1) guestAddr) &&& k = pte &&& k := by
    intro k hk hlarge
    rw [splitEntry_flags hlevel haligned hk, splitPrototype_flags hk hlarge]
  have haccess : pte &&& EPT_PRESENT &&& splitPointer pte newPt = pte &&& EPT_PRESENT := by
    rw [BitVec.and_assoc, BitVec.and_comm EPT_PRESENT, splitPointer_flags hnew (by decide),
      and_not_and (by decide), ← BitVec.and_assoc, BitVec.and_self]
  simp only [eptLeaf, memType_eq]
  rw [hflags EPT_PRESENT (by decide) (by decide), hflags 0x38#64 (by decide) (by decide),
    if_neg hpresent, if_neg hpresent, Option.map_some, haccess, splitEntry_host hlevel haligned]

end Split

/-! ### What a split does -/

theorem ofNat_mul_add_shiftLeft (n s : Nat) :
    BitVec.ofNat 64 (n * 2 ^ s) + 1#64 <<< s = BitVec.ofNat 64 ((n + 1) * 2 ^ s) := by
  apply BitVec.eq_of_toNat_eq
  rw [BitVec.toNat_add, BitVec.toNat_shiftLeft, BitVec.toNat_ofNat, BitVec.toNat_ofNat,
    BitVec.toNat_ofNat, Nat.mod_eq_of_lt (by decide : 1 < 2 ^ 64), Nat.one_shiftLeft, ← Nat.add_mod,
    Nat.succ_mul]

/-- The loop writes the entries `0` to `n - 1`, with frames that follow each other. -/
theorem up_splitFillStep (m : Mem) (prototype gpa : Word) (level : Nat) {newPt : Word} {n : Nat}
    (hnew : IsPage newPt) (hn : n ≤ 512) :
    (Loop.up (splitFillStep newPt prototype level) n (m, gpa)).2 =
        gpa + BitVec.ofNat 64 (n * 2 ^ EPT_LEVEL_SHIFT (level - 1)) ∧
      (∀ i : Fin 512, (i : Nat) < n →
        (Loop.up (splitFillStep newPt prototype level) n (m, gpa)).1 (slot newPt i) =
          prototype ||| (gpa + BitVec.ofNat 64 (i * 2 ^ EPT_LEVEL_SHIFT (level - 1)))) ∧
      ∀ a, pageOf a ≠ newPt →
        (Loop.up (splitFillStep newPt prototype level) n (m, gpa)).1 a = m a := by
  induction n with
  | zero =>
      refine ⟨?_, fun i hi => (Nat.not_lt_zero _ hi).elim, fun a _ => rfl⟩
      rw [Nat.zero_mul]
      exact (BitVec.add_zero gpa).symm
  | succ n ih =>
      obtain ⟨hgpa, hentries, hother⟩ := ih (by omega)
      have hslot : entryAddr newPt (BitVec.ofNat 64 n) = slot newPt ⟨n, by omega⟩ := rfl
      simp only [Loop.up, splitFillStep, hslot, hgpa]
      refine ⟨?_, fun i hi => ?_, fun a ha => ?_⟩
      · rw [BitVec.add_assoc, ofNat_mul_add_shiftLeft]
      · by_cases hin : (i : Nat) = n
        · subst hin
          exact Function.update_self _ _ _
        · rw [Function.update_of_ne (fun h => hin (congrArg Fin.val (slot_injective hnew h)))]
          exact hentries i (by omega)
      · rw [Function.update_of_ne, hother a ha]
        rintro rfl
        exact ha (pageOf_slot hnew _)

/-- **`split_large_ept_entry`** takes the first free page, fills it with the parts of
    the leaf and points to it. -/
theorem splitLargeEptEntry_spec {s : Machine} {ptep q : Word} {level : Nat} {pages : List Word}
    (hlist : FreeList s (q :: pages)) (hpresent : s.mem ptep &&& EPT_PRESENT ≠ 0#64)
    (hlarge : s.mem ptep &&& EPT_LARGE_PAGE ≠ 0#64) (hlevel : level = 2 ∨ level = 3)
    (hptep : pageOf ptep ≠ q) :
    ∃ m', splitLargeEptEntry s ptep level = some { mem := m', freelist := s.mem q } ∧
      m' ptep = splitPointer (s.mem ptep) q ∧
      (∀ i, m' (slot q i) = splitEntry (s.mem ptep) level i) ∧
      ∀ a, a ≠ ptep → pageOf a ≠ q → m' a = s.mem a := by
  have hq : IsPage q := hlist.isPage q (by simp)
  have hne : q ≠ 0#64 := by
    rintro rfl
    exact hlist.zero_notMem (by simp)
  obtain ⟨halloc, -⟩ := allocPage_cons hlist
  obtain ⟨-, hentries, hother⟩ := up_splitFillStep (memset s.mem q 0#8 PAGE_SIZE)
    (splitPrototype (s.mem ptep) level) (s.mem ptep &&& EPT_ADDR_MASK) level hq (Nat.le_refl 512)
  refine ⟨Function.update (Loop.up (splitFillStep q (splitPrototype (s.mem ptep) level) level) 512
    (memset s.mem q 0#8 PAGE_SIZE, s.mem ptep &&& EPT_ADDR_MASK)).1 ptep
    (splitPointer (s.mem ptep) q), ?_, ?_, ?_, ?_⟩
  · rw [splitLargeEptEntry, if_neg (not_not.mpr hpresent), if_neg (not_not.mpr hlarge),
      if_neg (not_not.mpr hlevel), halloc, if_neg hne]
    rfl
  · exact Function.update_self _ _ _
  · intro i
    rw [Function.update_of_ne]
    · exact hentries i i.isLt
    · rintro rfl
      exact hptep (pageOf_slot hq i)
  · intro a ha haq
    rw [Function.update_of_ne ha]
    refine (hother a haq).trans ?_
    rw [memset_zero_page hq, if_neg haq]

/-! ### Well-formed tables -/

/-- Above level 1 a present entry is marked large at levels 2 and 3 only, and then its
    frame is aligned to the size of the page. -/
def eptGood (level : Nat) (e : Word) : Prop :=
  1 < level → e &&& EPT_PRESENT ≠ 0#64 → e &&& EPT_LARGE_PAGE ≠ 0#64 →
    (level = 2 ∨ level = 3) ∧ (e &&& EPT_ADDR_MASK).toNat % 2 ^ EPT_LEVEL_SHIFT level = 0

/-- A requirement on entries and a reading that the walk maintains when it only splits
    leaves that satisfy `Splits`. -/
structure EptGrows {V : Type} (good : Nat → Word → Prop) (Splits : Word → Prop)
    (r : Reading Word Word V) : Prop where
  wellFormed : ∀ level e, good level e → eptGood level e
  zero : ∀ level, good level 0#64
  link : ∀ level p, PhysPage p → good level (eptPointer p)
  link_reads : ∀ level e p gpa, 1 ≤ level → PhysPage p → e &&& EPT_PRESENT = 0#64 →
    r.node (level + 1) (eptPointer p) (r.leaf level 0#64 gpa) = r.leaf (level + 1) e gpa
  split : ∀ level e p i, (level = 2 ∨ level = 3) → good level e → e &&& EPT_PRESENT ≠ 0#64 →
    e &&& EPT_LARGE_PAGE ≠ 0#64 → Splits e → PhysPage p →
    good level (splitPointer e p) ∧ good (level - 1) (splitEntry e level i) ∧
      Splits (splitEntry e level i)
  split_reads : ∀ level e p gpa, (level = 2 ∨ level = 3) → good level e →
    e &&& EPT_PRESENT ≠ 0#64 → e &&& EPT_LARGE_PAGE ≠ 0#64 → Splits e → PhysPage p →
    r.node level (splitPointer e p)
      (r.leaf (level - 1) (splitEntry e level (tableIndex (level - 1) gpa)) gpa) =
        r.leaf level e gpa

theorem splitEntry_aligned {pte : Word} {level : Nat} {i : Fin 512} (hlevel : level = 2 ∨ level = 3)
    (haligned : (pte &&& EPT_ADDR_MASK).toNat % 2 ^ EPT_LEVEL_SHIFT level = 0) :
    (splitEntry pte level i &&& EPT_ADDR_MASK).toNat % 2 ^ EPT_LEVEL_SHIFT (level - 1) = 0 := by
  rw [splitEntry_addr hlevel haligned, (toNat_splitFrame hlevel haligned i).1,
    Nat.add_mul_mod_self_right]
  apply Nat.mod_eq_zero_of_dvd
  apply Nat.dvd_trans _ (Nat.dvd_of_mod_eq_zero haligned)
  rcases hlevel with rfl | rfl
  · exact ⟨512, rfl⟩
  · exact ⟨512, rfl⟩

theorem splitPointer_not_large {pte p : Word} (hp : PhysPage p) :
    splitPointer pte p &&& EPT_LARGE_PAGE = 0#64 := by
  rw [splitPointer_flags hp (by decide), and_not_and_self]

theorem eptGrows_eptGood : EptGrows eptGood (fun _ => True) eptLeaf where
  wellFormed _ _ h := h
  zero _ _ h := (h (by decide)).elim
  link _ p hp _ _ hlarge := by
    rw [eptPointer_flags hp (by decide)] at hlarge
    exact (hlarge (by decide)).elim
  link_reads _ e p gpa _ _ habsent := by simp [eptLeaf, habsent]
  split level e p i hlevel hgood hpresent hlarge _ hp := by
    obtain ⟨-, haligned⟩ := hgood (by omega) hpresent hlarge
    refine ⟨fun _ _ h => (h (splitPointer_not_large hp)).elim, fun hone _ _ => ?_, trivial⟩
    exact ⟨by omega, splitEntry_aligned hlevel haligned⟩
  split_reads level e p gpa hlevel hgood hpresent hlarge _ hp := by
    obtain ⟨-, haligned⟩ := hgood (by omega) hpresent hlarge
    exact eptLeaf_split hlevel haligned hpresent hp gpa

/-! ### One iteration -/

def leafAbove (tgt : Nat) (P : Word → Prop) : Reading Word Word Prop where
  stuck := True
  leaf level e _ := tgt < level → e &&& EPT_PRESENT ≠ 0#64 → P e
  node _ _ v := v

def endsInLeafAbove (tgt : Nat) : Reading Word Word Prop where
  stuck := False
  leaf level e _ := tgt < level ∧ e &&& EPT_PRESENT ≠ 0#64
  node _ _ v := v

/-- Splits only use the free list, never the page of the caller, so it must hold the
    pages for them. -/
def EptReady (Splits : Word → Prop) (tgt : Nat) (guestAddr : Word) (level : Nat)
    (st : Machine × Word) (p : Word) : Prop :=
  ept.eval (leafAbove tgt Splits) st.1.mem level p guestAddr ∧
    ∀ pages, FreeList st.1 pages → ept.eval (endsInLeafAbove tgt) st.1.mem level p guestAddr →
      ept.eval stopLevel st.1.mem level p guestAddr - tgt ≤ pages.length

theorem eptChild_of_absent {level : Nat} {e : Word} (h : e &&& EPT_PRESENT = 0#64) :
    eptChild level e = none := by
  simp [eptChild, h]

theorem eptChild_of_large {level : Nat} {e : Word} (hlevel : level = 2 ∨ level = 3)
    (hlarge : e &&& EPT_LARGE_PAGE ≠ 0#64) : eptChild level e = none := by
  unfold eptChild
  split_ifs with habsent hone hleaf
  · rfl
  · rfl
  · rfl
  · exact (hleaf ⟨hlevel, hlarge⟩).elim

theorem eptChild_of_pointer {level : Nat} {e : Word} (hlevel : level ≠ 1)
    (hpresent : e &&& EPT_PRESENT ≠ 0#64) (hlarge : e &&& EPT_LARGE_PAGE = 0#64) :
    eptChild level e = some (e &&& EPT_ADDR_MASK) := by
  simp [eptChild, hpresent, hlarge, hlevel]

theorem eptChild_eptPointer {level : Nat} {p : Word} (hp : PhysPage p) (hlevel : level ≠ 1) :
    eptChild level (eptPointer p) = some p := by
  have hpresent : eptPointer p &&& EPT_PRESENT ≠ 0#64 := by
    rw [eptPointer_flags hp (by decide)]
    decide
  have hlarge : eptPointer p &&& EPT_LARGE_PAGE = 0#64 := by
    rw [eptPointer_flags hp (by decide)]
    decide
  rw [eptChild_of_pointer hlevel hpresent hlarge, eptPointer_addr hp]

theorem eptChild_splitPointer {level : Nat} {pte p : Word} (hp : PhysPage p) (hlevel : level ≠ 1)
    (hpresent : pte &&& EPT_PRESENT ≠ 0#64) : eptChild level (splitPointer pte p) = some p := by
  have hpresent' : splitPointer pte p &&& EPT_PRESENT ≠ 0#64 := by
    rwa [splitPointer_flags hp (by decide), and_not_and (by decide)]
  rw [eptChild_of_pointer hlevel hpresent' (splitPointer_not_large hp), splitPointer_addr hp]

section Step

variable {V : Type} {good : Nat → Word → Prop} {Splits : Word → Prop} {r : Reading Word Word V}
  {s : Machine} {ptPage p guestAddr : Word} {free : List Word} {l tgt : Nat}

/-- Splitting a leaf opens a table below it. The page comes from the free list, also
    when the caller has given one. -/
theorem splitLargeEptEntry_opened (hgrows : EptGrows good Splits r) {q : Word} {pages : List Word}
    (hlist : FreeList s (q :: pages)) (hsupply : Supply (s, ptPage) free)
    (hwf : ept.WF good s.mem (l + 1) p) (hfree : ∀ q ∈ free, q ∉ ept.pages s.mem (l + 1) p)
    (hlevel : l + 1 = 2 ∨ l + 1 = 3)
    (hpresent : s.mem (slot p (tableIndex (l + 1) guestAddr)) &&& EPT_PRESENT ≠ 0#64)
    (hlarge : s.mem (slot p (tableIndex (l + 1) guestAddr)) &&& EPT_LARGE_PAGE ≠ 0#64)
    (hsplits : Splits (s.mem (slot p (tableIndex (l + 1) guestAddr)))) :
    ∃ m' rest, PhysPage q ∧ splitLargeEptEntry s (slot p (tableIndex (l + 1) guestAddr)) (l + 1) =
        some { mem := m', freelist := s.mem q } ∧
      m' (slot p (tableIndex (l + 1) guestAddr)) =
        splitPointer (s.mem (slot p (tableIndex (l + 1) guestAddr))) q ∧
      (∀ i, m' (slot q i) = splitEntry (s.mem (slot p (tableIndex (l + 1) guestAddr))) (l + 1) i) ∧
      FreeList { mem := m', freelist := s.mem q } pages ∧
      Opened ept good r (fun st : Machine × Word => st.1.mem) Supply l guestAddr (s, ptPage) p
        free ({ mem := m', freelist := s.mem q }, ptPage) q [q] rest := by
  have hpage : IsPage p := hwf.isPage
  obtain ⟨pages', hlist', hfreeEq⟩ := hsupply.list
  obtain rfl : pages' = q :: pages := hlist'.unique hlist
  have hq : PhysPage q := hsupply.phys q (by rw [hfreeEq]; simp)
  have hqp : pageOf (slot p (tableIndex (l + 1) guestAddr)) ≠ q := by
    rw [pageOf_slot hpage]
    rintro rfl
    exact hfree p (by rw [hfreeEq]; simp) Layout.self_mem_pages
  have hgood : good (l + 1) (s.mem (slot p (tableIndex (l + 1) guestAddr))) := hwf.good_entry _
  obtain ⟨-, haligned⟩ := hgrows.wellFormed _ _ hgood (by omega) hpresent hlarge
  obtain ⟨m', hsplit, hptr, hentries, hother⟩ :=
    splitLargeEptEntry_spec hlist hpresent hlarge hlevel hqp
  have hnew := fun i => hgrows.split (l + 1) _ q i hlevel hgood hpresent hlarge hsplits hq
  have hperm : free.Perm (q :: ((if ptPage = 0#64 then [] else [ptPage]) ++ pages)) := by
    rw [hfreeEq]
    exact List.perm_middle
  have hlist₁ : FreeList { mem := m', freelist := s.mem q } pages := by
    refine (allocPage_cons hlist).2.frame rfl fun a ha => hother a ?_ ?_
    · rintro rfl
      have haPage : pageOf (slot p _) = slot p _ := hlist.isPage _ (List.mem_cons_of_mem _ ha)
      rw [pageOf_slot hpage] at haPage
      refine hfree p ?_ Layout.self_mem_pages
      rw [hfreeEq]
      exact List.mem_append_right _ (List.mem_cons_of_mem _ (haPage ▸ ha))
    · rw [show pageOf a = a from hlist.isPage a (List.mem_cons_of_mem _ ha)]
      rintro rfl
      exact (List.nodup_cons.mp hlist.nodup).1 ha
  have hsupply' : Supply ({ mem := m', freelist := s.mem q }, ptPage)
      ((if ptPage = 0#64 then [] else [ptPage]) ++ pages) :=
    ⟨⟨pages, hlist₁, rfl⟩,
      fun a ha => hsupply.phys a (hperm.mem_iff.mpr (List.mem_cons_of_mem _ ha)),
      (List.nodup_cons.mp (hperm.nodup_iff.mp hsupply.nodup)).2⟩
  refine ⟨m', (if ptPage = 0#64 then [] else [ptPage]) ++ pages, hq, hsplit, hptr,
    hentries, hlist₁, ?_⟩
  refine Opened.fresh (by omega) hperm hsupply' hq.isPage
    (eptChild_of_large hlevel hlarge) ?_ ?_ ?_ ?_
    hother ?_
  · exact (congrArg (eptChild (l + 1)) hptr).trans (eptChild_splitPointer hq (by omega) hpresent)
  · exact (congrArg (good (l + 1)) hptr).mpr (hnew 0).1
  · intro i
    exact (congrArg (good l) (hentries i)).mpr (hnew i).2.1
  · intro i
    exact (congrArg (eptChild l) (hentries i)).trans (eptChild_splitEntry hlevel haligned hlarge)
  · intro va _
    refine Eq.trans ?_ (hgrows.split_reads (l + 1) _ q va hlevel hgood hpresent hlarge hsplits hq)
    exact congrArg₂ (r.node (l + 1)) hptr (congrArg (r.leaf l · va) (hentries _))

theorem installEptEntryStep_opens (hgrows : EptGrows good Splits r) (guestAddr : Word)
    (htgt : 1 ≤ tgt) (hl : tgt ≤ l) :
    Opens ept good r (fun st : Machine × Word => st.1.mem) Supply
      (EptReady Splits tgt guestAddr) (installEptEntryStep guestAddr) guestAddr l := by
  rintro ⟨s, ptPage⟩ p free hsupply hnodup hwf hfree ⟨hsplits, hpages⟩ hne
  have hentry : entryAddr p (eptOffset guestAddr (l + 1)) = slot p (tableIndex (l + 1) guestAddr) :=
    entryAddr_eptOffset p guestAddr (l + 1)
  obtain ⟨k, rfl⟩ : ∃ k, l = k + 1 := ⟨l - 1, by omega⟩
  by_cases habsent : s.mem (slot p (tableIndex (k + 1 + 1) guestAddr)) &&& EPT_PRESENT = 0#64
  · -- an empty table is created below the absent entry
    have hold : eptChild (k + 1 + 1) (s.mem (slot p (tableIndex (k + 1 + 1) guestAddr))) = none :=
      eptChild_of_absent habsent
    have hempty : eptChild (k + 1) 0#64 = none := eptChild_of_absent (by decide)
    obtain ⟨q, rest, s', ptPage', htake, hq, hopen, hzero⟩ :=
      opened_linkTable (r := r) eptPointer (by omega) hsupply hwf hfree
        (hne (Layout.eval_none hold)) hold
        (fun q hq => ⟨eptChild_eptPointer hq (by omega), hgrows.link _ _ hq⟩)
        ⟨hempty, hgrows.zero _⟩
          (fun q va' hq => hgrows.link_reads _ _ q va' (by omega) hq habsent)
    have hends : ∀ i, eptChild (k + 1) (linkTable s'.mem q
        (slot p (tableIndex (k + 1 + 1) guestAddr)) (eptPointer q) (slot q i)) = none :=
      fun i => (hzero i).symm ▸ hempty
    have habsent' : ∀ i, linkTable s'.mem q (slot p (tableIndex (k + 1 + 1) guestAddr))
        (eptPointer q) (slot q i) &&& EPT_PRESENT = 0#64 :=
      fun i => (congrArg (· &&& EPT_PRESENT) (hzero i)).trans (by decide)
    refine ⟨_, q, [q], rest, ?_, hopen, ?_, ?_⟩
    · simp only [installEptEntryStep, hentry, if_pos habsent, htake, virtToPhys, physToVirt,
        Option.map_some]
      refine congrArg some (congrArg₂ Prod.mk rfl ?_)
      rw [linkTable_self]
      exact eptPointer_addr hq
    · exact (Layout.eval_none (hends _)).mpr fun _ h => (h (habsent' _)).elim
    · intro pages _ hleaf
      exact ((Layout.eval_none (hends _)).mp hleaf).2.elim (habsent' _)
  · by_cases hlarge : s.mem (slot p (tableIndex (k + 1 + 1) guestAddr)) &&& EPT_LARGE_PAGE = 0#64
    · -- the entry is a pointer
      have hc : ept.child (k + 1 + 1) (ept.entry s.mem (k + 1 + 1) p guestAddr) =
          some (s.mem (slot p (tableIndex (k + 1 + 1) guestAddr)) &&& EPT_ADDR_MASK) :=
        eptChild_of_pointer (by omega) habsent hlarge
      have hstep : installEptEntryStep guestAddr (k + 1 + 1) ((s, ptPage), p) =
          some ((s, ptPage), s.mem (slot p (tableIndex (k + 1 + 1) guestAddr)) &&&
            EPT_ADDR_MASK) := by
        simp only [installEptEntryStep, hentry, if_neg habsent, if_neg (not_not.mpr hlarge),
          Option.map_some, physToVirt]
      refine ⟨_, _, [], free, hstep, Opened.existing hsupply hwf hc, ?_, ?_⟩
      · rw [Layout.eval_some hc] at hsplits
        exact hsplits
      · intro pages hlist hleaf
        have hcount := hpages pages hlist (by rw [Layout.eval_some hc]; exact hleaf)
        rw [Layout.eval_some hc] at hcount
        exact hcount
    · -- the leaf is split
      have hgood := hgrows.wellFormed _ _ (hwf.good_entry (tableIndex (k + 1 + 1) guestAddr))
      obtain ⟨hlevel, haligned⟩ := hgood (by omega) habsent hlarge
      have hold : ept.child (k + 1 + 1) (ept.entry s.mem (k + 1 + 1) p guestAddr) = none :=
        eptChild_of_large hlevel hlarge
      rw [Layout.eval_none hold] at hsplits
      obtain ⟨pages, hlist, -⟩ := hsupply.list
      have hcount := hpages pages hlist
        (by rw [Layout.eval_none hold]; exact ⟨by omega, habsent⟩)
      rw [Layout.eval_none hold] at hcount
      obtain ⟨q, pages, rfl⟩ : ∃ q pages', pages = q :: pages' := by
        cases pages with
        | nil =>
            change k + 1 + 1 - tgt ≤ 0 at hcount
            omega
        | cons q pages => exact ⟨q, pages, rfl⟩
      change k + 1 + 1 - tgt ≤ pages.length + 1 at hcount
      obtain ⟨m', rest, hq, hsplit, hptr, hentries, hlist', hopen⟩ :=
        splitLargeEptEntry_opened hgrows hlist hsupply hwf hfree hlevel habsent hlarge
          (hsplits (by omega) habsent)
      have hends : ∀ i, eptChild (k + 1) (m' (slot q i)) = none := fun i =>
        (congrArg (eptChild (k + 1)) (hentries i)).trans
        (eptChild_splitEntry hlevel haligned hlarge)
      refine ⟨_, q, [q], rest, ?_, hopen, ?_, ?_⟩
      · simp only [installEptEntryStep, hentry, if_neg habsent, if_pos hlarge, hsplit,
          Option.map_some, physToVirt, hptr]
        exact congrArg some (congrArg (Prod.mk _) (splitPointer_addr hq))
      · refine (Layout.eval_none (hends _)).mpr fun _ _ => ?_
        refine (congrArg Splits (hentries _)).mpr ?_
        exact (hgrows.split _ _ q _ hlevel (hwf.good_entry _) habsent hlarge
          (hsplits (by omega) habsent) hq).2.2
      · intro pages' hpages' hleaf
        have hstop : ept.eval stopLevel m' (k + 1) q guestAddr = k + 1 := Layout.eval_none (hends _)
        have hlen := congrArg List.length (hpages'.unique hlist')
        change ept.eval stopLevel m' (k + 1) q guestAddr - tgt ≤ pages'.length
        omega

end Step

/-! ### The whole walk -/

/-- The number of pages that an installation at level `tgt` takes. -/
def eptMissing (m : Mem) (pml4 guestAddr : Word) (tgt : Nat) : Nat :=
  ept.eval stopLevel m EPT_PAGE_LEVEL pml4 guestAddr - tgt

def eptPages (m : Mem) (pml4 : Word) : Set Word := ept.pages m EPT_PAGE_LEVEL pml4

/-- Without a page from the caller the loop never gets one. -/
theorem installEptEntryStep_ptPage {guestAddr : Word} {level : Nat}
    {st st' : (Machine × Word) × Word} (h : st.1.2 = 0#64)
    (hstep : installEptEntryStep guestAddr level st = some st') :
    st'.1.2 = 0#64 := by
  simp only [installEptEntryStep, Option.map_eq_some_iff] at hstep
  obtain ⟨opened, hopened, rfl⟩ := hstep
  split_ifs at hopened
  · cases hopened
    simp only [takePage, h, if_true]
  · obtain ⟨s', -, rfl⟩ := Option.map_eq_some_iff.mp hopened
    exact h
  · cases hopened
    exact h

/-- **`install_ept_entry`** succeeds, installs its entry and takes the missing tables
    from the supply. -/
theorem installEptEntry_spec {V : Type} {good : Nat → Word → Prop} {Splits : Word → Prop}
    {r : Reading Word Word V} (hgrows : EptGrows good Splits r) {s : Machine}
    {pml4 guestAddr pte ptPage : Word} {tgt : Nat} {free : List Word} (htgt : 1 ≤ tgt)
    (htgt4 : tgt ≤ EPT_PAGE_LEVEL) (hguest : guestAddr.toNat < 2 ^ 48)
    (hleaf : eptChild tgt pte = none) (hgood : good tgt pte) (hsupply : Supply (s, ptPage) free)
    (hwf : ept.WF good s.mem EPT_PAGE_LEVEL pml4) (hfree : ∀ q ∈ free, q ∉ eptPages s.mem pml4)
    (hready : EptReady Splits tgt guestAddr EPT_PAGE_LEVEL (s, ptPage) pml4)
    (henough : eptMissing s.mem pml4 guestAddr tgt ≤ free.length) :
    ∃ s' taken rest ptPage', installEptEntry s pml4 tgt guestAddr pte ptPage = some s' ∧
      free.Perm (taken ++ rest) ∧ (ptPage = 0#64 → ptPage' = 0#64) ∧ Supply (s', ptPage') rest ∧
      Installed ept good r s.mem s'.mem tgt guestAddr pte EPT_PAGE_LEVEL pml4 taken := by
  have hopens := fun l (hl : tgt ≤ l) => installEptEntryStep_opens hgrows guestAddr htgt hl
  obtain ⟨⟨s₁, ptPage'⟩, p', taken, rest, hdown, hsplit, hsupply', hpage, hwritten, hinst⟩ :=
    install_spec htgt hopens hleaf hgood htgt4 hsupply hsupply.nodup hwf hfree hready henough
  have hnone : ptPage = 0#64 → ptPage' = 0#64 := fun h0 =>
    Loop.tryDown_invariant (fun st : (Machine × Word) × Word => st.1.2 = 0#64)
      (fun level st st' hst hstep => installEptEntryStep_ptPage hst hstep) h0 hdown
  have hbelow : guestAddr < 1#64 <<< 48 := by
    rw [BitVec.lt_def]
    exact hguest
  refine ⟨_, taken, rest, ptPage', ?_, hsplit, hnone,
    hsupply'.write_slot hsplit hsupply.nodup hfree hpage hwritten _, hinst⟩
  rw [installEptEntry, if_neg (not_not.mpr hbelow), hdown]
  simp only [Option.map_some, Nat.min_eq_left htgt4, entryAddr_eptOffset]
  rfl

def eptWalkEnd : Reading Word Word (Nat × Word) where
  stuck := (0, 0#64)
  leaf level e _ := (level, e)
  node _ _ v := v

theorem eptWalkEnd_target {V : Type} {good : Nat → Word → Prop}
    {r : Reading Word Word V} {m m' : Mem} {pml4 guestAddr pte gpa : Word} {tgt : Nat}
    {taken : List Word}
    (hinst : Installed ept good r m m' tgt guestAddr pte EPT_PAGE_LEVEL pml4 taken)
    (hgpa : gpa.toNat / 2 ^ EPT_LEVEL_SHIFT tgt = guestAddr.toNat / 2 ^ EPT_LEVEL_SHIFT tgt) :
    ept.eval eptWalkEnd m' EPT_PAGE_LEVEL pml4 gpa = (tgt, pte) := by
  obtain ⟨path, -, -, htarget⟩ := hinst.reads_target
  rw [htarget _ eptWalkEnd gpa fun k hk _ => tableIndex_eq_of_div_eq hk hgpa]
  exact Reading.climb_of_node_eq (fun _ _ _ => rfl) _ _ _

/-- The condition on leaves above a level, from the end of the walk. -/
theorem leafAbove_of_walkEnd {P : Word → Prop} {m : Mem} {l tgt level : Nat} {p e guestAddr : Word}
    (hend : ept.eval eptWalkEnd m l p guestAddr = (level, e))
    (hleaf : tgt < level → e &&& EPT_PRESENT ≠ 0#64 → P e) :
    ept.eval (leafAbove tgt P) m l p guestAddr := by
  induction l generalizing p with
  | zero => trivial
  | succ l ih =>
      cases hc : ept.child (l + 1) (ept.entry m (l + 1) p guestAddr) with
      | none =>
          rw [Layout.eval_none hc] at hend ⊢
          obtain ⟨rfl, rfl⟩ := Prod.mk.inj hend
          exact hleaf
      | some c =>
          rw [Layout.eval_some hc] at hend ⊢
          exact ih hend

theorem ept_eval_other {V : Type} {good : Nat → Word → Prop} {r : Reading Word Word V} {m m' : Mem}
    {pml4 guestAddr pte gpa : Word} {tgt : Nat} {taken : List Word}
    (hinst : Installed ept good r m m' tgt guestAddr pte EPT_PAGE_LEVEL pml4 taken)
    (htgt : 1 ≤ tgt) (htgt4 : tgt ≤ EPT_PAGE_LEVEL) (hguest : guestAddr.toNat < 2 ^ 48)
    (hlow : gpa.toNat < 2 ^ 48)
    (hgpa : gpa.toNat / 2 ^ EPT_LEVEL_SHIFT tgt ≠ guestAddr.toNat / 2 ^ EPT_LEVEL_SHIFT tgt) :
    ept.eval r m' EPT_PAGE_LEVEL pml4 gpa = ept.eval r m EPT_PAGE_LEVEL pml4 gpa := by
  rw [← Nat.mod_eq_of_lt hlow, ← Nat.mod_eq_of_lt hguest] at hgpa
  obtain ⟨k, hk, hk4, hne⟩ := exists_tableIndex_ne htgt htgt4 hgpa
  exact hinst.reads_other gpa k hk hk4 hne

/-! ### Tables between calls -/

/-- The state between calls: the tables at `pml4` and, apart from them, the free pages. -/
structure EptTables (good : Nat → Word → Prop) (s : Machine) (pml4 : Word) (pages : List Word) :
    Prop where
  list : FreeList s pages
  phys : ∀ p ∈ pages, PhysPage p
  wf : ept.WF good s.mem EPT_PAGE_LEVEL pml4
  apart : ∀ p ∈ pages, p ∉ eptPages s.mem pml4

/-- The caller passes no page, or one that is in use nowhere else. -/
def OwnPage (s : Machine) (pml4 : Word) (pages : List Word) (ptPage : Word) : Prop :=
  ptPage = 0#64 ∨ PhysPage ptPage ∧ ptPage ∉ pages ∧ ptPage ∉ eptPages s.mem pml4

/-- The free list holds the pages for the missing tables. The page of the caller can
    stand in for one of them unless a leaf has to be split. -/
def EnoughPages (s : Machine) (pml4 guestAddr : Word) (tgt : Nat) (pages : List Word)
    (ptPage : Word) : Prop :=
  eptMissing s.mem pml4 guestAddr tgt ≤ pages.length ∨
    ptPage ≠ 0#64 ∧ ¬ ept.eval (endsInLeafAbove tgt) s.mem EPT_PAGE_LEVEL pml4 guestAddr ∧
      eptMissing s.mem pml4 guestAddr tgt ≤ pages.length + 1

theorem eptChild_zero (level : Nat) : eptChild level 0#64 = none := eptChild_of_absent (by decide)

theorem ept_pages_of_empty {m : Mem} {p : Word} {l : Nat} (h : EmptyTable m p) :
    ept.pages m (l + 1) p = {p} := h.pages (eptChild_zero _)

theorem ept_eval_of_empty {V : Type} {m : Mem} {p : Word} {l : Nat} (h : EmptyTable m p)
    (r : Reading Word Word V) (gpa : Word) :
    ept.eval r m (l + 1) p gpa = r.leaf (l + 1) 0#64 gpa := h.eval (eptChild_zero _) r gpa

theorem eptTables_of_empty {good : Nat → Word → Prop} {s : Machine} {pml4 : Word}
    {pages : List Word} (hempty : EmptyTable s.mem pml4) (hgood : ∀ level, good level 0#64)
    (hlist : FreeList s pages) (hphys : ∀ p ∈ pages, PhysPage p) (hpml4 : pml4 ∉ pages) :
    EptTables good s pml4 pages where
  list := hlist
  phys := hphys
  wf := hempty.wf (eptChild_zero _) (hgood _)
  apart p hp hmem := by
    rw [eptPages, EPT_PAGE_LEVEL, ept_pages_of_empty hempty] at hmem
    exact hpml4 (Set.mem_singleton_iff.mp hmem ▸ hp)

/-- **One call of `install_ept_entry`** on tables that meet a requirement which the walk
    maintains. -/
theorem EptTables.install {V : Type} {good : Nat → Word → Prop} {Splits : Word → Prop}
    {r : Reading Word Word V} {s : Machine} {pml4 guestAddr pte ptPage : Word} {tgt : Nat}
    {pages : List Word} (h : EptTables good s pml4 pages) (hgrows : EptGrows good Splits r)
    (htgt : 1 ≤ tgt) (htgt4 : tgt ≤ EPT_PAGE_LEVEL) (hguest : guestAddr.toNat < 2 ^ 48)
    (hleaf : eptChild tgt pte = none) (hgood : good tgt pte)
    (hsplits : ept.eval (leafAbove tgt Splits) s.mem EPT_PAGE_LEVEL pml4 guestAddr)
    (hown : OwnPage s pml4 pages ptPage)
    (henough : EnoughPages s pml4 guestAddr tgt pages ptPage) :
    ∃ s' taken rest, installEptEntry s pml4 tgt guestAddr pte ptPage = some s' ∧
      EptTables good s' pml4 rest ∧ (ptPage = 0#64 → pages.Perm (taken ++ rest)) ∧
      Installed ept good r s.mem s'.mem tgt guestAddr pte EPT_PAGE_LEVEL pml4 taken := by
  let caller : List Word := if ptPage = 0#64 then [] else [ptPage]
  have hcaller : ∀ p ∈ caller, PhysPage p ∧ p ∉ pages ∧ p ∉ eptPages s.mem pml4 := by
    intro p hp
    rcases hown with h0 | hfresh
    · simp [caller, h0] at hp
    · have hpt : ptPage ≠ 0#64 := by
        rintro rfl
        simp [caller] at hp
      simp only [caller, if_neg hpt, List.mem_singleton] at hp
      exact hp ▸ hfresh
  have hsupply : Supply (s, ptPage) (caller ++ pages) := by
    refine ⟨⟨pages, h.list, rfl⟩, ?_, ?_⟩
    · intro p hp
      rcases List.mem_append.mp hp with hp | hp
      · exact (hcaller p hp).1
      · exact h.phys p hp
    · refine List.nodup_append'.mpr ⟨?_, h.list.nodup, fun p hp hp' => (hcaller p hp).2.1 hp'⟩
      by_cases hpt : ptPage = 0#64 <;> simp [caller, hpt]
  have hfree : ∀ p ∈ caller ++ pages, p ∉ eptPages s.mem pml4 := by
    intro p hp
    rcases List.mem_append.mp hp with hp | hp
    · exact (hcaller p hp).2.2
    · exact h.apart p hp
  have hready : EptReady Splits tgt guestAddr EPT_PAGE_LEVEL (s, ptPage) pml4 := by
    refine ⟨hsplits, fun pages' hlist' hends => ?_⟩
    rw [hlist'.unique h.list]
    rcases henough with hle | ⟨-, hno, -⟩
    · exact hle
    · exact (hno hends).elim
  have hcount : eptMissing s.mem pml4 guestAddr tgt ≤ (caller ++ pages).length := by
    rw [List.length_append]
    rcases henough with hle | ⟨hpt, -, hle⟩
    · omega
    · simp only [caller, if_neg hpt, List.length_singleton]
      omega
  obtain ⟨s', taken, rest, ptPage', hinstall, hsplit, hptPage, hsupply', hinst⟩ :=
    installEptEntry_spec hgrows htgt htgt4 hguest hleaf hgood hsupply h.wf hfree hready hcount
  obtain ⟨pages', hlist', hrest⟩ := hsupply'.list
  have hmem : ∀ p ∈ pages', p ∈ rest := fun p hp => by
    rw [hrest]
    exact List.mem_append_right _ hp
  refine ⟨s', taken, pages', hinstall,
    ⟨hlist', fun p hp => hsupply'.phys p (hmem p hp), hinst.wf, ?_⟩, ?_, hinst⟩
  · intro p hp
    exact hinst.notMem_pages hsplit hsupply.nodup hfree p (hmem p hp)
  · intro h0
    have hrest' : rest = pages' := by
      rw [hrest, hptPage h0]
      rfl
    rw [← hrest']
    simpa [caller, h0] using hsplit

/-! ### `install_ept` -/

/-- The tables at `pml4` are a tree of well-formed entries. -/
def ExtendedPageTable (m : Mem) (pml4 : Word) : Prop := ept.WF eptGood m EPT_PAGE_LEVEL pml4

theorem leafAbove_true {m : Mem} {l : Nat} {p guestAddr : Word} (tgt : Nat) :
    ept.eval (leafAbove tgt fun _ => True) m l p guestAddr :=
  leafAbove_of_walkEnd rfl fun _ _ => trivial

/-- **`install_ept`** maps its guest page and nothing else, also through large leaves
    that it has to split. The walk of every address in the page ends at level 1 in the
    new entry, and every other address keeps its host address, its access rights and
    its memory type. -/
theorem installEpt_maps {s : Machine} {pml4 phys guestAddr perm : Word} {pages : List Word}
    (htable : ExtendedPageTable s.mem pml4) (hguest : guestAddr.toNat < 2 ^ 48)
    (hphys : PhysPage phys) (hperm : perm &&& EPT_ADDR_MASK = 0#64) (hlist : FreeList s pages)
    (hpages : ∀ p ∈ pages, PhysPage p ∧ p ∉ eptPages s.mem pml4)
    (henough : eptMissing s.mem pml4 guestAddr 1 ≤ pages.length) :
    ∃ s', installEpt s pml4 phys guestAddr perm = some s' ∧
      (∀ gpa, pageOf gpa = pageOf guestAddr →
        ept.eval eptWalkEnd s'.mem EPT_PAGE_LEVEL pml4 gpa = (1, phys ||| perm) ∧
        (phys ||| perm) &&& EPT_ADDR_MASK = phys) ∧
      ∀ gpa, pageOf gpa ≠ pageOf guestAddr →
        eptTranslate s'.mem pml4 gpa = eptTranslate s.mem pml4 gpa := by
  have hpte : (phys &&& PAGE_MASK) ||| perm = phys ||| perm := by
    rw [show phys &&& PAGE_MASK = phys from hphys.isPage]
  have hsame : ∀ gpa : Word, pageOf gpa = pageOf guestAddr ↔
      gpa.toNat / 2 ^ EPT_LEVEL_SHIFT 1 = guestAddr.toNat / 2 ^ EPT_LEVEL_SHIFT 1 :=
    fun _ => pageOf_eq_pageOf_iff
  have htables : EptTables eptGood s pml4 pages :=
    ⟨hlist, fun p hp => (hpages p hp).1, htable, fun p hp => (hpages p hp).2⟩
  obtain ⟨s', taken, rest, hinstall, -, -, hinst⟩ :=
    htables.install eptGrows_eptGood (Nat.le_refl 1) (by decide) hguest (eptChild_one _)
      (fun hone => absurd hone (by decide)) (leafAbove_true 1) (Or.inl rfl) (Or.inl henough)
  refine ⟨s', hinstall, fun gpa hgpa => ⟨?_, hphys.or_and_mask hperm⟩, fun gpa hgpa => ?_⟩
  · rw [eptWalkEnd_target hinst ((hsame gpa).mp hgpa), hpte]
  · unfold eptTranslate
    split_ifs with hlow
    · exact ept_eval_other hinst (Nat.le_refl 1) (by decide) hguest hlow
        fun h => hgpa ((hsame gpa).mpr h)
    · rfl

def emptyEptMachine : Machine where
  mem a := if 0x2000#64 ≤ a ∧ a < 0x6000#64 then a + 0x1000#64 else 0#64
  freelist := 0x2000#64

theorem emptyEptMachine_emptyTable : EmptyTable emptyEptMachine.mem 0x1000#64 where
  isPage := by decide
  zero a ha := by
    refine if_neg ?_
    rw [pageOf_eq_iff] at ha
    rw [BitVec.le_def, BitVec.lt_def]
    change _ = 4096 at ha
    change ¬ (8192 ≤ _ ∧ _)
    omega

theorem emptyEptMachine_tables {good : Nat → Word → Prop} (hgood : ∀ level, good level 0#64) :
    EptTables good emptyEptMachine 0x1000#64
      [0x2000#64, 0x3000#64, 0x4000#64, 0x5000#64, 0x6000#64] := by
  refine eptTables_of_empty emptyEptMachine_emptyTable hgood ⟨?_, by decide, ?_⟩ ?_ (by decide)
  · simp [emptyEptMachine]
  · simp only [List.mem_cons, List.not_mem_nil, or_false, forall_eq_or_imp, forall_eq]
    decide
  · simp only [List.mem_cons, List.not_mem_nil, or_false, forall_eq_or_imp, forall_eq]
    decide

/-- A 4 KiB page installed below a 1 GiB leaf, which is split twice. -/
theorem installEpt_maps_below_large_leaf :
    ∃ s s', installEptEntry emptyEptMachine 0x1000#64 3 0#64 0x400000b7#64 0#64 = some s ∧
      installEpt s 0x1000#64 0x7000#64 0x5000#64 0x37#64 = some s' ∧
      ept.eval eptWalkEnd s'.mem EPT_PAGE_LEVEL 0x1000#64 0x5123#64 = (1, 0x7037#64) ∧
      eptTranslate s'.mem 0x1000#64 0x6123#64 = eptTranslate s.mem 0x1000#64 0x6123#64 := by
  have hgood : eptGood 3 0x400000b7#64 := fun _ _ _ => by decide
  have htables := emptyEptMachine_tables eptGrows_eptGood.zero
  have hstop : eptMissing emptyEptMachine.mem 0x1000#64 0#64 3 = 1 := rfl
  obtain ⟨s, taken, rest, hfirst, h, hperm, hinst⟩ :=
    htables.install eptGrows_eptGood (by decide : 1 ≤ 3) (by decide)
      (by decide : (0#64).toNat < 2 ^ 48) (by decide : eptChild 3 0x400000b7#64 = none) hgood
      (leafAbove_true 3) (Or.inl rfl) (Or.inl (by rw [hstop]; decide))
  have hlength := (hperm rfl).length_eq
  have hcount : taken.length = 1 := hinst.count
  have henough : eptMissing s.mem 0x1000#64 0x5000#64 1 ≤ rest.length := by
    obtain ⟨path, -, -, htarget⟩ := hinst.reads_target
    have hstop' := htarget Nat stopLevel 0x5000#64 fun k hk _ =>
      tableIndex_eq_of_div_eq hk (by decide)
    rw [Reading.climb_of_node_eq fun _ _ _ => rfl] at hstop'
    rw [eptMissing, hstop']
    change 3 - 1 ≤ rest.length
    simp only [List.length_append, List.length_cons, List.length_nil] at hlength
    omega
  obtain ⟨s', hinstall, htarget, hother⟩ :=
    installEpt_maps h.wf (by decide : (0x5000#64).toNat < 2 ^ 48)
    (by decide : PhysPage 0x7000#64) (by decide : 0x37#64 &&& EPT_ADDR_MASK = 0#64) h.list
    (fun p hp => ⟨h.phys p hp, h.apart p hp⟩) henough
  refine ⟨s, s', hfirst, hinstall, ?_, hother _ (by decide)⟩
  exact (htarget 0x5123#64 (by decide)).1

end AcrnGuest
