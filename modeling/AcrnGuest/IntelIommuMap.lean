import AcrnGuest.IntelIommuTables
import Mathlib.Data.Finset.Card
import Mathlib.Data.Finset.Union

/-!
# Histories of `vtd_map_range` calls

All tables come from one pool of pages. A `VtdView` says which page plays which role:
the root table, the context table of a bus, the second-level tables of a source id, or
a free page. `VtdView.Tables` states that memory agrees with the view and that no page
has two roles; every step of `vtd_map_range` gives the pages it takes to one role and
leaves the memory of the others alone (`Tables.grow`). The translation of a source id
only reads the pages of its own roles, so the last call that covers an address
decides, and calls for other source ids do not matter.
-/

namespace AcrnGuest

open Radix

/-! ### Entries of the two upper tables -/

theorem toNat_setWidth_lt (i : BitVec 8) : (i.setWidth 64).toNat < 256 := by
  have := i.isLt
  rw [BitVec.toNat_setWidth]
  omega

theorem pageOf_of_inEntry_busEntry {table a : Word} {i : BitVec 8} (htable : IsPage table)
    (ha : InEntry (busEntry table i) a) : pageOf a = table :=
  pageOf_of_inEntry htable (toNat_setWidth_lt i) ha

theorem eq_of_inEntry_busEntry {table a : Word} {i j : BitVec 8} (hi : InEntry (busEntry table i) a)
    (hj : InEntry (busEntry table j) a) : i = j := by
  have hlt := fun k : BitVec 8 => Nat.lt_trans (toNat_setWidth_lt k) (by decide : 256 < 2 ^ 59)
  have hnat := congrArg BitVec.toNat (eq_of_inEntry (hlt i) (hlt j) hi hj)
  have := i.isLt
  have := j.isLt
  simp only [BitVec.toNat_setWidth] at hnat
  apply BitVec.eq_of_toNat_eq
  omega

theorem sid_eq {a b : BitVec 16} (hbus : busOf a = busOf b) (hdevfn : devfnOf a = devfnOf b) :
    a = b := by
  have hb := congrArg BitVec.toNat hbus
  have hd := congrArg BitVec.toNat hdevfn
  simp only [busOf, devfnOf, BitVec.toNat_setWidth, BitVec.toNat_ushiftRight,
    Nat.shiftRight_eq_div_pow] at hb hd
  have := a.isLt
  have := b.isLt
  apply BitVec.eq_of_toNat_eq
  omega

theorem pointer_field {p : Word} (hp : IsPage p) :
    ((p >>> VTD_PAGE_SHIFT) &&& GENMASK_ULL (52 - 1) 0) <<< VTD_PAGE_SHIFT = p := by
  rw [isPage_iff] at hp
  have := p.isLt
  apply BitVec.eq_of_toNat_eq
  rw [BitVec.toNat_shiftLeft, toNat_and_GENMASK_ULL _ (by omega), BitVec.toNat_ushiftRight,
    Nat.shiftRight_eq_div_pow, Nat.shiftLeft_eq, VTD_PAGE_SHIFT, PAGE_SHIFT]
  omega

/-- A root entry that points to the given context table, if there is one. -/
def RootEntry (m : Mem) (re : Word) : Option Word → Prop
  | none => VtdRootEntry.present.get m re = 0#64
  | some c => VtdRootEntry.present.get m re ≠ 0#64 ∧
      VtdRootEntry.contextTableP.get m re <<< VTD_PAGE_SHIFT = c

/-- A context entry that points to the given second-level table, if there is one. -/
def ContextEntry (m : Mem) (ce : Word) : Option Word → Prop
  | none => VtdContextEntry.present.get m ce = 0#64
  | some p => VtdContextEntry.present.get m ce ≠ 0#64 ∧
      VtdContextEntry.transType.get m ce = VTD_CONTEXT_TT_MULTI_LEVEL ∧
      VtdContextEntry.addrWidth.get m ce = VTD_CE_AW_39BIT ∧
      VtdContextEntry.slptptr.get m ce <<< VTD_PAGE_SHIFT = p

section Congr

variable {m m' : Mem} {entry : Word} {o : Option Word}

theorem get_congr_entry (hagree : ∀ a, InEntry entry a → m' a = m a) (f : BitField)
    (hquad : f.quad < 2) :
    f.get m' entry = f.get m entry :=
  BitField.get_congr (hagree _ (inEntry_addr entry f hquad))

theorem RootEntry.congr (h : RootEntry m entry o) (hagree : ∀ a, InEntry entry a → m' a = m a) :
    RootEntry m' entry o := by
  have hfield := get_congr_entry hagree
  cases o with
  | none => exact (hfield _ (by decide)).trans h
  | some c =>
      obtain ⟨hpresent, hpointer⟩ := h
      refine ⟨?_, ?_⟩
      · rw [hfield _ (by decide)]
        exact hpresent
      · rw [hfield _ (by decide)]
        exact hpointer

theorem ContextEntry.congr (h : ContextEntry m entry o)
    (hagree : ∀ a, InEntry entry a → m' a = m a) :
    ContextEntry m' entry o := by
  have hfield := get_congr_entry hagree
  cases o with
  | none => exact (hfield _ (by decide)).trans h
  | some p =>
      obtain ⟨hpresent, htype, hwidth, hpointer⟩ := h
      refine ⟨?_, ?_, ?_, ?_⟩
      · rw [hfield _ (by decide)]
        exact hpresent
      · rw [hfield _ (by decide)]
        exact htype
      · rw [hfield _ (by decide)]
        exact hwidth
      · rw [hfield _ (by decide)]
        exact hpointer

theorem contextEntry_of_zero (hzero : ∀ a, InEntry entry a → m a = 0#64) :
    ContextEntry m entry none :=
  BitField.get_of_zero (hzero _ (inEntry_addr entry _ (by decide)))

end Congr

section Filled

variable (m : Mem) (sid : BitVec 16) (entry : Word) {a q : Word}

theorem fillRootEntry_of_not_inEntry (h : ¬ InEntry entry a) : fillRootEntry m entry q a = m a := by
  unfold fillRootEntry
  iterate 2 rw [set_of_not_inEntry h _ (by decide)]
  exact if_neg h

theorem fillContextEntry_of_not_inEntry (h : ¬ InEntry entry a) :
    fillContextEntry m sid entry q a = m a := by
  unfold fillContextEntry
  iterate 6 rw [set_of_not_inEntry h _ (by decide)]
  exact if_neg h

theorem rootEntry_fillRootEntry (hq : IsPage q) :
    RootEntry (fillRootEntry m entry q) entry (some q) := by
  unfold fillRootEntry
  refine ⟨?_, ?_⟩
  · rw [BitField.get_set_self]
    decide
  · rw [BitField.get_set_of_apart (by decide), BitField.get_set_self]
    exact pointer_field hq

theorem contextEntry_fillContextEntry (hq : IsPage q) :
    ContextEntry (fillContextEntry m sid entry q) entry (some q) := by
  unfold fillContextEntry
  refine ⟨?_, ?_, ?_, ?_⟩
  · rw [BitField.get_set_of_apart (by decide), BitField.get_set_self]
    decide
  · iterate 2 rw [BitField.get_set_of_apart (by decide)]
    rw [BitField.get_set_self]
    decide
  · iterate 4 rw [BitField.get_set_of_apart (by decide)]
    rw [BitField.get_set_self]
    decide
  · iterate 3 rw [BitField.get_set_of_apart (by decide)]
    rw [BitField.get_set_self]
    exact pointer_field hq

end Filled

/-! ### Roles of pages -/

/-- A table that `vtd_map_range` creates: the context table of a bus, the top table of
    a source id, and its tables for a gigabyte and for two megabytes. -/
inductive VtdTable where
  | context (bus : BitVec 8)
  | second (sid : BitVec 16)
  | directory (sid : BitVec 16) (gib : Nat)
  | leaves (sid : BitVec 16) (mib : Nat)
deriving DecidableEq

/-- The tables that the walk of an address needs below the top table. -/
def pageTables (sid : BitVec 16) (iova : Nat) : Finset VtdTable :=
  {.directory sid (iova / 2 ^ 30), .leaves sid (iova / 2 ^ 21)}

structure VtdView where
  root : Word
  context : BitVec 8 → Option Word
  second : BitVec 16 → Option Word
  free : List Word
  built : Finset VtdTable

inductive VtdRole where
  | root
  | context (bus : BitVec 8)
  | second (sid : BitVec 16)
deriving DecidableEq

namespace VtdView

/-- The level at which the walk of a source id ends, by the tables built so far. -/
def stop (w : VtdView) (sid : BitVec 16) (iova : Word) : Nat :=
  if .leaves sid (iova.toNat / 2 ^ 21) ∈ w.built then 1
  else if .directory sid (iova.toNat / 2 ^ 30) ∈ w.built then 2
  else 3

def pages (w : VtdView) (m : Mem) : VtdRole → Set Word
  | .root => {w.root}
  | .context bus => {c | w.context bus = some c}
  | .second sid => {q | ∃ p, w.second sid = some p ∧ q ∈ vtd.pages m VTD_PAGE_LEVEL p}

/-- What memory holds in the pages of a role. -/
def Holds (w : VtdView) (m : Mem) : VtdRole → Prop
  | .root => IsPage w.root ∧ ∀ bus, RootEntry m (busEntry w.root bus) (w.context bus)
  | .context bus => ∀ c, w.context bus = some c → IsPage c ∧
      ∀ sid, busOf sid = bus → ContextEntry m (busEntry c (devfnOf sid)) (w.second sid)
  | .second sid => ∀ p, w.second sid = some p → vtd.WF vtdSmall m VTD_PAGE_LEVEL p ∧
      ∀ iova : Word, iova.toNat < 2 ^ 39 →
        vtd.eval stopLevel m VTD_PAGE_LEVEL p iova = w.stop sid iova

/-- The tables built so far are those that the view knows. -/
structure Ledger (w : VtdView) : Prop where
  linked : ∀ sid p, w.second sid = some p → ∃ c, w.context (busOf sid) = some c
  context : ∀ bus, .context bus ∈ w.built ↔ w.context bus ≠ none
  second : ∀ sid, .second sid ∈ w.built ↔ w.second sid ≠ none
  below : ∀ sid n, w.second sid = none → .directory sid n ∉ w.built ∧ .leaves sid n ∉ w.built
  nested : ∀ sid n, .leaves sid n ∈ w.built → .directory sid (n / 512) ∈ w.built

/-- Memory agrees with the view, and no page has two roles. -/
structure Tables (w : VtdView) (s : Machine) : Prop where
  supply : Supply (s, 0#64) w.free
  holds : ∀ r, w.Holds s.mem r
  apart : ∀ r r' q, q ∈ w.pages s.mem r → q ∈ w.pages s.mem r' → r = r'
  fresh : ∀ r, ∀ q ∈ w.free, q ∉ w.pages s.mem r
  ledger : w.Ledger

/-- The translation by the second-level tables of the view. -/
def translate (w : VtdView) (m : Mem) (sid : BitVec 16) (iova : Word) : Option DmaMapping :=
  (w.second sid).bind fun p => secondLevel m p iova

/-- The IOMMU finds the tables of the view. -/
theorem Tables.dmaTranslate {w : VtdView} {v : Iommu} (h : w.Tables v.machine)
    (hroot : vtdRootTable v = w.root) (sid : BitVec 16) (iova : Word) :
    dmaTranslate v sid iova = w.translate v.machine.mem sid iova := by
  have hre := (h.holds .root).2 (busOf sid)
  rw [AcrnGuest.dmaTranslate, hroot, translate]
  dsimp only
  cases hcontext : w.context (busOf sid) with
  | none =>
      rw [hcontext] at hre
      have hsecond : w.second sid = none := by
        by_contra hne
        obtain ⟨p, hp⟩ := Option.ne_none_iff_exists'.mp hne
        obtain ⟨c, hc⟩ := h.ledger.linked sid p hp
        exact Option.some_ne_none c (hc.symm.trans hcontext)
      have habsent : VtdRootEntry.present.get v.machine.mem (busEntry w.root (busOf sid)) =
          0#64 := hre
      rw [if_pos habsent, hsecond, Option.bind_none]
  | some c =>
      rw [hcontext] at hre
      obtain ⟨hpresent, hpointer⟩ := hre
      have hce := (h.holds (.context (busOf sid)) c hcontext).2 sid rfl
      rw [if_neg hpresent, hpointer]
      cases hsecond : w.second sid with
      | none =>
          rw [hsecond] at hce
          exact if_pos hce
      | some p =>
          rw [hsecond] at hce
          obtain ⟨hpresent', htype, hwidth, hpointer'⟩ := hce
          rw [if_neg hpresent', if_neg (not_not.mpr htype), if_neg (not_not.mpr hwidth), hpointer',
            Option.bind_some]

/-! ### Roles that a step does not touch -/

variable {w w' : VtdView} {m m' : Mem} {s s' : Machine}

def SameFor (w w' : VtdView) : VtdRole → Prop
  | .root => w'.root = w.root ∧ w'.context = w.context
  | .context bus =>
    w'.context bus = w.context bus ∧ ∀ sid, busOf sid = bus → w'.second sid = w.second sid
  | .second sid => w'.second sid = w.second sid ∧ ∀ iova, w'.stop sid iova = w.stop sid iova

/-- What holds of a role only depends on its pages. -/
theorem holds_congr {r : VtdRole} (h : w.Holds m r) (hsame : w.SameFor w' r)
    (hagree : ∀ a, pageOf a ∈ w.pages m r → m' a = m a) :
    w'.Holds m' r ∧ w'.pages m' r = w.pages m r := by
  cases r with
  | root =>
      obtain ⟨hroot, hcontext⟩ := hsame
      obtain ⟨hpage, hentries⟩ := h
      refine ⟨⟨?_, fun bus => ?_⟩, ?_⟩
      · rwa [hroot]
      · rw [hroot, hcontext]
        exact (hentries bus).congr fun a ha => hagree a (pageOf_of_inEntry_busEntry hpage ha)
      · simp only [pages, hroot]
  | context bus =>
      obtain ⟨hcontext, hsecond⟩ := hsame
      refine ⟨fun c hc => ?_, ?_⟩
      · rw [hcontext] at hc
        obtain ⟨hpage, hentries⟩ := h c hc
        refine ⟨hpage, fun sid hsid => ?_⟩
        rw [hsecond sid hsid]
        refine (hentries sid hsid).congr fun a ha => hagree a ?_
        rw [pageOf_of_inEntry_busEntry hpage ha]
        exact hc
      · simp only [pages, hcontext]
  | second sid =>
      obtain ⟨hsecond, hstop⟩ := hsame
      have hbelow : ∀ p, w.second sid = some p →
          ∀ a, pageOf a ∈ vtd.pages m VTD_PAGE_LEVEL p → m' a = m a :=
        fun p hp a ha => hagree a ⟨p, hp, ha⟩
      refine ⟨fun p hp => ?_, ?_⟩
      · rw [hsecond] at hp
        obtain ⟨hwf, hstops⟩ := h p hp
        refine ⟨hwf.congr (hbelow p hp), fun iova hiova => ?_⟩
        rw [hwf.eval_congr (hbelow p hp), hstops iova hiova, hstop]
      · ext q
        simp only [pages, hsecond, Set.mem_ofPred_eq]
        refine exists_congr fun p => and_congr_right fun hp => ?_
        rw [(h p hp).1.pages_congr (hbelow p hp)]

theorem translate_congr {sid : BitVec 16} (h : w.Holds m (.second sid))
    (hsecond : w'.second sid = w.second sid)
    (hagree : ∀ a, pageOf a ∈ w.pages m (.second sid) → m' a = m a) (iova : Word) :
    w'.translate m' sid iova = w.translate m sid iova := by
  rw [translate, translate, hsecond]
  cases hp : w.second sid with
  | none => rfl
  | some p =>
      simp only [Option.bind_some, secondLevel]
      rw [(h p hp).1.eval_congr fun a ha => hagree a ⟨p, hp, ha⟩]

/-- **Growth.** A step that gives all pages it takes to one role keeps the roles apart. -/
theorem Tables.grow (h : w.Tables s) (grown : VtdRole) (taken : List Word)
    (hsplit : w.free.Perm (taken ++ w'.free)) (hsupply : Supply (s', 0#64) w'.free)
    (hholds : ∀ r, w'.Holds s'.mem r)
    (hpages : ∀ r q, q ∈ w'.pages s'.mem r → q ∈ w.pages s.mem r ∨ r = grown ∧ q ∈ taken)
    (hledger : w'.Ledger) : w'.Tables s' := by
  have htaken : ∀ q ∈ taken, q ∈ w.free := fun q hq =>
    hsplit.mem_iff.mpr (List.mem_append_left _ hq)
  refine ⟨hsupply, hholds, fun r r' q hq hq' => ?_, fun r q hfree hq => ?_, hledger⟩
  · rcases hpages r q hq with hold | ⟨hr, hnew⟩
    · rcases hpages r' q hq' with hold' | ⟨-, hnew'⟩
      · exact h.apart r r' q hold hold'
      · exact (h.fresh r q (htaken q hnew') hold).elim
    · rcases hpages r' q hq' with hold' | ⟨hr', -⟩
      · exact (h.fresh r' q (htaken q hnew) hold').elim
      · exact hr.trans hr'.symm
  · rcases hpages r q hq with hold | ⟨-, hnew⟩
    · exact h.fresh r q (hsplit.mem_iff.mpr (List.mem_append_right _ hfree)) hold
    · have hnodup := hsplit.nodup_iff.mp h.supply.nodup
      exact (List.nodup_append'.mp hnodup).2.2 hnew hfree

/-- The pool pays for all tables in `needed`. -/
structure Funded (needed : Finset VtdTable) (w : VtdView) : Prop where
  subset : w.built ⊆ needed
  count : needed.card ≤ w.built.card + w.free.length

/-- Taking a page for every table that was missing. -/
theorem Funded.step {needed add : Finset VtdTable} (h : w.Funded needed) (hadd : add ⊆ needed)
    (hbuilt : w'.built = w.built ∪ add)
    (hcount : w.built.card + w.free.length = w'.built.card + w'.free.length) :
    w'.Funded needed where
  subset := by
    rw [hbuilt]
    exact Finset.union_subset h.subset hadd
  count := hcount ▸ h.count

theorem Funded.missing {needed add : Finset VtdTable} (h : w.Funded needed) (hadd : add ⊆ needed) :
    (w.built ∪ add).card ≤ w.built.card + w.free.length :=
  (Finset.card_le_card (Finset.union_subset h.subset hadd)).trans h.count

/-! ### Creating a table below an entry -/

/-- A fresh page was cleared and the entry was filled; nothing else has changed. -/
structure Created (s : Machine) (entry q : Word) (m' : Mem) : Prop where
  isPage : IsPage q
  zero : ∀ a, pageOf a = q → m' a = 0#64
  frame : ∀ a, pageOf a ≠ q → ¬ InEntry entry a → m' a = s.mem a

/-- The code clears the first free page and fills the entry. -/
theorem Tables.create (h : w.Tables s) {r : VtdRole} {table entry : Word}
    (htable : table ∈ w.pages s.mem r) (hentry : ∀ a, InEntry entry a → pageOf a = table)
    (hne : w.free ≠ []) :
    ∃ q rest, w.free = q :: rest ∧ allocPage s = (q, { s with freelist := s.mem q }) ∧ IsPage q ∧
      q ≠ table ∧ ∀ m', (∀ a, ¬ InEntry entry a → m' a = memset s.mem q 0#8 PAGE_SIZE a) →
        Created s entry q m' ∧ Supply ({ mem := m', freelist := s.mem q }, 0#64) rest := by
  obtain ⟨q, rest, hfree⟩ := List.exists_cons_of_ne_nil hne
  have hlist : FreeList s (q :: rest) := hfree ▸ h.supply.freeList
  obtain ⟨halloc, hlist'⟩ := allocPage_cons hlist
  have hq : IsPage q := hlist.isPage q List.mem_cons_self
  have hqTable : q ≠ table := by
    rintro rfl
    exact h.fresh r q (hfree ▸ List.mem_cons_self) htable
  refine ⟨q, rest, hfree, halloc, hq, hqTable, fun m' hm' => ?_⟩
  have houtside : ∀ a, ¬ InEntry entry a → m' a = if pageOf a = q then 0#64 else s.mem a := by
    intro a ha
    rw [hm' a ha, memset_zero_page hq]
  have hcreated : Created s entry q m' := by
    refine ⟨hq, fun a ha => ?_, fun a ha hin => ?_⟩
    · rw [houtside a fun hin => hqTable (ha.symm.trans (hentry a hin)), if_pos ha]
    · rw [houtside a hin, if_neg ha]
  have hphys : ∀ p ∈ rest, PhysPage p := fun p hp =>
    h.supply.phys p (hfree ▸ List.mem_cons_of_mem _ hp)
  refine ⟨hcreated, Supply.of_freeList (hlist'.frame rfl fun p hp => ?_) hphys⟩
  have hpage : pageOf p = p := (hphys p hp).isPage
  refine hcreated.frame p ?_ fun hin => ?_
  · rw [hpage]
    rintro rfl
    exact (List.nodup_cons.mp hlist.nodup).1 hp
  · rw [hentry p hin] at hpage
    exact h.fresh r p (hfree ▸ List.mem_cons_of_mem _ hp) (hpage ▸ htable)

/-- The other roles do not see the new table. -/
theorem Created.agree {entry q table : Word} {r r' : VtdRole} (hcreated : Created s entry q m')
    (h : w.Tables s) (hq : q ∈ w.free) (htable : table ∈ w.pages s.mem r)
    (hentry : ∀ a, InEntry entry a → pageOf a = table) (hr : r' ≠ r) :
    ∀ a, pageOf a ∈ w.pages s.mem r' → m' a = s.mem a := by
  intro a ha
  refine hcreated.frame a ?_ fun hin => hr ?_
  · intro heq
    rw [heq] at ha
    exact h.fresh r' q hq ha
  · rw [hentry a hin] at ha
    exact h.apart r' r table ha htable

/-- **A new table.** The page `q` becomes the table of `child`, below an entry of `parent`;
    every other role is as it was. -/
theorem Tables.link {parent child : VtdRole} {entry table q : Word} (h : w.Tables s)
    (htable : table ∈ w.pages s.mem parent) (hentry : ∀ a, InEntry entry a → pageOf a = table)
    (hfree : w.free = q :: w'.free) (hcreated : Created s entry q m')
    (hsupply : Supply ({ mem := m', freelist := s.mem q }, 0#64) w'.free)
    (hother : ∀ r, r ≠ parent → r ≠ child → w.SameFor w' r)
    (hparent : w'.Holds m' parent ∧ w'.pages m' parent = w.pages s.mem parent)
    (hchild : w'.Holds m' child ∧ w'.pages m' child = {q}) (hledger : w'.Ledger) :
    w'.Tables { mem := m', freelist := s.mem q } := by
  have hq : q ∈ w.free := hfree ▸ List.mem_cons_self
  have hkept := fun r hr hrc =>
    holds_congr (h.holds r) (hother r hr hrc) (hcreated.agree h hq htable hentry hr)
  refine h.grow child [q] ?_ hsupply (fun r => ?_) (fun r x hx => ?_) hledger
  · rw [hfree]
    rfl
  · by_cases hr : r = parent
    · exact hr ▸ hparent.1
    · by_cases hrc : r = child
      · exact hrc ▸ hchild.1
      · exact (hkept r hr hrc).1
  · by_cases hr : r = parent
    · subst hr
      exact Or.inl (hparent.2 ▸ hx)
    · by_cases hrc : r = child
      · subst hrc
        have hxq : x ∈ ({q} : Set Word) := hchild.2 ▸ hx
        exact Or.inr ⟨rfl, List.mem_singleton.mpr hxq⟩
      · exact Or.inl ((hkept r hr hrc).2 ▸ hx)

/-! ### The two upper levels -/

/-- A step that keeps every translation. -/
structure Opens (needed : Finset VtdTable) (w : VtdView) (s : Machine) (w' : VtdView)
    (s' : Machine) :
    Prop where
  tables : w'.Tables s'
  funded : w'.Funded needed
  root : w'.root = w.root
  reads : ∀ sid iova, w'.translate s'.mem sid iova = w.translate s.mem sid iova

theorem stop_congr {sid : BitVec 16} (hleaves : ∀ n, .leaves sid n ∈ w'.built ↔
    .leaves sid n ∈ w.built)
    (hdirectory : ∀ n, .directory sid n ∈ w'.built ↔ .directory sid n ∈ w.built) (iova : Word) :
    w'.stop sid iova = w.stop sid iova := by
  simp only [stop, hleaves, hdirectory]

/-- A table that is missing is paid for by a free page. -/
theorem Funded.free_ne_nil {needed : Finset VtdTable} {t : VtdTable} (h : w.Funded needed)
    (ht : t ∈ needed) (hnew : t ∉ w.built) : w.free ≠ [] := by
  have hmissing := h.missing (Finset.singleton_subset_iff.mpr ht)
  rw [Finset.union_singleton, Finset.card_insert_of_notMem hnew] at hmissing
  rintro hnil
  rw [hnil, List.length_nil] at hmissing
  omega

theorem Funded.insert {needed : Finset VtdTable} {t : VtdTable} {q : Word} (h : w.Funded needed)
    (ht : t ∈ needed) (hnew : t ∉ w.built) (hbuilt : w'.built = Insert.insert t w.built)
    (hfree : w.free = q :: w'.free) : w'.Funded needed := by
  refine h.step (Finset.singleton_subset_iff.mpr ht)
    (hbuilt.trans (Finset.union_singleton ..).symm) ?_
  rw [hbuilt, Finset.card_insert_of_notMem hnew, hfree, List.length_cons]
  omega

def addContext (w : VtdView) (bus : BitVec 8) (q : Word) (rest : List Word) : VtdView :=
  { w with
    context := Function.update w.context bus (some q)
    free := rest
    built := Insert.insert (.context bus) w.built }

theorem addContext_context_self (w : VtdView) (bus : BitVec 8) (q : Word) (rest : List Word) :
    (w.addContext bus q rest).context bus = some q := Function.update_self _ _ _

theorem addContext_context_of_ne {bus b : BitVec 8} (hb : b ≠ bus) (w : VtdView) (q : Word)
    (rest : List Word) : (w.addContext bus q rest).context b = w.context b :=
  Function.update_of_ne hb _ _

theorem Ledger.addContext (h : w.Ledger) (bus : BitVec 8) (q : Word) (rest : List Word) :
    (w.addContext bus q rest).Ledger where
  linked sid p hp := by
    obtain ⟨c, hc⟩ := h.linked sid p hp
    by_cases hbus : busOf sid = bus
    · exact ⟨q, hbus ▸ addContext_context_self w bus q rest⟩
    · exact ⟨c, (addContext_context_of_ne hbus w q rest).trans hc⟩
  context b := by
    simp only [VtdView.addContext, Finset.mem_insert, VtdTable.context.injEq, h.context b]
    by_cases hb : b = bus
    · simp [hb]
    · simp [hb]
  second sid := by simp [VtdView.addContext, h.second sid]
  below sid n hnone := by simpa [VtdView.addContext] using h.below sid n hnone
  nested sid n := by simpa [VtdView.addContext] using h.nested sid n

theorem Tables.addContext {needed : Finset VtdTable} {bus : BitVec 8} {q : Word} {rest : List Word}
    (h : w.Tables s) (hfund : w.Funded needed) (hneed : .context bus ∈ needed)
    (hbus : w.context bus = none) (hfree : w.free = q :: rest)
    (hcreated : Created s (busEntry w.root bus) q m')
    (hsupply : Supply ({ mem := m', freelist := s.mem q }, 0#64) rest)
    (hfilled : RootEntry m' (busEntry w.root bus) (some q)) :
    w.Opens needed s (w.addContext bus q rest) { mem := m', freelist := s.mem q } := by
  obtain ⟨hrootPage, hentries⟩ := h.holds .root
  have hinPage := fun a (ha : InEntry (busEntry w.root bus) a) =>
    pageOf_of_inEntry_busEntry hrootPage ha
  have hrootMem : w.root ∈ w.pages s.mem .root := rfl
  have hqFree : q ∈ w.free := hfree ▸ List.mem_cons_self
  have hqRoot : w.root ≠ q := fun heq => h.fresh .root q hqFree (heq ▸ hrootMem)
  have hagree := fun r (hr : r ≠ VtdRole.root) => hcreated.agree h hqFree hrootMem hinPage hr
  have hother : ∀ r, r ≠ .root → r ≠ .context bus → w.SameFor (w.addContext bus q rest) r := by
    intro r hr hrbus
    cases r with
    | root => exact (hr rfl).elim
    | context b =>
        have hb : b ≠ bus := fun heq => hrbus (heq ▸ rfl)
        exact ⟨addContext_context_of_ne hb w q rest, fun _ _ => rfl⟩
    | second sid =>
      exact ⟨rfl, stop_congr (by simp [VtdView.addContext]) (by simp [VtdView.addContext])⟩
  -- The other root entries are not touched.
  have hroot : (w.addContext bus q rest).Holds m' .root := by
    refine ⟨hrootPage, fun b => ?_⟩
    by_cases hb : b = bus
    · rw [hb, addContext_context_self]
      exact hfilled
    · rw [addContext_context_of_ne hb]
      refine (hentries b).congr fun a ha => hcreated.frame a ?_ fun hin => ?_
      · rw [pageOf_of_inEntry_busEntry hrootPage ha]
        exact hqRoot
      · exact hb (eq_of_inEntry_busEntry ha hin)
  -- The new context table is empty.
  have hcontext : (w.addContext bus q rest).Holds m' (.context bus) := by
    intro c hc
    obtain rfl : q = c := Option.some.inj ((addContext_context_self w bus q rest).symm.trans hc)
    refine ⟨hcreated.isPage, fun sid hsid => ?_⟩
    have hnone : w.second sid = none := by
      by_contra hne
      obtain ⟨p, hp⟩ := Option.ne_none_iff_exists'.mp hne
      obtain ⟨c', hc'⟩ := h.ledger.linked sid p hp
      rw [hsid, hbus] at hc'
      exact Option.some_ne_none c' hc'.symm
    change ContextEntry m' _ (w.second sid)
    rw [hnone]
    exact contextEntry_of_zero fun a ha =>
      hcreated.zero a (pageOf_of_inEntry_busEntry hcreated.isPage ha)
  have hpages : (w.addContext bus q rest).pages m' (.context bus) = {q} := by
    ext x
    change (w.addContext bus q rest).context bus = some x ↔ x = q
    rw [addContext_context_self, Option.some_inj, eq_comm]
  refine ⟨h.link hrootMem hinPage hfree hcreated hsupply hother ⟨hroot, rfl⟩ ⟨hcontext, hpages⟩
    (h.ledger.addContext bus q rest), ?_, rfl, fun sid iova => ?_⟩
  · exact hfund.insert hneed (fun hin => (h.ledger.context bus).mp hin hbus) rfl hfree
  · exact translate_congr (h.holds (.second sid)) rfl (hagree _ (by simp)) iova

/-- **The context table of a bus** is there after the root entry was opened. -/
theorem Tables.openRootEntry {needed : Finset VtdTable} (h : w.Tables s) (hfund : w.Funded needed)
    (bus : BitVec 8) (hneed : .context bus ∈ needed) :
    ∃ w', w.Opens needed s w' (openRootEntry s (busEntry w.root bus)).2 ∧
      w'.context bus = some (AcrnGuest.openRootEntry s (busEntry w.root bus)).1 := by
  obtain ⟨hrootPage, hentries⟩ := h.holds .root
  have hentry := hentries bus
  cases hbus : w.context bus with
  | some c =>
      rw [hbus] at hentry
      obtain ⟨hpresent, hpointer⟩ := hentry
      have hopen : AcrnGuest.openRootEntry s (busEntry w.root bus) = (c, s) := by
        rw [AcrnGuest.openRootEntry, if_neg hpresent, hpointer]
        rfl
      rw [hopen]
      exact ⟨w, ⟨h, hfund, rfl, fun _ _ => rfl⟩, hbus⟩
  | none =>
      rw [hbus] at hentry
      have habsent : VtdRootEntry.present.get s.mem (busEntry w.root bus) = 0#64 := hentry
      have hnew : VtdTable.context bus ∉ w.built := fun hin => (h.ledger.context bus).mp hin hbus
      have hrootMem : w.root ∈ w.pages s.mem .root := rfl
      obtain ⟨q, rest, hfree, halloc, hq, -, hcreate⟩ := h.create hrootMem
        (fun a ha => pageOf_of_inEntry_busEntry hrootPage ha) (hfund.free_ne_nil hneed hnew)
      have hopen : AcrnGuest.openRootEntry s (busEntry w.root bus) =
          (q, ⟨fillRootEntry (memset s.mem q 0#8 PAGE_SIZE) (busEntry w.root bus) q, s.mem q⟩) := by
        rw [AcrnGuest.openRootEntry, if_pos habsent, halloc]
      obtain ⟨hcreated, hsupply⟩ :=
        hcreate (fillRootEntry (memset s.mem q 0#8 PAGE_SIZE) (busEntry w.root bus) q)
          fun a ha => fillRootEntry_of_not_inEntry _ _ ha
      rw [hopen]
      exact ⟨w.addContext bus q rest, h.addContext hfund hneed hbus hfree hcreated hsupply
        (rootEntry_fillRootEntry _ _ hq), addContext_context_self w bus q rest⟩

def addSecond (w : VtdView) (sid : BitVec 16) (q : Word) (rest : List Word) : VtdView :=
  { w with
    second := Function.update w.second sid (some q)
    free := rest
    built := Insert.insert (.second sid) w.built }

theorem addSecond_second_self (w : VtdView) (sid : BitVec 16) (q : Word) (rest : List Word) :
    (w.addSecond sid q rest).second sid = some q := Function.update_self _ _ _

theorem addSecond_second_of_ne {sid sid' : BitVec 16} (hsid : sid' ≠ sid) (w : VtdView) (q : Word)
    (rest : List Word) : (w.addSecond sid q rest).second sid' = w.second sid' :=
  Function.update_of_ne hsid _ _

theorem addSecond_stop (w : VtdView) (sid : BitVec 16) (q : Word) (rest : List Word)
    (sid' : BitVec 16) (iova : Word) : (w.addSecond sid q rest).stop sid' iova = w.stop sid' iova :=
  stop_congr (by simp [addSecond]) (by simp [addSecond]) iova

theorem Ledger.addSecond (h : w.Ledger) {sid : BitVec 16} {c : Word}
    (hc : w.context (busOf sid) = some c) (q : Word) (rest : List Word) :
    (w.addSecond sid q rest).Ledger where
  linked sid' p hp := by
    by_cases hsid : sid' = sid
    · exact ⟨c, hsid ▸ hc⟩
    · exact h.linked sid' p ((addSecond_second_of_ne hsid w q rest).symm.trans hp)
  context b := by simp [VtdView.addSecond, h.context b]
  second sid' := by
    simp only [VtdView.addSecond, Finset.mem_insert, VtdTable.second.injEq, h.second sid']
    by_cases hsid : sid' = sid
    · simp [hsid]
    · simp [hsid]
  below sid' n hnone := by
    have hsid : sid' ≠ sid := by
      rintro rfl
      exact Option.some_ne_none q ((addSecond_second_self w sid' q rest).symm.trans hnone)
    simpa [VtdView.addSecond] using
      h.below sid' n ((addSecond_second_of_ne hsid w q rest).symm.trans hnone)
  nested sid' n := by simpa [VtdView.addSecond] using h.nested sid' n

/-- Without tables below the top table every walk ends there. -/
theorem Ledger.stop_of_none (h : w.Ledger) {sid : BitVec 16} (hnone : w.second sid = none)
    (iova : Word) :
    w.stop sid iova = VTD_PAGE_LEVEL := by
  rw [stop, if_neg (h.below sid _ hnone).2, if_neg (h.below sid _ hnone).1]
  rfl

theorem Tables.addSecond {needed : Finset VtdTable} {sid : BitVec 16} {c q : Word}
    {rest : List Word} (h : w.Tables s) (hfund : w.Funded needed) (hneed : .second sid ∈ needed)
    (hc : w.context (busOf sid) = some c) (hsid : w.second sid = none) (hfree : w.free = q :: rest)
    (hcreated : Created s (busEntry c (devfnOf sid)) q m')
    (hsupply : Supply ({ mem := m', freelist := s.mem q }, 0#64) rest)
    (hfilled : ContextEntry m' (busEntry c (devfnOf sid)) (some q)) :
    w.Opens needed s (w.addSecond sid q rest) { mem := m', freelist := s.mem q } := by
  obtain ⟨hcPage, hentries⟩ := h.holds (.context (busOf sid)) c hc
  have hinPage := fun a (ha : InEntry (busEntry c (devfnOf sid)) a) =>
    pageOf_of_inEntry_busEntry hcPage ha
  have hcMem : c ∈ w.pages s.mem (.context (busOf sid)) := hc
  have hqFree : q ∈ w.free := hfree ▸ List.mem_cons_self
  have hcq : c ≠ q := fun heq => h.fresh (.context (busOf sid)) q hqFree (heq ▸ hcMem)
  have hagree := fun r (hr : r ≠ VtdRole.context (busOf sid)) =>
    hcreated.agree h hqFree hcMem hinPage hr
  have hempty : EmptyTable m' q := ⟨hcreated.isPage, hcreated.zero⟩
  have hother : ∀ r, r ≠ .context (busOf sid) → r ≠ .second sid →
      w.SameFor (w.addSecond sid q rest) r := by
    intro r hr hrsid
    cases r with
    | root => exact ⟨rfl, rfl⟩
    | context b =>
        refine ⟨rfl, fun sid' hsid' => addSecond_second_of_ne ?_ w q rest⟩
        rintro rfl
        exact hr (hsid' ▸ rfl)
    | second sid' =>
        have hne : sid' ≠ sid := fun heq => hrsid (heq ▸ rfl)
        exact ⟨addSecond_second_of_ne hne w q rest, addSecond_stop w sid q rest sid'⟩
  -- The other entries of the context table are not touched.
  have hcontext : (w.addSecond sid q rest).Holds m' (.context (busOf sid)) := by
    intro c' hc'
    obtain rfl : c = c' := Option.some.inj (hc.symm.trans hc')
    refine ⟨hcPage, fun sid' hsid' => ?_⟩
    by_cases heq : sid' = sid
    · rw [heq, addSecond_second_self]
      exact hfilled
    · rw [addSecond_second_of_ne heq]
      refine (hentries sid' hsid').congr fun a ha => hcreated.frame a ?_ fun hin => ?_
      · rw [pageOf_of_inEntry_busEntry hcPage ha]
        exact hcq
      · exact heq (sid_eq hsid' (eq_of_inEntry_busEntry ha hin))
  -- The new table is empty.
  have hsecond : (w.addSecond sid q rest).Holds m' (.second sid) := by
    intro p hp
    obtain rfl : q = p := Option.some.inj ((addSecond_second_self w sid q rest).symm.trans hp)
    refine ⟨hempty.wf (vtdChild_zero _) (vtdSmall_zero _), fun iova _ => ?_⟩
    rw [addSecond_stop, h.ledger.stop_of_none hsid]
    exact hempty.eval (vtdChild_zero _) stopLevel iova
  have hpages : (w.addSecond sid q rest).pages m' (.second sid) = {q} := by
    have hbelow : vtd.pages m' VTD_PAGE_LEVEL q = {q} := hempty.pages (vtdChild_zero _)
    ext x
    simp [pages, addSecond_second_self, hbelow]
  refine ⟨h.link hcMem hinPage hfree hcreated hsupply hother ⟨hcontext, rfl⟩ ⟨hsecond, hpages⟩
    (h.ledger.addSecond hc q rest), ?_, rfl, fun sid' iova => ?_⟩
  · exact hfund.insert hneed (fun hin => (h.ledger.second sid).mp hin hsid) rfl hfree
  · by_cases heq : sid' = sid
    · subst heq
      have hnone : secondLevel m' q iova = none := by
        rw [secondLevel]
        split_ifs
        · exact hempty.eval (vtdChild_zero _) vtdLeaf iova
        · rfl
      rw [translate, addSecond_second_self, Option.bind_some, hnone, translate, hsid,
        Option.bind_none]
    · exact translate_congr (h.holds (.second sid')) (addSecond_second_of_ne heq w q rest)
        (hagree _ (by simp)) iova

/-- **The top table of a source id** is there after the context entry was opened. -/
theorem Tables.openContextEntry {needed : Finset VtdTable} {sid : BitVec 16} {c : Word}
    (h : w.Tables s) (hfund : w.Funded needed) (hc : w.context (busOf sid) = some c)
    (hneed : .second sid ∈ needed) :
    ∃ w', w.Opens needed s w' (openContextEntry s sid (busEntry c (devfnOf sid))).2 ∧
      w'.second sid = some (AcrnGuest.openContextEntry s sid (busEntry c (devfnOf sid))).1 := by
  obtain ⟨hcPage, hentries⟩ := h.holds (.context (busOf sid)) c hc
  have hentry := hentries sid rfl
  cases hsid : w.second sid with
  | some p =>
      rw [hsid] at hentry
      obtain ⟨hpresent, -, -, hpointer⟩ := hentry
      have hopen : AcrnGuest.openContextEntry s sid (busEntry c (devfnOf sid)) = (p, s) := by
        rw [AcrnGuest.openContextEntry, if_neg hpresent, hpointer]
        rfl
      rw [hopen]
      exact ⟨w, ⟨h, hfund, rfl, fun _ _ => rfl⟩, hsid⟩
  | none =>
      rw [hsid] at hentry
      have habsent : VtdContextEntry.present.get s.mem (busEntry c (devfnOf sid)) = 0#64 := hentry
      have hnew : VtdTable.second sid ∉ w.built := fun hin => (h.ledger.second sid).mp hin hsid
      have hcMem : c ∈ w.pages s.mem (.context (busOf sid)) := hc
      obtain ⟨q, rest, hfree, halloc, hq, -, hcreate⟩ := h.create hcMem
        (fun a ha => pageOf_of_inEntry_busEntry hcPage ha) (hfund.free_ne_nil hneed hnew)
      have hopen : AcrnGuest.openContextEntry s sid (busEntry c (devfnOf sid)) =
          (q, ⟨fillContextEntry (memset s.mem q 0#8 PAGE_SIZE) sid (busEntry c (devfnOf sid)) q,
            s.mem q⟩) := by
        rw [AcrnGuest.openContextEntry, if_pos habsent, halloc]
      obtain ⟨hcreated, hsupply⟩ :=
        hcreate (fillContextEntry (memset s.mem q 0#8 PAGE_SIZE) sid (busEntry c (devfnOf sid)) q)
          fun a ha => fillContextEntry_of_not_inEntry _ _ _ ha
      rw [hopen]
      exact ⟨w.addSecond sid q rest, h.addSecond hfund hneed hc hsid hfree hcreated hsupply
        (contextEntry_fillContextEntry _ _ _ hq), addSecond_second_self w sid q rest⟩

/-! ### One page -/

def addPage (w : VtdView) (sid : BitVec 16) (iova : Nat) (rest : List Word) : VtdView :=
  { w with
    free := rest
    built := w.built ∪ pageTables sid iova }

theorem leaves_mem_addPage {sid sid' : BitVec 16} {iova n : Nat} {rest : List Word} :
    .leaves sid' n ∈ (w.addPage sid iova rest).built ↔
      .leaves sid' n ∈ w.built ∨ sid' = sid ∧ n = iova / 2 ^ 21 := by
  simp [addPage, pageTables, or_comm]

theorem directory_mem_addPage {sid sid' : BitVec 16} {iova n : Nat} {rest : List Word} :
    .directory sid' n ∈ (w.addPage sid iova rest).built ↔
      .directory sid' n ∈ w.built ∨ sid' = sid ∧ n = iova / 2 ^ 30 := by
  simp [addPage, pageTables, or_comm]

theorem Ledger.addPage (h : w.Ledger) {sid : BitVec 16} {p : Word} (hp : w.second sid = some p)
    (iova : Nat) (rest : List Word) : (w.addPage sid iova rest).Ledger where
  linked := h.linked
  context b := by simp [VtdView.addPage, pageTables, h.context b]
  second sid' := by simp [VtdView.addPage, pageTables, h.second sid']
  below sid' n hnone := by
    have hsid : sid' ≠ sid := by
      rintro rfl
      exact Option.some_ne_none p (hp.symm.trans hnone)
    rw [leaves_mem_addPage, directory_mem_addPage]
    simpa [hsid] using h.below sid' n hnone
  nested sid' n hn := by
    rw [leaves_mem_addPage] at hn
    rw [directory_mem_addPage]
    rcases hn with hold | ⟨rfl, rfl⟩
    · exact Or.inl (h.nested sid' n hold)
    · exact Or.inr ⟨rfl, by omega⟩

/-- The walk ends one level higher for each table that is missing. -/
theorem Ledger.card_addPage (h : w.Ledger) (sid : BitVec 16) (iova : Word) :
    (w.built ∪ pageTables sid iova.toNat).card = w.built.card + (w.stop sid iova - 1) := by
  have hnested : .leaves sid (iova.toNat / 2 ^ 21) ∈ w.built →
      .directory sid (iova.toNat / 2 ^ 30) ∈ w.built := by
    intro hin
    have hdiv : iova.toNat / 2 ^ 21 / 512 = iova.toNat / 2 ^ 30 := by omega
    exact hdiv ▸ h.nested sid _ hin
  have hunion : w.built ∪ pageTables sid iova.toNat =
      Insert.insert (.directory sid (iova.toNat / 2 ^ 30))
        (Insert.insert (.leaves sid (iova.toNat / 2 ^ 21)) w.built) := by
    rw [pageTables, Finset.union_comm, Finset.insert_union, Finset.singleton_union]
  rw [hunion, stop]
  split_ifs with hleaves hdirectory
  · rw [Finset.insert_eq_of_mem hleaves, Finset.insert_eq_of_mem (hnested hleaves)]
    rfl
  · rw [Finset.insert_eq_of_mem (Finset.mem_insert_of_mem hdirectory),
      Finset.card_insert_of_notMem hleaves]
  · rw [Finset.card_insert_of_notMem, Finset.card_insert_of_notMem hleaves]
    rw [Finset.mem_insert, not_or]
    exact ⟨by simp, hdirectory⟩

/-- After the installation the walks of the page end at level 1, and the others at the
    level where they part from it, if not below. -/
theorem stop_addPage_self {sid : BitVec 16} {iova x : Word} {rest : List Word}
    (h : x.toNat / 2 ^ 21 = iova.toNat / 2 ^ 21) : (w.addPage sid iova.toNat rest).stop sid x = 1 :=
  if_pos (leaves_mem_addPage.mpr (Or.inr ⟨rfl, h⟩))

theorem stop_addPage_of_parting {sid : BitVec 16} {iova x : Word} {rest : List Word} {j : Nat}
    (hj : j = 3 ∧ x.toNat / 2 ^ 30 ≠ iova.toNat / 2 ^ 30 ∨
      j = 2 ∧ x.toNat / 2 ^ 30 = iova.toNat / 2 ^ 30 ∧ x.toNat / 2 ^ 21 ≠ iova.toNat / 2 ^ 21 ∨
      j = 1 ∧ x.toNat / 2 ^ 21 = iova.toNat / 2 ^ 21) :
    (w.addPage sid iova.toNat rest).stop sid x = min (w.stop sid x) j := by
  rcases hj with ⟨rfl, h30⟩ | ⟨rfl, h30, h21⟩ | ⟨rfl, h21⟩
  · have h21 : x.toNat / 2 ^ 21 ≠ iova.toNat / 2 ^ 21 := by omega
    simp only [stop, leaves_mem_addPage, directory_mem_addPage, h30, h21, and_false, or_false]
    split_ifs <;> rfl
  · simp only [stop, leaves_mem_addPage, directory_mem_addPage, h30, h21, and_false,
      or_false, and_self, or_true, if_true]
    split_ifs <;> rfl
  · rw [stop_addPage_self h21, stop]
    split_ifs <;> rfl

theorem ofNat_mod_of_pageOf {x iova : Word} (h : pageOf x = iova) :
    BitVec.ofNat 64 (x.toNat % 4096) = x - iova := by
  rw [pageOf_eq_iff] at h
  apply BitVec.eq_of_toNat_eq
  rw [BitVec.toNat_ofNat, BitVec.toNat_sub, ← h]
  have := x.isLt
  omega

section Install

variable {sid : BitVec 16} {p iova pa : Word} {taken rest : List Word}

/-- The other roles do not see an installation. -/
theorem Tables.agree_of_installed (h : w.Tables s) (hp : w.second sid = some p)
    (hsplit : w.free.Perm (taken ++ rest))
    (hinst : Installed vtd vtdSmall vtdLeaf s.mem m' 1 iova (vtdEntry pa) VTD_PAGE_LEVEL p taken)
    {r : VtdRole} (hr : r ≠ .second sid) : ∀ a, pageOf a ∈ w.pages s.mem r → m' a = s.mem a := by
  intro a ha
  refine hinst.frame a (fun hin => hr (h.apart _ _ _ ha ⟨p, hp, hin⟩)) fun htaken => ?_
  exact h.fresh r _ (hsplit.mem_iff.mpr (List.mem_append_left _ htaken)) ha

/-- The walks of the source id end where the ledger says. -/
theorem Tables.stops_of_installed (h : w.Tables s) (hp : w.second sid = some p)
    (hlow : iova.toNat < 2 ^ 39)
    (hinst : Installed vtd vtdSmall vtdLeaf s.mem m' 1 iova (vtdEntry pa) VTD_PAGE_LEVEL p taken)
    {x : Word} (hx : x.toNat < 2 ^ 39) :
    vtd.eval stopLevel m' VTD_PAGE_LEVEL p x = (w.addPage sid iova.toNat rest).stop sid x := by
  by_cases hpage : x.toNat / 4096 = iova.toNat / 4096
  · obtain ⟨path, -, -, htarget⟩ := hinst.reads_target
    rw [stop_addPage_self (by omega), htarget Nat stopLevel x fun k hk _ =>
      tableIndex_eq_of_div_eq hk hpage, Reading.climb_of_node_eq fun _ _ _ => rfl]
    rfl
  · obtain ⟨j, hj, hj3, hne, habove, hlevel⟩ := exists_parting_level hx hlow hpage
    rw [hinst.stops_other x j hj hj3 habove hne, (h.holds (.second sid) p hp).2 x hx,
      stop_addPage_of_parting hlevel]

theorem Tables.addPage (h : w.Tables s) (hp : w.second sid = some p) (hlow : iova.toNat < 2 ^ 39)
    (hsplit : w.free.Perm (taken ++ rest)) (hsupply : Supply (s', 0#64) rest)
    (hinst : Installed vtd vtdSmall vtdLeaf s.mem s'.mem 1 iova
      (vtdEntry pa) VTD_PAGE_LEVEL p taken) :
    (w.addPage sid iova.toNat rest).Tables s' := by
  have hother : ∀ r, r ≠ .second sid → w.SameFor (w.addPage sid iova.toNat rest) r := by
    intro r hr
    cases r with
    | root => exact ⟨rfl, rfl⟩
    | context b => exact ⟨rfl, fun _ _ => rfl⟩
    | second sid' =>
        have hsid : sid' ≠ sid := fun heq => hr (heq ▸ rfl)
        exact ⟨rfl, stop_congr (by simp [leaves_mem_addPage, hsid])
          (by simp [directory_mem_addPage, hsid])⟩
  have hkept := fun r hr => holds_congr (h.holds r) (hother r hr)
    (h.agree_of_installed hp hsplit hinst hr)
  refine h.grow (.second sid) taken hsplit hsupply (fun r => ?_) (fun r q hq => ?_)
    (h.ledger.addPage hp iova.toNat rest)
  · by_cases hr : r = .second sid
    · subst hr
      intro p' hp'
      obtain rfl : p = p' := Option.some.inj (hp.symm.trans hp')
      exact ⟨hinst.wf, fun x hx => h.stops_of_installed hp hlow hinst hx⟩
    · exact (hkept r hr).1
  · by_cases hr : r = .second sid
    · subst hr
      obtain ⟨p', hp', hqp⟩ := hq
      obtain rfl : p = p' := Option.some.inj (hp.symm.trans hp')
      rcases hinst.pages q hqp with hold | hnew
      · exact Or.inl ⟨p, hp, hold⟩
      · exact Or.inr ⟨rfl, hnew⟩
    · exact Or.inl ((hkept r hr).2 ▸ hq)

/-- The page is mapped, and every other address of the source id is read as before. -/
theorem secondLevel_of_installed (hiova : IsPage iova) (hlow : iova.toNat < 2 ^ 39)
    (hpa : IsPage pa) (hinst : Installed vtd vtdSmall vtdLeaf m m' 1 iova
      (vtdEntry pa) VTD_PAGE_LEVEL p taken) (x : Word) :
    secondLevel m' p x =
      if pageOf x = iova then some ⟨pa + (x - iova), VTD_PTE_RW⟩ else secondLevel m p x := by
  have hpage : pageOf x = iova ↔ x.toNat / 4096 = iova.toNat / 4096 := by
    rw [← pageOf_eq_pageOf_iff, show pageOf iova = iova from hiova]
  unfold secondLevel
  by_cases hin : pageOf x = iova
  · have hsame := hpage.mp hin
    obtain ⟨path, -, hpath, htarget⟩ := hinst.reads_target
    rw [if_pos (by omega), if_pos hin,
      htarget _ vtdLeaf x fun k hk _ => tableIndex_eq_of_div_eq hk hsame, vtdLeaf_vtdEntry hpa,
      climb_vtdLeaf hpath, ofNat_mod_of_pageOf hin]
  · rw [if_neg hin]
    split_ifs with hx
    · obtain ⟨j, hj, hj3, hne, -, -⟩ := exists_parting_level hx hlow fun heq => hin (hpage.mpr heq)
      exact hinst.reads_other x j hj hj3 hne
    · rfl

/-- **`vtd_install_pte`** maps its page for its source id and nothing else. -/
theorem Tables.installPte {needed : Finset VtdTable} (h : w.Tables s) (hfund : w.Funded needed)
    (hp : w.second sid = some p) (hiova : IsPage iova) (hlow : iova.toNat < 2 ^ 39)
    (hpa : IsPage pa) (hneed : pageTables sid iova.toNat ⊆ needed) :
    ∃ w' : VtdView, w'.Tables (vtdInstallPte s p iova pa 1) ∧ w'.Funded needed ∧ w'.root = w.root ∧
      w'.second = w.second ∧ ∀ sid' x, w'.translate (vtdInstallPte s p iova pa 1).mem sid' x =
        if sid' = sid ∧ pageOf x = iova then some ⟨pa + (x - iova), VTD_PTE_RW⟩
        else w.translate s.mem sid' x := by
  obtain ⟨hwf, hstops⟩ := h.holds (.second sid) p hp
  have hmissing := hfund.missing hneed
  rw [h.ledger.card_addPage] at hmissing
  have henough : vtd.eval stopLevel s.mem VTD_PAGE_LEVEL p iova - 1 ≤ w.free.length := by
    rw [hstops iova hlow]
    omega
  obtain ⟨taken, rest, hsplit, hsupply, hinst⟩ := vtdInstallPte_spec hpa h.supply hwf
    (fun q hq hqp => h.fresh (.second sid) q hq ⟨p, hp, hqp⟩) henough
  refine ⟨w.addPage sid iova.toNat rest, h.addPage hp hlow hsplit hsupply hinst,
    hfund.step hneed rfl ?_, rfl, rfl, fun sid' x => ?_⟩
  · have hcard : (w.addPage sid iova.toNat rest).built.card =
        w.built.card + (w.stop sid iova - 1) :=
      h.ledger.card_addPage sid iova
    have hcount := hinst.count
    rw [hstops iova hlow] at hcount
    have hlength := hsplit.length_eq
    rw [List.length_append] at hlength
    rw [hcard]
    change _ = _ + rest.length
    omega
  · by_cases hsid : sid' = sid
    · subst hsid
      have hsecond : (w.addPage sid' iova.toNat rest).second sid' = some p := hp
      rw [translate, translate, hsecond, hp, Option.bind_some, Option.bind_some,
        secondLevel_of_installed hiova hlow hpa hinst]
      simp only [true_and]
    · rw [if_neg fun hand => hsid hand.1]
      have hr : VtdRole.second sid' ≠ .second sid := fun heq => hsid (VtdRole.second.inj heq)
      exact translate_congr (h.holds (.second sid')) rfl (h.agree_of_installed hp hsplit hinst hr) x

end Install

end VtdView

end AcrnGuest
