import AcrnGuest.EptInstall

/-!
# Histories of `install_ept_entry`

The processor does not accept every table: the bits 7:3 of an entry that points to
a lower table are reserved, and an entry that grants write access without read
access is a misconfiguration. `eptGrant` is the access it grants to a guest
address, with nothing granted through a rejected entry.

A split turns a leaf into a pointer but clears only its page-size bit and its
address, so the memory type and the access rights of the leaf end up in the
pointer. Histories that only split leaves with open access and memory type 0 keep
all pointers valid and open, and then the last entry installed for a guest page
decides what is granted. The last section has a history where it does not.
-/

namespace AcrnGuest

open Radix

/-! ### What the processor grants -/

def eptWriteOnly (e : Word) : Bool := e &&& EPT_RA = 0#64 ∧ e &&& EPT_WA ≠ 0#64

/-- An entry that points to a lower table. -/
def eptPointerValid (e : Word) : Bool := e &&& 0xf8#64 = 0#64 ∧ ¬ eptWriteOnly e

/-- An entry that maps a page: its memory type exists and its frame is aligned. -/
def eptLeafValid (level : Nat) (e : Word) : Bool :=
  ¬ eptWriteOnly e ∧
    (e >>> EPT_MEM_TYPE_SHIFT) &&& 7#64 ∈ [0#64, 1#64, 4#64, 5#64, 6#64] ∧
    (e &&& EPT_ADDR_MASK).toNat % 2 ^ EPT_LEVEL_SHIFT level = 0

def eptGrant : Reading Word Word (Option Word) where
  stuck := none
  leaf level e _ :=
    if e &&& EPT_PRESENT = 0#64 then none
    else if eptLeafValid level e then some (e &&& EPT_PRESENT) else none
  node _ e granted := if eptPointerValid e then granted.map fun access => access &&& e else none

/-! ### Histories -/

structure EptCall where
  level : Nat
  guestAddr : Word
  pte : Word
  ptPage : Word

def EptCall.covers (c : EptCall) (gpa : Word) : Bool :=
  gpa.toNat / 2 ^ EPT_LEVEL_SHIFT c.level = c.guestAddr.toNat / 2 ^ EPT_LEVEL_SHIFT c.level

/-- A leaf that the processor accepts at its level. -/
def EptLeafValue (level : Nat) (pte : Word) : Prop :=
  pte &&& EPT_PRESENT ≠ 0#64 ∧ eptLeafValid level pte ∧ (1 < level → pte &&& EPT_LARGE_PAGE ≠ 0#64)

instance (level : Nat) (pte : Word) : Decidable (EptLeafValue level pte) :=
  inferInstanceAs (Decidable (_ ∧ _ ∧ _))

/-- The calls considered: a leaf at level 1, 2 or 3 and enough pages. -/
structure EptCall.Allowed (c : EptCall) (s : Machine) (pml4 : Word) (pages : List Word) : Prop where
  level_pos : 1 ≤ c.level
  level_le : c.level ≤ 3
  guestAddr_lt : c.guestAddr.toNat < 2 ^ 48
  leaf : EptLeafValue c.level c.pte
  own : OwnPage s pml4 pages c.ptPage
  enough : EnoughPages s pml4 c.guestAddr c.level pages c.ptPage

/-- The states after a sequence of calls, the last call first, that starts from an
    empty table and in which every call meets the condition `Cond`. -/
inductive EptRun (Cond : Machine → EptCall → Prop) (pml4 : Word) : Machine → List EptCall → Prop
  | empty {s : Machine} {pages : List Word} (hempty : EmptyTable s.mem pml4)
      (hlist : FreeList s pages) (hphys : ∀ p ∈ pages, PhysPage p) (hpml4 : pml4 ∉ pages) :
      EptRun Cond pml4 s []
  | install {s s' : Machine} {calls : List EptCall} {c : EptCall} {pages : List Word}
      (hrun : EptRun Cond pml4 s calls) (hlist : FreeList s pages)
      (hallowed : c.Allowed s pml4 pages) (hcond : Cond s c)
      (hcall : installEptEntry s pml4 c.level c.guestAddr c.pte c.ptPage = some s') :
      EptRun Cond pml4 s' (c :: calls)

/-- The access of the last entry installed for a guest address. -/
def lastGrant (calls : List EptCall) (gpa : Word) : Option Word :=
  (calls.find? fun c => c.covers gpa).map fun c => c.pte &&& EPT_PRESENT

/-! ### Open tables -/

/-- Pointers have the bits 7:3 clear and grant all access. -/
def eptOpen (level : Nat) (e : Word) : Prop :=
  eptChild level e ≠ none → e &&& 0xf8#64 = 0#64 ∧ e &&& EPT_PRESENT = EPT_PRESENT

/-- A leaf with the bits 6:3 clear that grants all access. -/
def eptOpenLeaf (e : Word) : Prop := e &&& 0x7f#64 = 7#64

/-- The entries of histories that only split open leaves. -/
def eptStrict (level : Nat) (e : Word) : Prop :=
  eptGood level e ∧ (eptChild level e ≠ none → e &&& 0xff#64 = 7#64)

theorem eptPointerValid_of_open {e : Word} (h : e &&& 0xff#64 = 7#64) : eptPointerValid e := by
  have hreserved : e &&& 0xf8#64 = 0#64 := (and_of_and_eq h (by decide)).trans (by decide)
  have hread : e &&& EPT_RA = 1#64 := (and_of_and_eq h (by decide)).trans (by decide)
  simp [eptPointerValid, eptWriteOnly, hreserved, hread]

theorem eptLeafValid_of_open {level : Nat} {e : Word} (h : eptOpenLeaf e)
    (haligned : (e &&& EPT_ADDR_MASK).toNat % 2 ^ EPT_LEVEL_SHIFT level = 0) :
    eptLeafValid level e := by
  have hread : e &&& EPT_RA = 1#64 := (and_of_and_eq h (by decide)).trans (by decide)
  have htype : e &&& 0x38#64 = 0#64 := (and_of_and_eq h (by decide)).trans (by decide)
  refine decide_eq_true ⟨?_, ?_, haligned⟩
  · simp [eptWriteOnly, hread]
  · rw [memType_eq, htype]
    decide

theorem eptGrant_leaf_of_open {level : Nat} {e : Word} (h : eptOpenLeaf e)
    (haligned : (e &&& EPT_ADDR_MASK).toNat % 2 ^ EPT_LEVEL_SHIFT level = 0) (gpa : Word) :
    eptGrant.leaf level e gpa = some EPT_PRESENT := by
  have haccess : e &&& EPT_PRESENT = EPT_PRESENT := (and_of_and_eq h (by decide)).trans (by decide)
  have hpresent : EPT_PRESENT ≠ 0#64 := by decide
  simp only [eptGrant, haccess, if_neg hpresent, if_pos (eptLeafValid_of_open h haligned)]

theorem eptGrant_node_of_open {level : Nat} {e : Word} (h : e &&& 0xff#64 = 7#64) {access : Word}
    (haccess : access &&& EPT_PRESENT = access) :
    eptGrant.node level e (some access) = some access := by
  have hfull : e &&& EPT_PRESENT = EPT_PRESENT := (and_of_and_eq h (by decide)).trans (by decide)
  have hkept : access &&& e = access := by
    rw [← haccess, BitVec.and_assoc, BitVec.and_comm EPT_PRESENT, hfull]
  simp only [eptGrant, if_pos (eptPointerValid_of_open h), Option.map_some, hkept]

theorem splitPointer_of_open {e p : Word} (h : eptOpenLeaf e) (hp : PhysPage p) :
    splitPointer e p &&& 0xff#64 = 7#64 := by
  rw [splitPointer_flags hp (by decide), BitVec.and_assoc]
  exact h

theorem eptGrows_eptStrict : EptGrows eptStrict eptOpenLeaf eptGrant where
  wellFormed _ _ h := h.1
  zero level := ⟨eptGrows_eptGood.zero level, fun h => (h (eptChild_zero level)).elim⟩
  link level p hp := ⟨eptGrows_eptGood.link level p hp, fun _ => by
    rw [eptPointer_flags hp (by decide)]
    decide⟩
  link_reads level e p gpa _ hp habsent := by
    simp [eptGrant, habsent]
  split level e p i hlevel hgood hpresent hlarge hopen hp := by
    obtain ⟨-, haligned⟩ := hgood.1 (by omega) hpresent hlarge
    have hbase := eptGrows_eptGood.split level e p i hlevel hgood.1 hpresent hlarge trivial hp
    refine ⟨⟨hbase.1, fun _ => splitPointer_of_open hopen hp⟩, ⟨hbase.2.1, fun hc => ?_⟩, ?_⟩
    · exact (hc (eptChild_splitEntry hlevel haligned hlarge)).elim
    · unfold eptOpenLeaf
      rw [splitEntry_flags hlevel haligned (by decide),
        splitPrototype_flags (by decide) (by decide)]
      exact hopen
  split_reads level e p gpa hlevel hgood hpresent hlarge hopen hp := by
    obtain ⟨-, haligned⟩ := hgood.1 (by omega) hpresent hlarge
    have hpart : eptOpenLeaf (splitEntry e level (tableIndex (level - 1) gpa)) := by
      unfold eptOpenLeaf
      rw [splitEntry_flags hlevel haligned (by decide),
        splitPrototype_flags (by decide) (by decide)]
      exact hopen
    rw [eptGrant_leaf_of_open hopen haligned,
      eptGrant_leaf_of_open hpart (splitEntry_aligned hlevel haligned)]
    exact eptGrant_node_of_open (splitPointer_of_open hopen hp) (by decide)

/-- Along open pointers the leaf decides. -/
theorem climb_eptGrant_of_open {l : Nat} {path : List Word} (h : ept.IsPath eptStrict l path)
    {access : Word} (haccess : access &&& EPT_PRESENT = access) :
    eptGrant.climb l path (some access) = some access := by
  induction path generalizing l with
  | nil => rfl
  | cons e path ih =>
      obtain ⟨⟨-, hopen⟩, ⟨c, hc⟩, hpath⟩ := h
      have hflags : e &&& 0xff#64 = 7#64 := hopen (by
        rw [show eptChild l e = some c from hc]
        exact Option.some_ne_none c)
      rw [Reading.climb, ih hpath]
      exact eptGrant_node_of_open hflags haccess

/-! ### Histories that only split open leaves -/

/-- The leaf above its level that a call meets, if any, is open. -/
def SplitsOpenLeaf (pml4 : Word) (s : Machine) (c : EptCall) : Prop :=
  ept.eval (leafAbove c.level eptOpenLeaf) s.mem EPT_PAGE_LEVEL pml4 c.guestAddr

/-- What holds between the calls of such a history. -/
structure EptLedger (s : Machine) (pml4 : Word) (calls : List EptCall) (pages : List Word) :
    Prop where
  tables : EptTables eptStrict s pml4 pages
  grants : ∀ gpa : Word, gpa.toNat < 2 ^ 48 →
    ept.eval eptGrant s.mem EPT_PAGE_LEVEL pml4 gpa = lastGrant calls gpa

theorem EptLeafValue.child {level : Nat} {pte : Word} (h : EptLeafValue level pte)
    (hpos : 1 ≤ level) (hle : level ≤ 3) : eptChild level pte = none := by
  by_cases hone : level = 1
  · rw [hone]
    exact eptChild_one pte
  · exact eptChild_of_large (by omega) (h.2.2 (by omega))

theorem EptLeafValue.strict {level : Nat} {pte : Word} (h : EptLeafValue level pte)
    (hpos : 1 ≤ level) (hle : level ≤ 3) : eptStrict level pte := by
  refine ⟨fun hone _ _ => ⟨by omega, ?_⟩, fun hc => (hc (h.child hpos hle)).elim⟩
  have hvalid := h.2.1
  simp only [eptLeafValid, decide_eq_true_eq] at hvalid
  exact hvalid.2.2

theorem EptLedger.install {s s' : Machine} {pml4 : Word} {calls : List EptCall} {pages : List Word}
    {c : EptCall} (h : EptLedger s pml4 calls pages) (hallowed : c.Allowed s pml4 pages)
    (hcond : SplitsOpenLeaf pml4 s c)
    (hcall : installEptEntry s pml4 c.level c.guestAddr c.pte c.ptPage = some s') :
    ∃ rest, EptLedger s' pml4 (c :: calls) rest := by
  obtain ⟨hpos, hle, hguest, hleaf, hown, henough⟩ := hallowed
  have hle4 : c.level ≤ EPT_PAGE_LEVEL := Nat.le_trans hle (by decide)
  obtain ⟨s₁, taken, rest, hcall₁, htables, -, hinst⟩ :=
    h.tables.install eptGrows_eptStrict hpos hle4
    hguest (hleaf.child hpos hle) (hleaf.strict hpos hle) hcond hown henough
  obtain rfl : s₁ = s' := Option.some.inj (hcall₁.symm.trans hcall)
  refine ⟨rest, htables, fun gpa hlow => ?_⟩
  by_cases hcovers : c.covers gpa
  · have hpage : gpa.toNat / 2 ^ EPT_LEVEL_SHIFT c.level =
        c.guestAddr.toNat / 2 ^ EPT_LEVEL_SHIFT c.level := of_decide_eq_true hcovers
    obtain ⟨path, -, hpath, htarget⟩ := hinst.reads_target
    have hlast : lastGrant (c :: calls) gpa = some (c.pte &&& EPT_PRESENT) := by
      simp [lastGrant, hcovers]
    have hgrant : eptGrant.leaf c.level c.pte gpa = some (c.pte &&& EPT_PRESENT) := by
      simp only [eptGrant, if_neg hleaf.1, if_pos hleaf.2.1]
    rw [htarget _ eptGrant gpa fun k hk _ => tableIndex_eq_of_div_eq hk hpage, hgrant, hlast]
    exact climb_eptGrant_of_open hpath (by rw [BitVec.and_assoc, BitVec.and_self])
  · have hpage : gpa.toNat / 2 ^ EPT_LEVEL_SHIFT c.level ≠
        c.guestAddr.toNat / 2 ^ EPT_LEVEL_SHIFT c.level := fun heq => hcovers (decide_eq_true heq)
    rw [ept_eval_other hinst hpos hle4 hguest hlow hpage, h.grants gpa hlow]
    simp [lastGrant, hcovers]

theorem EptRun.ledger {s : Machine} {pml4 : Word} {calls : List EptCall}
    (h : EptRun (SplitsOpenLeaf pml4) pml4 s calls) : ∃ pages, EptLedger s pml4 calls pages := by
  induction h with
  | empty hempty hlist hphys hpml4 =>
      refine ⟨_, eptTables_of_empty hempty eptGrows_eptStrict.zero hlist hphys hpml4, ?_⟩
      intro gpa _
      rw [EPT_PAGE_LEVEL, ept_eval_of_empty hempty]
      rfl
  | install _ hlist hallowed hcond hcall ih =>
      obtain ⟨pages, hledger⟩ := ih
      obtain rfl := hledger.tables.list.unique hlist
      exact hledger.install hallowed hcond hcall

/-- **Histories that only split open leaves.** If every leaf that a call has to split
    has the bits 6:3 clear and grants all access, then all pointers are valid and open
    in every state reached, and the processor grants each guest address the access of
    the last entry installed for it. -/
theorem grants_last_of_splitsOpenLeaf {s : Machine} {pml4 : Word} {calls : List EptCall}
    (h : EptRun (SplitsOpenLeaf pml4) pml4 s calls) :
    ept.WF eptOpen s.mem EPT_PAGE_LEVEL pml4 ∧
      ∀ gpa : Word, gpa.toNat < 2 ^ 48 →
        ept.eval eptGrant s.mem EPT_PAGE_LEVEL pml4 gpa = lastGrant calls gpa := by
  obtain ⟨pages, hledger⟩ := h.ledger
  refine ⟨hledger.tables.wf.mono fun level e hstrict hc => ?_, hledger.grants⟩
  have hflags := hstrict.2 hc
  exact ⟨(and_of_and_eq hflags (by decide)).trans (by decide),
    (and_of_and_eq hflags (by decide)).trans (by decide)⟩

/-! ### Two calls that split a leaf -/

/-- A 4 KiB page inside a 2 MiB leaf. The last call comes first. -/
def splitCalls (large small : Word) : List EptCall :=
  [⟨1, 0x5000#64, small, 0#64⟩, ⟨2, 0#64, large, 0#64⟩]

/-- The two calls are a history from `emptyEptMachine`, whatever the leaves are. -/
theorem splitCalls_run (Cond : Machine → EptCall → Prop) {large small : Word}
    (hlarge : EptLeafValue 2 large) (hsmall : EptLeafValue 1 small)
    (hfirst : Cond emptyEptMachine ⟨2, 0#64, large, 0#64⟩)
    (hsecond : ∀ s : Machine, ept.eval eptWalkEnd s.mem EPT_PAGE_LEVEL 0x1000#64 0x5000#64 =
      (2, large) →
      Cond s ⟨1, 0x5000#64, small, 0#64⟩) :
    ∃ s s', installEptEntry emptyEptMachine 0x1000#64 2 0#64 large 0#64 = some s ∧
      installEptEntry s 0x1000#64 1 0x5000#64 small 0#64 = some s' ∧
      EptRun Cond 0x1000#64 s' (splitCalls large small) := by
  have htables := emptyEptMachine_tables eptGrows_eptGood.zero
  have henough : EnoughPages emptyEptMachine 0x1000#64 0#64 2 _ 0#64 :=
    Or.inl (by decide : 2 ≤ [0x2000#64, 0x3000#64, 0x4000#64, 0x5000#64, 0x6000#64].length)
  obtain ⟨s, taken, rest, hcall, h, hperm, hinst⟩ :=
    htables.install eptGrows_eptGood (by decide) (by decide) (by decide)
      (hlarge.child (by decide) (by decide)) (hlarge.strict (by decide) (by decide)).1
      (leafAbove_true 2) (Or.inl rfl) henough
  have hlength := (hperm rfl).length_eq
  have hcount : taken.length = 2 := hinst.count
  have henough' : EnoughPages s 0x1000#64 0x5000#64 1 rest 0#64 := by
    obtain ⟨path, -, -, htarget⟩ := hinst.reads_target
    have hstop := htarget Nat stopLevel 0x5000#64 fun k hk _ =>
      tableIndex_eq_of_div_eq hk (by decide)
    rw [Reading.climb_of_node_eq fun _ _ _ => rfl] at hstop
    refine Or.inl ?_
    rw [eptMissing, hstop]
    change 2 - 1 ≤ rest.length
    simp only [List.length_append, List.length_cons, List.length_nil] at hlength
    omega
  obtain ⟨s', -, -, hcall', -, -, -⟩ :=
    h.install eptGrows_eptGood (by decide) (by decide) (by decide) (eptChild_one small)
      (fun hone => absurd hone (by decide)) (leafAbove_true 1) (Or.inl rfl) henough'
  have hstart : EptRun Cond 0x1000#64 emptyEptMachine [] :=
    .empty emptyEptMachine_emptyTable htables.list htables.phys (by decide)
  refine ⟨s, s', hcall, hcall',
    .install (.install hstart htables.list ?_ hfirst hcall) h.list ?_ ?_ hcall'⟩
  · exact ⟨(by decide : 1 ≤ 2), (by decide : 2 ≤ 3), (by decide : (0#64).toNat < 2 ^ 48), hlarge,
      Or.inl rfl, henough⟩
  · exact ⟨(by decide : 1 ≤ 1), (by decide : 1 ≤ 3),
      (by decide : (0x5000#64).toNat < 2 ^ 48), hsmall, Or.inl rfl, henough'⟩
  · exact hsecond s (eptWalkEnd_target hinst (by decide))

/-- A read-only page inside an open leaf gets read access, its neighbours keep all access. -/
theorem grants_last_after_open_split :
    ∃ s, EptRun (SplitsOpenLeaf 0x1000#64) 0x1000#64 s (splitCalls 0x40000087#64 0x7001#64) ∧
      ept.eval eptGrant s.mem EPT_PAGE_LEVEL 0x1000#64 0x5000#64 = some 1#64 ∧
      ept.eval eptGrant s.mem EPT_PAGE_LEVEL 0x1000#64 0x6000#64 = some 7#64 := by
  have hopen : eptOpenLeaf 0x40000087#64 := by
    unfold eptOpenLeaf
    decide
  obtain ⟨s, s', -, -, hrun⟩ := splitCalls_run (SplitsOpenLeaf 0x1000#64)
    (by decide : EptLeafValue 2 0x40000087#64) (by decide : EptLeafValue 1 0x7001#64)
    (by
      rw [SplitsOpenLeaf, EPT_PAGE_LEVEL, ept_eval_of_empty emptyEptMachine_emptyTable]
      exact fun _ h => absurd rfl h)
    (fun s hs => leafAbove_of_walkEnd hs fun _ _ => hopen)
  obtain ⟨-, hgrants⟩ := grants_last_of_splitsOpenLeaf hrun
  refine ⟨s', hrun, ?_, ?_⟩
  · rw [hgrants _ (by decide)]
    decide
  · rw [hgrants _ (by decide)]
    decide

/-- **A history that goes wrong.** The split of a write-back leaf leaves its memory type
    in the pointer, in bits that are reserved there, and the processor grants nothing
    although the last entry installed grants all access. -/
theorem writeBack_split_rejected :
    ∃ s, EptRun (fun _ _ => True) 0x1000#64 s (splitCalls 0x400000b7#64 0x7037#64) ∧
      eptChild 2 (s.mem 0x3000#64) = some 0x4000#64 ∧ s.mem 0x3000#64 &&& 0xf8#64 = 0x30#64 ∧
      ept.eval eptGrant s.mem EPT_PAGE_LEVEL 0x1000#64 0x5000#64 = none ∧
      lastGrant (splitCalls 0x400000b7#64 0x7037#64) 0x5000#64 = some EPT_PRESENT := by
  obtain ⟨s, s', hcall, hcall', hrun⟩ := splitCalls_run (fun _ _ => True)
    (by decide : EptLeafValue 2 0x400000b7#64) (by decide : EptLeafValue 1 0x7037#64) trivial
    fun _ _ => trivial
  have heval : ((installEptEntry emptyEptMachine 0x1000#64 2 0#64 0x400000b7#64 0#64).bind fun s =>
      installEptEntry s 0x1000#64 1 0x5000#64 0x7037#64 0#64).map (fun s =>
        (s.mem 0x3000#64, ept.eval eptGrant s.mem EPT_PAGE_LEVEL 0x1000#64 0x5000#64)) =
      some (0x4037#64, none) := by decide +kernel
  rw [hcall, Option.bind_some, hcall', Option.map_some] at heval
  obtain ⟨hentry, hgrant⟩ := Prod.mk.inj (Option.some.inj heval)
  refine ⟨s', hrun, ?_, ?_, hgrant, by decide⟩
  · rw [hentry]
    decide
  · rw [hentry]
    decide

end AcrnGuest
