import AcrnGuest.AllocPage
import Mathlib.Data.Set.Lattice
import Mathlib.Order.CompletePartialOrder

/-!
# Every page of the allocator is accounted for

A run of the page allocator is a sequence of requests by its clients. `Ledger`
adds to the machine what the clients know: the pages donated so far and the
pages they hold. `Allowed` is the contract of a request, and clients may write
to every word that does not lie in a free page. `Accounted` is the invariant:
the free pages and the pages held by clients are disjoint and together are the
donated pages.
-/

namespace AcrnGuest

/-- The machine, the pages given to the allocator, and the pages handed out. -/
structure Ledger where
  machine : Machine
  donated : Set Word
  out : Set Word

/-- A client request. Both `donate` and `giveBack` are calls of `free_pages`. -/
inductive Request where
  | donate (mem size : Word)
  | allocPage
  | allocPages (order : Word)
  | freePage (page : Word)
  | giveBack (mem size : Word)
  | store (addr value : Word)
deriving DecidableEq, Repr

def rangePages (mem size : Word) : List Word := pageRange mem (size.toNat / 4096)

def Request.exec (s : Machine) : Request → Option (Word × Machine)
  | .donate mem size => (freePages s mem size).map fun s' => (0#64, s')
  | .allocPage => some (AcrnGuest.allocPage s)
  | .allocPages order => AcrnGuest.allocPages s order
  | .freePage page => some (0#64, AcrnGuest.freePage s page)
  | .giveBack mem size => (freePages s mem size).map fun s' => (0#64, s')
  | .store addr value => some (0#64, { s with mem := Function.update s.mem addr value })

/-- The contract under which a client makes a request. -/
def Request.Allowed (L : Ledger) : Request → Prop
  | .donate mem size =>
      IsPage mem ∧ IsPage size ∧ size ≠ 0#64 ∧ 0#64 ∉ rangePages mem size ∧
        ∀ p ∈ rangePages mem size, p ∉ L.donated
  | .allocPage => True
  | .allocPages order => order.toNat < 64
  | .freePage page => page ∈ L.out
  | .giveBack mem size =>
      IsPage mem ∧ IsPage size ∧ size ≠ 0#64 ∧ ∀ p ∈ rangePages mem size, p ∈ L.out
  | .store addr _ => pageOf addr ∈ L.out ∨ pageOf addr ∉ L.donated

def Request.granted (result : Word) : Request → List Word
  | .allocPage => if result = 0#64 then [] else [result]
  | .allocPages order => if result = 0#64 then [] else pageRange result (2 ^ order.toNat)
  | _ => []

def Request.returned : Request → List Word
  | .freePage page => [page]
  | .giveBack mem size => rangePages mem size
  | _ => []

def Request.donates : Request → List Word
  | .donate mem size => rangePages mem size
  | _ => []

def Ledger.record (L : Ledger) (r : Request) (result : Word) (s : Machine) : Ledger where
  machine := s
  donated := L.donated ∪ {p | p ∈ r.donates}
  out := (L.out ∪ {p | p ∈ r.granted result}) \ {p | p ∈ r.returned}

/-- The ledgers of all runs, from an allocator that was given no page. -/
inductive Ledger.Reachable : Ledger → Prop where
  | init (m : Mem) : Reachable ⟨⟨m, 0#64⟩, ∅, ∅⟩
  | step {L : Ledger} {r : Request} {result : Word} {s : Machine} (previous : Reachable L)
      (allowed : r.Allowed L) (exec : r.exec L.machine = some (result, s)) :
      Reachable (L.record r result s)

/-- The free pages `pages` and the pages held by clients make up the donated pages. -/
structure Ledger.Accounted (L : Ledger) (pages : List Word) : Prop where
  free : FreeList L.machine pages
  disjoint : Disjoint {p | p ∈ pages} L.out
  total : {p | p ∈ pages} ∪ L.out = L.donated
  isPage : ∀ p ∈ L.donated, IsPage p ∧ p ≠ 0#64

theorem Ledger.Accounted.mem_donated {L : Ledger} {pages : List Word} (h : L.Accounted pages)
    {p : Word} : p ∈ L.donated ↔ p ∈ pages ∨ p ∈ L.out := by
  rw [← h.total]
  rfl

theorem Ledger.Accounted.notMem_out {L : Ledger} {pages : List Word} (h : L.Accounted pages)
    {p : Word} (hp : p ∈ pages) : p ∉ L.out :=
  fun hout => Set.disjoint_left.mp h.disjoint hp hout

/-- A range of pages that does not hold address `0` ends inside the address space. -/
theorem fits_of_zero_notMem_rangePages {mem size : Word} (hmem : IsPage mem) (hsize : IsPage size)
    (hzero : 0#64 ∉ rangePages mem size) : mem.toNat + size.toNat ≤ 2 ^ 64 := by
  by_contra hfit
  rw [isPage_iff] at hmem hsize
  have := mem.isLt
  refine hzero (mem_pageRange.mpr ⟨(2 ^ 64 - mem.toNat) / 4096, by omega, ?_⟩)
  apply BitVec.eq_of_toNat_eq
  rw [BitVec.toNat_add, BitVec.toNat_ofNat]
  rw [BitVec.toNat_ofNat]
  omega

/-! ### One step per request -/

/-- What a request achieves from an accounted ledger: it returns, hands out only
    pages that were free, and leaves an accounted ledger. -/
def Request.Settles (L : Ledger) (pages : List Word) (r : Request) : Prop :=
  ∃ result s pages', r.exec L.machine = some (result, s) ∧
    (L.record r result s).Accounted pages' ∧ ∀ p ∈ r.granted result, p ∈ pages

variable {L : Ledger} {pages : List Word}

theorem settles_donate (h : L.Accounted pages) {mem size : Word}
    (hallowed : (Request.donate mem size).Allowed L) :
    (Request.donate mem size).Settles L pages := by
  obtain ⟨hmem, hsize, hne, hzero, hfresh⟩ := hallowed
  have hnotFree : ∀ p ∈ rangePages mem size, p ∉ pages := fun p hp hfree =>
    hfresh p hp (h.mem_donated.mpr (Or.inl hfree))
  obtain ⟨s, hexec, hlist, -⟩ := freePages_spec h.free hmem hsize hne
    (fits_of_zero_notMem_rangePages hmem hsize hzero) hzero hnotFree
  refine ⟨0#64, s, rangePages mem size ++ pages, by simp [Request.exec, hexec], ?_,
    by simp [Request.granted]⟩
  have hout : (L.record (.donate mem size) 0#64 s).out = L.out := by
    simp [Ledger.record, Request.granted, Request.returned]
  refine ⟨hlist, ?_, ?_, ?_⟩
  · rw [hout]
    refine Set.disjoint_left.mpr fun p hp hpout => ?_
    rcases List.mem_append.mp hp with hp | hp
    · exact hfresh p hp (h.mem_donated.mpr (Or.inr hpout))
    · exact h.notMem_out hp hpout
  · rw [hout]
    ext p
    simp only [Ledger.record, Request.donates, Set.mem_union, Set.mem_ofPred_eq, h.mem_donated,
      List.mem_append]
    tauto
  · rintro p (hp | hp)
    · exact h.isPage p hp
    · exact ⟨isPage_of_mem_pageRange hmem hp, ne_of_mem_of_not_mem hp hzero⟩

theorem Ledger.Accounted.take (h : L.Accounted pages) {front rest : List Word} {r : Request}
    {result : Word} {s : Machine} (hgranted : r.granted result = front) (hdonates : r.donates = [])
    (hreturned : r.returned = []) (hpages : ∀ p, p ∈ pages ↔ p ∈ front ∨ p ∈ rest)
    (hfront : ∀ p ∈ front, p ∉ rest) (hlist : FreeList s rest) :
    (L.record r result s).Accounted rest := by
  have hout : (L.record r result s).out = L.out ∪ {p | p ∈ front} := by
    simp [Ledger.record, hgranted, hreturned]
  have hdonated : (L.record r result s).donated = L.donated := by
    simp [Ledger.record, hdonates]
  refine ⟨hlist, ?_, ?_, ?_⟩
  · rw [hout]
    refine Set.disjoint_left.mpr fun p hp hpout => ?_
    rcases hpout with hpout | hpout
    · exact h.notMem_out ((hpages p).mpr (Or.inr hp)) hpout
    · exact hfront p hpout hp
  · rw [hout, hdonated]
    ext p
    simp only [Set.mem_union, Set.mem_ofPred_eq, h.mem_donated, hpages]
    tauto
  · rw [hdonated]
    exact h.isPage

theorem settles_allocPage (h : L.Accounted pages) : Request.allocPage.Settles L pages := by
  cases pages with
  | nil =>
      refine ⟨0#64, L.machine, [], by simp [Request.exec, allocPage_nil h.free], ?_,
        by simp [Request.granted]⟩
      simpa [Ledger.record, Request.granted, Request.returned, Request.donates] using h
  | cons first rest =>
      obtain ⟨hexec, hlist⟩ := allocPage_cons h.free
      have hne : first ≠ 0#64 := h.free.chain.ne_null first (by simp)
      have hfirst : first ∉ rest := (List.nodup_cons.mp h.free.nodup).1
      have hgranted : Request.allocPage.granted first = [first] := if_neg hne
      refine ⟨first, _, rest, by rw [Request.exec, hexec], ?_, by simp [hgranted]⟩
      refine h.take hgranted rfl rfl (fun p => ?_) ?_ hlist
      · rw [List.mem_cons, List.mem_singleton]
      · intro p hp
        rwa [List.mem_singleton.mp hp]

theorem settles_allocPages (h : L.Accounted pages) {order : Word} (horder : order.toNat < 64) :
    (Request.allocPages order).Settles L pages := by
  obtain ⟨result, s, hexec, hresult⟩ := allocPages_spec h.free horder
  rcases hresult with ⟨rfl, rfl⟩ | ⟨-, -, before, after, rfl, hlist, -⟩
  · refine ⟨0#64, L.machine, pages, hexec, ?_, by simp [Request.granted]⟩
    simpa [Ledger.record, Request.granted, Request.returned, Request.donates] using h
  · have hrun : ∀ p ∈ pageRange result (2 ^ order.toNat), p ∉ before ++ after :=
      fun p hp => notMem_of_mem_middle h.free.nodup hp
    have hne : result ≠ 0#64 := by
      refine h.free.chain.ne_null result ?_
      have hpos : 0 < 2 ^ order.toNat := Nat.two_pow_pos _
      obtain ⟨k, hk⟩ : ∃ k, 2 ^ order.toNat = k + 1 := ⟨2 ^ order.toNat - 1, by omega⟩
      simp [hk, pageRange]
    have hgranted : (Request.allocPages order).granted result
        = pageRange result (2 ^ order.toNat) := if_neg hne
    refine ⟨result, s, before ++ after, hexec, ?_, ?_⟩
    · refine h.take hgranted rfl rfl (fun p => ?_) hrun hlist
      simp only [List.mem_append]
      tauto
    · intro p hp
      rw [hgranted] at hp
      simp [hp]

theorem Ledger.Accounted.put (h : L.Accounted pages) {back : List Word} {r : Request} {s : Machine}
    (hgranted : r.granted 0#64 = []) (hdonates : r.donates = []) (hreturned : r.returned = back)
    (hback : ∀ p ∈ back, p ∈ L.out) (hlist : FreeList s (back ++ pages)) :
    (L.record r 0#64 s).Accounted (back ++ pages) := by
  have hout : (L.record r 0#64 s).out = L.out \ {p | p ∈ back} := by
    simp [Ledger.record, hgranted, hreturned]
  have hdonated : (L.record r 0#64 s).donated = L.donated := by
    simp [Ledger.record, hdonates]
  refine ⟨hlist, ?_, ?_, ?_⟩
  · rw [hout]
    refine Set.disjoint_left.mpr fun p hp hpout => ?_
    rcases List.mem_append.mp hp with hp | hp
    · exact hpout.2 hp
    · exact h.notMem_out hp hpout.1
  · rw [hout, hdonated]
    ext p
    have := hback p
    simp only [Set.mem_union, Set.mem_ofPred_eq, Set.mem_sdiff, h.mem_donated, List.mem_append]
    tauto
  · rw [hdonated]
    exact h.isPage

theorem settles_freePage (h : L.Accounted pages) {page : Word} (hpage : page ∈ L.out) :
    (Request.freePage page).Settles L pages := by
  obtain ⟨hisPage, hne⟩ := h.isPage page (h.mem_donated.mpr (Or.inr hpage))
  have hlist := freePage_spec h.free hisPage hne fun hp => h.notMem_out hp hpage
  exact ⟨0#64, _, [page] ++ pages, rfl, h.put rfl rfl rfl (by simpa using hpage) hlist,
    by simp [Request.granted]⟩

theorem settles_giveBack (h : L.Accounted pages) {mem size : Word}
    (hallowed : (Request.giveBack mem size).Allowed L) :
    (Request.giveBack mem size).Settles L pages := by
  obtain ⟨hmem, hsize, hne, hheld⟩ := hallowed
  have hzero : 0#64 ∉ rangePages mem size := fun hp =>
    (h.isPage _ (h.mem_donated.mpr (Or.inr (hheld _ hp)))).2 rfl
  obtain ⟨s, hexec, hlist, -⟩ := freePages_spec h.free hmem hsize hne
    (fits_of_zero_notMem_rangePages hmem hsize hzero) hzero
    fun p hp hfree => h.notMem_out hfree (hheld p hp)
  exact ⟨0#64, s, rangePages mem size ++ pages, by simp [Request.exec, hexec],
    h.put rfl rfl rfl hheld hlist, by simp [Request.granted]⟩

/-- The links live in the first words of free pages, which clients do not write. -/
theorem settles_store (h : L.Accounted pages) {addr value : Word}
    (hallowed : (Request.store addr value).Allowed L) :
    (Request.store addr value).Settles L pages := by
  refine ⟨0#64, _, pages, rfl, ?_, by simp [Request.granted]⟩
  have hlist : FreeList { L.machine with mem := Function.update L.machine.mem addr value }
      ([] ++ pages) := by
    refine h.free.frame rfl fun p hp => Function.update_of_ne ?_ _ _
    rintro rfl
    have hpage : pageOf p = p := h.free.isPage p hp
    rcases hallowed with hout | hother
    · exact h.notMem_out hp (hpage ▸ hout)
    · exact hother (hpage.symm ▸ h.mem_donated.mpr (Or.inl hp))
  exact h.put rfl rfl rfl (List.forall_mem_nil _) hlist

theorem settles_of_allowed (h : L.Accounted pages) {r : Request} (hallowed : r.Allowed L) :
    r.Settles L pages := by
  cases r with
  | donate mem size => exact settles_donate h hallowed
  | allocPage => exact settles_allocPage h
  | allocPages order => exact settles_allocPages h hallowed
  | freePage page => exact settles_freePage h hallowed
  | giveBack mem size => exact settles_giveBack h hallowed
  | store addr value => exact settles_store h hallowed

/-! ### Whole runs -/

theorem Ledger.Reachable.accounted (h : L.Reachable) : ∃ pages, L.Accounted pages := by
  induction h with
  | init m =>
      refine ⟨[], ⟨rfl, List.nodup_nil, by simp⟩, ?_, ?_, ?_⟩
      · simp
      · simp
      · simp
  | step _ allowed exec ih =>
      obtain ⟨pages, hacc⟩ := ih
      obtain ⟨result, s, pages', hexec, hacc', -⟩ := settles_of_allowed hacc allowed
      obtain ⟨rfl, rfl⟩ := Prod.mk.inj (Option.some.inj (hexec.symm.trans exec))
      exact ⟨pages', hacc'⟩

/-- **No page is handed out twice or lost.** In every run the freelist is a
    finite chain of distinct page-aligned addresses, disjoint from the pages
    handed out, and the two make up the donated pages. Every allowed request
    returns, and what it hands out was free before. -/
theorem pages_accounted_in_every_run (hrun : L.Reachable) :
    ∃ pages : List Word,
      LinkedList.Chain L.machine.mem 0#64 L.machine.freelist pages ∧ pages.Nodup ∧
      (∀ p ∈ pages, IsPage p) ∧
      Disjoint {p | p ∈ pages} L.out ∧ {p | p ∈ pages} ∪ L.out = L.donated ∧
      ∀ r : Request, r.Allowed L → ∃ result s, r.exec L.machine = some (result, s) ∧
        ∀ p ∈ r.granted result, p ∈ pages ∧ p ∉ L.out := by
  obtain ⟨pages, hacc⟩ := hrun.accounted
  refine ⟨pages, hacc.free.chain, hacc.free.nodup, hacc.free.isPage, hacc.disjoint, hacc.total, ?_⟩
  intro r hallowed
  obtain ⟨result, s, -, hexec, -, hgranted⟩ := settles_of_allowed hacc hallowed
  exact ⟨result, s, hexec, fun p hp => ⟨hgranted p hp, hacc.notMem_out (hgranted p hp)⟩⟩

/-- The run that donates four pages and then takes two of them. -/
theorem pages_accounted_after_allocPages :
    ∃ L : Ledger, L.Reachable ∧ 0x4000#64 ∈ L.out ∧ 0x5000#64 ∈ L.out ∧
      ∃ pages : List Word, LinkedList.Chain L.machine.mem 0#64 L.machine.freelist pages ∧
        Disjoint {p | p ∈ pages} L.out ∧ {p | p ∈ pages} ∪ L.out = L.donated := by
  have hinit := Ledger.Reachable.init fun _ => 0#64
  have hdonate := hinit.step (r := .donate 0x4000#64 0x4000#64)
    ⟨by decide, by decide, by decide, by decide, fun _ _ => Set.notMem_empty _⟩ rfl
  have halloc := hdonate.step (r := .allocPages 1#64) (by decide : (1#64).toNat < 64) rfl
  obtain ⟨pages, hchain, -, -, hdisjoint, htotal, -⟩ := pages_accounted_in_every_run halloc
  exact ⟨_, halloc, ⟨Or.inr (by decide), List.not_mem_nil⟩, ⟨Or.inr (by decide), List.not_mem_nil⟩,
    pages, hchain, hdisjoint, htotal⟩

/-! ### The free set after `free_pages` -/

/-- The assertions of `free_pages`. -/
def FreePagesAsserts (mem size : Word) : Prop :=
  mem % PAGE_SIZE = 0#64 ∧ size % PAGE_SIZE = 0#64 ∧
    (size = 0#64 ∨ mem = -size ∨ mem < mem + size)

instance (mem size : Word) : Decidable (FreePagesAsserts mem size) :=
  inferInstanceAs (Decidable (_ ∧ _ ∧ _))

/-- A call with size `0` passes the assertions and drops the whole list. -/
theorem freePages_zero (s : Machine) {mem : Word} (h : FreePagesAsserts mem 0#64) :
    freePages s mem 0#64 = some { s with freelist := 0#64 } := by
  obtain ⟨hmem, hsize, hfits⟩ := h
  rw [freePages, if_neg (not_not.mpr hmem), if_neg (not_not.mpr hsize), if_neg (not_not.mpr hfits),
    if_pos rfl]

/-- **The free set after `free_pages`.** From every well-formed freelist, a call that passes the
    assertions, with a range that holds neither address `0` nor a free page, adds the pages of the
    range to the free set if its size is not `0`, and empties the free set otherwise. -/
theorem freePages_free_set {s : Machine} {pages : List Word} {mem size : Word}
    (h : FreeList s pages) (hasserts : FreePagesAsserts mem size)
    (hzero : 0#64 ∉ rangePages mem size) (hfresh : ∀ p ∈ rangePages mem size, p ∉ pages) :
    ∃ s' pages', freePages s mem size = some s' ∧ FreeList s' pages' ∧
      (size ≠ 0#64 → {p | p ∈ pages'} = {p | p ∈ pages} ∪ {p | p ∈ rangePages mem size}) ∧
      (size = 0#64 → pages' = []) := by
  have hmem : IsPage mem := umod_PAGE_SIZE_eq_zero_iff.mp hasserts.1
  have hsize : IsPage size := umod_PAGE_SIZE_eq_zero_iff.mp hasserts.2.1
  by_cases hne : size = 0#64
  · subst hne
    refine ⟨_, [], freePages_zero s hasserts, ⟨rfl, List.nodup_nil, List.forall_mem_nil _⟩, ?_, ?_⟩
    · exact fun hne => (hne rfl).elim
    · exact fun _ => rfl
  · obtain ⟨s', hexec, hlist, -⟩ := freePages_spec h hmem hsize hne
      (fits_of_zero_notMem_rangePages hmem hsize hzero) hzero hfresh
    refine ⟨s', rangePages mem size ++ pages, hexec, hlist, fun _ => ?_, fun heq => (hne heq).elim⟩
    ext p
    simp only [Set.mem_union, Set.mem_ofPred_eq, List.mem_append]
    exact Or.comm

theorem freePages_free_set_two_pages :
    ∃ s' pages', freePages (freePage ⟨fun _ => 0#64, 0#64⟩ 0x9000#64) 0x4000#64 0x2000#64 =
        some s' ∧
      FreeList s' pages' ∧
      {p | p ∈ pages'} = {p | p ∈ [0x9000#64]} ∪ {p | p ∈ rangePages 0x4000#64 0x2000#64} := by
  have hnil : FreeList ⟨fun _ => 0#64, 0#64⟩ [] := ⟨rfl, List.nodup_nil, List.forall_mem_nil _⟩
  have hone : FreeList (freePage ⟨fun _ => 0#64, 0#64⟩ 0x9000#64) [0x9000#64] :=
    freePage_spec hnil (by decide) (by decide) (by decide)
  have hfresh : ∀ p ∈ rangePages 0x4000#64 0x2000#64, p ∉ [0x9000#64] := by
    rw [show rangePages 0x4000#64 0x2000#64 = [0x4000#64, 0x5000#64] from rfl,
      List.forall_mem_cons, List.forall_mem_singleton]
    decide
  obtain ⟨s', pages', hexec, hlist, hset, -⟩ := freePages_free_set hone
    (by decide : FreePagesAsserts 0x4000#64 0x2000#64) (by decide) hfresh
  exact ⟨s', pages', hexec, hlist, hset (by decide)⟩

/-- One page has been donated, and a call that frees no page loses it. -/
theorem freePages_of_nothing_drops_page :
    ∃ (L : Ledger) (s' : Machine), L.Reachable ∧ FreeList L.machine [0x4000#64] ∧
      FreePagesAsserts 0x8000#64 0#64 ∧ 0#64 ∉ rangePages 0x8000#64 0#64 ∧
      (∀ p ∈ rangePages 0x8000#64 0#64, p ∉ [0x4000#64]) ∧
      freePages L.machine 0x8000#64 0#64 = some s' ∧ FreeList s' [] := by
  have hinit := Ledger.Reachable.init fun _ => 0#64
  have hdonate := hinit.step (r := .donate 0x4000#64 0x1000#64)
    ⟨by decide, by decide, by decide, by decide, fun _ _ => Set.notMem_empty _⟩ rfl
  have hfree : FreeList (freePage ⟨fun _ => 0#64, 0#64⟩ 0x4000#64) [0x4000#64] :=
    freePage_spec ⟨rfl, List.nodup_nil, List.forall_mem_nil _⟩ (by decide) (by decide) (by decide)
  exact ⟨_, _, hdonate, hfree, by decide, by decide, fun _ hp => (List.not_mem_nil hp).elim,
    freePages_zero _ (by decide), rfl, List.nodup_nil, List.forall_mem_nil _⟩

end AcrnGuest
