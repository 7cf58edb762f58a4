import AcrnGuest.LinkedList
import AcrnGuest.Loop
import AcrnGuest.Memory
import Mathlib.Data.Finset.Card
import Mathlib.Data.Finset.Range

/-!
# The page allocator (`lib/alloc_page.c`)

Free pages form a list that is threaded through the pages themselves: the first
word of a free page holds the address of the next one, and the static variable
`freelist` holds the first. The lock only serialises callers and is released
before each function returns, so it has no part in the sequential behaviour.

`FreeList s pages` ties a machine state to the abstract list it represents. One
lemma per operation says what the operation does to that list.
-/

namespace AcrnGuest

open LinkedList

structure Machine where
  mem : Mem
  freelist : Word

/-- More iterations than a loop over distinct pages can make. -/
def LOOP_BOUND : Nat := 2 ^ 64

def virtToPhys (virt : Word) : Word := virt
def physToVirt (phys : Word) : Word := phys

/-! ### The operations -/

/-- One iteration of the linking loop of `free_pages`. -/
def freePagesStep (endAddr : Word) (st : Word × Mem) : (Word × Mem) ⊕ (Word × Mem) :=
  if st.1 + PAGE_SIZE ≠ endAddr then
    .inl (st.1 + PAGE_SIZE, Function.update st.2 st.1 (st.1 + PAGE_SIZE))
  else .inr st

/-- `free_pages`. The result is `none` when an assertion fails. -/
def freePages (s : Machine) (mem size : Word) : Option Machine :=
  if ¬ mem % PAGE_SIZE = 0#64 then none
  else if ¬ size % PAGE_SIZE = 0#64 then none
  else if ¬ (size = 0#64 ∨ mem = -size ∨ mem < mem + size) then none
  else if size = 0#64 then some { s with freelist := 0#64 }
  else
    (Loop.run (freePagesStep (mem + size)) LOOP_BOUND (mem, s.mem)).map fun st =>
      { mem := Function.update st.2 st.1 s.freelist, freelist := mem }

/-- `alloc_page`. The result `0` is the null pointer. -/
def allocPage (s : Machine) : Word × Machine :=
  if s.freelist = 0#64 then (0#64, s)
  else (s.freelist, { s with freelist := s.mem s.freelist })

/-- The local variables of the traversal in `alloc_pages`. -/
structure Scan where
  curr : Word
  next : Word
  run : Word
  runStart : Word
  runPrev : Word
  runNextPa : Word

/-- The run bookkeeping of one iteration, at the node `curr` behind `prev`. -/
def Scan.visit (c : Scan) (alignMask prev curr next : Word) : Scan :=
  let pa := virtToPhys curr
  if c.run = 0#64 then
    if pa &&& alignMask = 0#64 then
      { curr, next, run := 1, runStart := curr, runPrev := prev, runNextPa := pa + PAGE_SIZE }
    else { c with curr, next }
  else if pa = c.runNextPa then
    { c with curr, next, runNextPa := c.runNextPa + PAGE_SIZE, run := c.run + 1 }
  else { c with curr, next, run := 0#64 }

/-- One iteration of the `for (;;)` loop of `alloc_pages`. -/
def allocPagesStep (s : Machine) (n alignMask : Word) (c : Scan) : Scan ⊕ (Word × Machine) :=
  let prev := c.curr
  let curr := c.next
  if curr = 0#64 then .inr (0#64, s)
  else
    let next := s.mem curr
    let c' := c.visit alignMask prev curr next
    if c'.run = n then
      if c'.runPrev ≠ 0#64 then
        .inr (c'.runStart, { s with mem := Function.update s.mem c'.runPrev next })
      else .inr (c'.runStart, { s with freelist := next })
    else .inl c'

/-- `alloc_pages`. The result is `none` when the assertion on `order` fails. -/
def allocPages (s : Machine) (order : Word) : Option (Word × Machine) :=
  let n := 1#64 <<< order
  let alignMask := (n <<< PAGE_SHIFT) - 1#64
  if ¬ order < 64 then none
  else
    Loop.run (allocPagesStep s n alignMask) LOOP_BOUND
      { curr := 0#64, next := s.freelist, run := 0#64, runStart := 0#64, runPrev := 0#64,
        runNextPa := 0#64 }

def freePage (s : Machine) (page : Word) : Machine :=
  { mem := Function.update s.mem page s.freelist, freelist := page }

/-! ### The list of free pages -/

/-- The machine's freelist represents the list `pages`. -/
structure FreeList (s : Machine) (pages : List Word) : Prop where
  chain : Chain s.mem 0#64 s.freelist pages
  nodup : pages.Nodup
  isPage : ∀ p ∈ pages, IsPage p

theorem FreeList.unique {s : Machine} {pages other : List Word} (h : FreeList s pages)
    (hother : FreeList s other) : pages = other :=
  h.chain.unique hother.chain

theorem FreeList.zero_notMem {s : Machine} {pages : List Word} (h : FreeList s pages) :
    0#64 ∉ pages :=
  fun hzero => h.chain.ne_null 0#64 hzero rfl

theorem FreeList.frame {s s' : Machine} {pages : List Word} (h : FreeList s pages)
    (hfreelist : s'.freelist = s.freelist) (hmem : ∀ p ∈ pages, s'.mem p = s.mem p) :
    FreeList s' pages where
  chain := by
    rw [hfreelist]
    exact h.chain.frame hmem
  nodup := h.nodup
  isPage := h.isPage

/-- A list of distinct non-null addresses is shorter than the loop bound. -/
theorem FreeList.length_lt {s : Machine} {pages : List Word} (h : FreeList s pages) :
    pages.length < LOOP_BOUND := by
  have hnodup : ((0#64 :: pages).map BitVec.toNat).Nodup :=
    (List.nodup_cons.mpr ⟨h.zero_notMem, h.nodup⟩).map fun _ _ => BitVec.eq_of_toNat_eq
  have hsub : ((0#64 :: pages).map BitVec.toNat).toFinset ⊆ Finset.range (2 ^ 64) := by
    intro a ha
    simp only [List.mem_toFinset, List.mem_map] at ha
    obtain ⟨w, -, rfl⟩ := ha
    exact Finset.mem_range.mpr w.isLt
  have hcard := Finset.card_le_card hsub
  rw [List.toFinset_card_of_nodup hnodup, Finset.card_range, List.length_map,
    List.length_cons] at hcard
  exact hcard

/-! ### `alloc_page` and `free_page` -/

theorem allocPage_nil {s : Machine} (h : FreeList s []) : allocPage s = (0#64, s) := by
  have hfreelist : s.freelist = 0#64 := h.chain
  simp only [allocPage, if_pos hfreelist]

theorem allocPage_cons {s : Machine} {p : Word} {pages : List Word} (h : FreeList s (p :: pages)) :
    allocPage s = (p, { s with freelist := s.mem p }) ∧
      FreeList { s with freelist := s.mem p } pages := by
  obtain ⟨hhead, hne, hchain⟩ := h.chain
  refine ⟨?_, hchain, (List.nodup_cons.mp h.nodup).2, fun q hq => h.isPage q (by simp [hq])⟩
  rw [allocPage, hhead, if_neg hne]

theorem freePage_spec {s : Machine} {p : Word} {pages : List Word} (h : FreeList s pages)
    (hp : IsPage p) (hne : p ≠ 0#64) (hfresh : p ∉ pages) :
    FreeList (freePage s p) (p :: pages) where
  chain := by
    refine ⟨rfl, hne, ?_⟩
    simp only [freePage, Function.update_self]
    exact h.chain.frame fun q hq => Function.update_of_ne (ne_of_mem_of_not_mem hq hfresh) _ _
  nodup := List.nodup_cons.mpr ⟨hfresh, h.nodup⟩
  isPage := by
    intro q hq
    rcases List.mem_cons.mp hq with rfl | hq
    · exact hp
    · exact h.isPage q hq

/-! ### Ranges of consecutive pages -/

/-- The `n` consecutive pages from `p` on. -/
def pageRange (p : Word) : Nat → List Word
  | 0 => []
  | n + 1 => p :: pageRange (p + PAGE_SIZE) n

theorem mem_pageRange {p q : Word} {n : Nat} :
    q ∈ pageRange p n ↔ ∃ i < n, q = p + BitVec.ofNat 64 (4096 * i) := by
  induction n generalizing p with
  | zero => simp [pageRange]
  | succ n ih =>
      simp only [pageRange, List.mem_cons, ih]
      constructor
      · rintro (rfl | ⟨i, hi, rfl⟩)
        · exact ⟨0, by omega, by simp⟩
        · refine ⟨i + 1, by omega, ?_⟩
          rw [PAGE_SIZE_eq]
          bv_omega
      · rintro ⟨i, hi, rfl⟩
        cases i with
        | zero => exact Or.inl (by simp)
        | succ i =>
            refine Or.inr ⟨i, by omega, ?_⟩
            rw [PAGE_SIZE_eq]
            bv_omega

theorem pageRange_succ_eq_append (p : Word) (n : Nat) :
    pageRange p (n + 1) = pageRange p n ++ [p + BitVec.ofNat 64 (4096 * n)] := by
  induction n generalizing p with
  | zero => simp [pageRange]
  | succ n ih =>
      have hlast : p + PAGE_SIZE + BitVec.ofNat 64 (4096 * n) =
          p + BitVec.ofNat 64 (4096 * (n + 1)) := by
        rw [PAGE_SIZE_eq]
        bv_omega
      rw [pageRange, ih, hlast]
      rfl

@[simp] theorem length_pageRange (p : Word) (n : Nat) : (pageRange p n).length = n := by
  induction n generalizing p with
  | zero => rfl
  | succ n ih => simp [pageRange, ih]

theorem isPage_of_mem_pageRange {p q : Word} {n : Nat} (hp : IsPage p) (hq : q ∈ pageRange p n) :
    IsPage q := by
  obtain ⟨i, -, rfl⟩ := mem_pageRange.mp hq
  refine hp.add (isPage_iff.mpr ?_)
  rw [BitVec.toNat_ofNat]
  omega

theorem nodup_pageRange (p : Word) {n : Nat} (hn : n ≤ 2 ^ 52) : (pageRange p n).Nodup := by
  induction n generalizing p with
  | zero => exact List.nodup_nil
  | succ n ih =>
      refine List.nodup_cons.mpr ⟨?_, ih _ (by omega)⟩
      rw [mem_pageRange]
      rintro ⟨i, hi, heq⟩
      rw [PAGE_SIZE_eq] at heq
      bv_omega

theorem notMem_of_mem_middle {before run after : List Word} (h : (before ++ run ++ after).Nodup)
    {q : Word} (hq : q ∈ run) : q ∉ before ++ after := by
  have hright := List.nodup_append'.mp h
  have hleft := List.nodup_append'.mp hright.1
  rw [List.mem_append, not_or]
  exact ⟨fun hb => hleft.2.2 hb hq, fun ha => hright.2.2 (List.mem_append_right _ hq) ha⟩

/-! ### `free_pages` -/

/-- The linking loop threads the pages of the range and touches nothing else. -/
theorem run_freePagesStep {mem old : Word} {n : Nat} {pages : List Word} (m : Mem)
    (hn : n < 2 ^ 52) (hchain : Chain m 0#64 old pages) (hzero : 0#64 ∉ pageRange mem (n + 1))
    (hfresh : ∀ q ∈ pageRange mem (n + 1), q ∉ pages) {bound : Nat} (hbound : n < bound) :
    ∃ last m',
      Loop.run (freePagesStep (mem + BitVec.ofNat 64 (4096 * (n + 1)))) bound (mem, m) =
        some (last, m') ∧
      Chain (Function.update m' last old) 0#64 mem (pageRange mem (n + 1) ++ pages) ∧
      ∀ a ∉ pageRange mem (n + 1), Function.update m' last old a = m a := by
  induction n generalizing mem m bound with
  | zero =>
      obtain ⟨bound, rfl⟩ : ∃ b, bound = b + 1 := ⟨bound - 1, by omega⟩
      refine ⟨mem, m, Loop.run_succ_inr ?_ bound, ?_, ?_⟩
      · simp [freePagesStep, PAGE_SIZE_eq]
      · refine ⟨rfl, fun h => hzero (by simp [pageRange, h]), ?_⟩
        rw [Function.update_self]
        exact hchain.frame fun q hq =>
          Function.update_of_ne (ne_of_mem_of_not_mem hq (hfresh mem (by simp [pageRange]))) _ _
      · intro a ha
        exact Function.update_of_ne (fun h => ha (by simp [pageRange, h])) _ _
  | succ n ih =>
      obtain ⟨bound, rfl⟩ : ∃ b, bound = b + 1 := ⟨bound - 1, by omega⟩
      have hend : mem + BitVec.ofNat 64 (4096 * (n + 1 + 1)) =
          mem + PAGE_SIZE + BitVec.ofNat 64 (4096 * (n + 1)) := by
        rw [PAGE_SIZE_eq]
        bv_omega
      have hmore : mem + PAGE_SIZE ≠ mem + BitVec.ofNat 64 (4096 * (n + 1 + 1)) := by
        rw [PAGE_SIZE_eq]
        bv_omega
      have hnodup := List.nodup_cons.mp (nodup_pageRange mem (n := n + 1 + 1) (by omega))
      have hmem : mem ∉ pages := hfresh mem (by simp [pageRange])
      obtain ⟨last, m', hrun, hlinked, hframe⟩ :=
        ih (Function.update m mem (mem + PAGE_SIZE)) (by omega)
          (hchain.frame fun q hq => Function.update_of_ne (ne_of_mem_of_not_mem hq hmem) _ _)
          (fun h : 0#64 ∈ pageRange (mem + PAGE_SIZE) (n + 1) =>
            hzero (by rw [pageRange]; exact List.mem_cons_of_mem _ h))
          (fun q hq => hfresh q (by rw [pageRange]; exact List.mem_cons_of_mem _ hq))
          (by omega : n < bound)
      have hstep : freePagesStep (mem + BitVec.ofNat 64 (4096 * (n + 1 + 1))) (mem, m) =
          .inl (mem + PAGE_SIZE, Function.update m mem (mem + PAGE_SIZE)) := by
        simp only [freePagesStep, if_pos hmore]
      refine ⟨last, m', ?_, ⟨rfl, fun h => hzero (by simp [pageRange, h]), ?_⟩, ?_⟩
      · rw [Loop.run_succ_inl hstep, hend]
        exact hrun
      · rw [hframe mem hnodup.1, Function.update_self]
        exact hlinked
      · intro a ha
        rw [pageRange, List.mem_cons, not_or] at ha
        rw [hframe a ha.2, Function.update_of_ne ha.1]

theorem freePages_spec {s : Machine} {pages : List Word} {mem size : Word} (h : FreeList s pages)
    (hmem : IsPage mem) (hsize : IsPage size) (hne : size ≠ 0#64)
    (hfit : mem.toNat + size.toNat ≤ 2 ^ 64)
    (hzero : 0#64 ∉ pageRange mem (size.toNat / 4096))
    (hfresh : ∀ q ∈ pageRange mem (size.toNat / 4096), q ∉ pages) :
    ∃ s', freePages s mem size = some s' ∧
      FreeList s' (pageRange mem (size.toNat / 4096) ++ pages) ∧
      ∀ a ∉ pageRange mem (size.toNat / 4096), s'.mem a = s.mem a := by
  have hsize' := isPage_iff.mp hsize
  have hpos : 0 < size.toNat := by
    rcases Nat.eq_zero_or_pos size.toNat with h0 | h0
    · exact (hne (BitVec.eq_of_toNat_eq h0)).elim
    · exact h0
  have hlt := size.isLt
  obtain ⟨n, hn⟩ : ∃ n, size.toNat / 4096 = n + 1 := ⟨size.toNat / 4096 - 1, by omega⟩
  have hsizeEq : size = BitVec.ofNat 64 (4096 * (n + 1)) := by
    apply BitVec.eq_of_toNat_eq
    rw [BitVec.toNat_ofNat]
    omega
  have hassert : size = 0#64 ∨ mem = -size ∨ mem < mem + size := by
    right
    rcases Nat.lt_or_eq_of_le hfit with hfit | hfit
    · right
      bv_omega
    · left
      bv_omega
  rw [hn] at hzero hfresh ⊢
  obtain ⟨last, m', hrun, hlinked, hframe⟩ :=
    run_freePagesStep s.mem (by omega) h.chain hzero hfresh
      (by unfold LOOP_BOUND; omega : n < LOOP_BOUND)
  refine ⟨⟨Function.update m' last s.freelist, mem⟩, ?_, ⟨hlinked, ?_, ?_⟩, hframe⟩
  · rw [← hsizeEq] at hrun
    rw [freePages, if_neg (not_not.mpr (umod_PAGE_SIZE_eq_zero_iff.mpr hmem)),
      if_neg (not_not.mpr (umod_PAGE_SIZE_eq_zero_iff.mpr hsize)), if_neg (not_not.mpr hassert),
      if_neg hne, hrun]
    rfl
  · exact List.nodup_append'.mpr ⟨nodup_pageRange mem (by omega), h.nodup, hfresh⟩
  · intro q hq
    rcases List.mem_append.mp hq with hq | hq
    · exact isPage_of_mem_pageRange hmem hq
    · exact h.isPage q hq

/-! ### `alloc_pages` -/

/-- The node in front of the next one, or null at the head of the list. -/
def lastOrNull (nodes : List Word) : Word := nodes.getLast?.getD 0

theorem lastOrNull_append_singleton (nodes : List Word) (node : Word) :
    lastOrNull (nodes ++ [node]) = node := by
  simp [lastOrNull]

/-- The nodes that the traversal for a run of `n` pages leaves behind with no run in progress:
    a page that is not aligned is skipped, and a run that ends too early is given up at the node
    that breaks it, which is not looked at again. -/
inductive Passed (n : Nat) (alignMask : Word) : List Word → Prop where
  | nil : Passed n alignMask []
  | skip {p : Word} {front : List Word} (unaligned : p &&& alignMask ≠ 0#64)
      (rest : Passed n alignMask front) : Passed n alignMask (p :: front)
  | broken {p q : Word} {k : Nat} {front : List Word} (aligned : p &&& alignMask = 0#64)
      (pos : k ≠ 0) (short : k < n) (breaks : q ≠ p + BitVec.ofNat 64 (4096 * k))
      (rest : Passed n alignMask front) : Passed n alignMask (pageRange p k ++ q :: front)

theorem Passed.append {n : Nat} {alignMask : Word} {front back : List Word}
    (hfront : Passed n alignMask front) (hback : Passed n alignMask back) :
    Passed n alignMask (front ++ back) := by
  induction hfront with
  | nil => exact hback
  | skip hunaligned _ ih => exact .skip hunaligned ih
  | broken haligned hpos hshort hbreaks _ ih =>
      rw [List.append_assoc, List.cons_append]
      exact .broken haligned hpos hshort hbreaks ih

/-- The traversal has reached the end of the list with at most the start of a run. -/
def Exhausted (n : Nat) (alignMask : Word) (pages : List Word) : Prop :=
  ∃ front start k, pages = front ++ pageRange start k ∧ k < n ∧
    (k ≠ 0 → start &&& alignMask = 0#64) ∧ Passed n alignMask front

/-- What the traversal knows after visiting `front` and a run of `k` pages. -/
structure Scanned (s : Machine) (pages : List Word) (alignMask : Word) (c : Scan)
    (front : List Word) (k : Nat) (rest : List Word) : Prop where
  split : pages = front ++ pageRange c.runStart k ++ rest
  next : Chain s.mem 0#64 c.next rest
  curr : c.curr = lastOrNull (front ++ pageRange c.runStart k)
  run : c.run = BitVec.ofNat 64 k
  aligned : k ≠ 0 → c.runStart &&& alignMask = 0#64
  runPrev : k ≠ 0 → c.runPrev = lastOrNull front
  runNextPa : k ≠ 0 → c.runNextPa = c.runStart + BitVec.ofNat 64 (4096 * k)

/-- Visiting one more node starts, extends or gives up the current run. -/
theorem Scanned.visit {s : Machine} {pages : List Word} {alignMask : Word} {c : Scan}
    {front rest : List Word} {k : Nat} {node : Word}
    (h : Scanned s pages alignMask c front k (node :: rest)) (hk : k < 2 ^ 63) :
    ∃ front' k', k' ≤ k + 1 ∧
      (∀ n, k < n → Passed n alignMask front → Passed n alignMask front') ∧
      Scanned s pages alignMask
        (c.visit alignMask c.curr c.next (s.mem c.next)) front' k' rest := by
  obtain ⟨hnode, -, hchain⟩ := h.next
  by_cases hrun : c.run = 0#64
  · -- no run is in progress, so the visited nodes are all in front of the next run
    have hk0 : k = 0 := by
      have := h.run
      bv_omega
    subst hk0
    have hsplit : pages = front ++ node :: rest := by simpa [pageRange] using h.split
    have hcurr : c.curr = lastOrNull front := by simpa [pageRange] using h.curr
    by_cases halign : virtToPhys c.next &&& alignMask = 0#64
    · refine ⟨front, 1, by omega, fun _ _ hpassed => hpassed, ?_⟩
      simp only [Scan.visit, if_pos hrun, if_pos halign]
      exact
        { split := by simpa [pageRange, hnode] using hsplit
          next := by simpa [hnode] using hchain
          curr := by simp [pageRange, lastOrNull_append_singleton]
          run := rfl
          aligned := fun _ => halign
          runPrev := fun _ => hcurr
          runNextPa := fun _ => by simp [virtToPhys, PAGE_SIZE_eq] }
    · refine ⟨front ++ [node], 0, by omega,
        fun _ _ hpassed => hpassed.append (.skip (hnode ▸ halign) .nil), ?_⟩
      simp only [Scan.visit, if_pos hrun, if_neg halign]
      exact
        { split := by simpa [pageRange] using hsplit
          next := by simpa [hnode] using hchain
          curr := by simp [pageRange, lastOrNull_append_singleton, hnode]
          run := hrun
          aligned := fun h0 => (h0 rfl).elim
          runPrev := fun h0 => (h0 rfl).elim
          runNextPa := fun h0 => (h0 rfl).elim }
  · have hk0 : k ≠ 0 := by
      rintro rfl
      exact hrun h.run
    by_cases hpa : virtToPhys c.next = c.runNextPa
    · refine ⟨front, k + 1, by omega, fun _ _ hpassed => hpassed, ?_⟩
      have hnext : c.next = c.runStart + BitVec.ofNat 64 (4096 * k) := by
        rw [← h.runNextPa hk0]
        exact hpa
      simp only [Scan.visit, if_neg hrun, if_pos hpa]
      exact
        { split := by
            rw [pageRange_succ_eq_append, ← hnext, hnode]
            simpa using h.split
          next := by simpa [hnode] using hchain
          curr := by
            rw [pageRange_succ_eq_append, ← List.append_assoc, lastOrNull_append_singleton]
            exact hnext
          run := by
            rw [h.run]
            bv_omega
          aligned := fun _ => h.aligned hk0
          runPrev := fun _ => h.runPrev hk0
          runNextPa := fun _ => by
            simp only [h.runNextPa hk0, PAGE_SIZE_eq]
            bv_omega }
    · have hbreaks : node ≠ c.runStart + BitVec.ofNat 64 (4096 * k) := by
        rw [← h.runNextPa hk0, ← hnode]
        exact hpa
      refine ⟨front ++ pageRange c.runStart k ++ [node], 0, by omega, ?_, ?_⟩
      · intro n hkn hpassed
        rw [List.append_assoc]
        exact hpassed.append (.broken (h.aligned hk0) hk0 hkn hbreaks .nil)
      simp only [Scan.visit, if_neg hrun, if_neg hpa]
      exact
        { split := by simpa [pageRange] using h.split
          next := by simpa [hnode] using hchain
          curr := by
            simp only [pageRange, List.append_nil, lastOrNull_append_singleton]
            exact hnode
          run := rfl
          aligned := fun h0 => (h0 rfl).elim
          runPrev := fun h0 => (h0 rfl).elim
          runNextPa := fun h0 => (h0 rfl).elim }

/-- The state of the allocator after the run behind `runPrev` has been cut out. -/
def unlinkRun (s : Machine) (runPrev next : Word) : Machine :=
  if runPrev ≠ 0#64 then { s with mem := Function.update s.mem runPrev next }
  else { s with freelist := next }

theorem allocPagesStep_cons (s : Machine) (n alignMask : Word) {c : Scan} (hnext : c.next ≠ 0#64) :
    allocPagesStep s n alignMask c =
      let c' := c.visit alignMask c.curr c.next (s.mem c.next)
      if c'.run = n then .inr (c'.runStart, unlinkRun s c'.runPrev (s.mem c.next))
        else .inl c' := by
  simp only [allocPagesStep, if_neg hnext, unlinkRun]
  split
  · split <;> rfl
  · rfl

theorem unlinkRun_spec {s : Machine} {front run rest : List Word} {next : Word}
    (h : FreeList s (front ++ run ++ rest)) (hnext : Chain s.mem 0#64 next rest) :
    FreeList (unlinkRun s (lastOrNull front) next) (front ++ rest) ∧
      ∀ a ∉ front, (unlinkRun s (lastOrNull front) next).mem a = s.mem a := by
  have hnodup : (front ++ rest).Nodup :=
    h.nodup.sublist ((List.sublist_append_left front run).append (List.Sublist.refl rest))
  have hisPage : ∀ p ∈ front ++ rest, IsPage p := by
    intro p hp
    refine h.isPage p ?_
    simp only [List.mem_append] at hp ⊢
    tauto
  rcases List.eq_nil_or_concat front with rfl | ⟨init, last, rfl⟩
  · -- the run starts at the head of the list
    have hunlink : unlinkRun s (lastOrNull []) next = { s with freelist := next } := rfl
    rw [hunlink]
    exact ⟨⟨hnext, hnodup, hisPage⟩, fun _ _ => rfl⟩
  · rw [List.concat_eq_append] at h hnodup hisPage ⊢
    have hlast : last ≠ 0#64 := h.chain.ne_null last (by simp)
    have hunlink : unlinkRun s (lastOrNull (init ++ [last])) next =
        { s with mem := Function.update s.mem last next } := by
      rw [lastOrNull_append_singleton, unlinkRun, if_pos hlast]
    have hlastNotMem : last ∉ init ++ rest := by
      have hmiddle : (init ++ last :: rest).Nodup := by simpa using hnodup
      exact (List.nodup_middle.mp hmiddle).notMem
    rw [hunlink]
    refine ⟨⟨?_, hnodup, hisPage⟩, fun a ha => ?_⟩
    · exact h.chain.cut hnext (Function.update_self last next s.mem)
        fun node hnode => Function.update_of_ne (ne_of_mem_of_not_mem hnode hlastNotMem) _ _
    · exact Function.update_of_ne (fun heq => ha (by simp [heq])) _ _

/-- The traversal stops with a run of the wanted length or with null. -/
theorem run_allocPagesStep {s : Machine} {pages : List Word} {n alignMask : Word}
    (h : FreeList s pages) (hn : 0 < n.toNat) (hn63 : n.toNat ≤ 2 ^ 63) {c : Scan}
    {front rest : List Word} {k : Nat} (hscan : Scanned s pages alignMask c front k rest)
    (hk : k < n.toNat) (hpassed : Passed n.toNat alignMask front) {bound : Nat}
    (hbound : rest.length < bound) :
    ∃ result s', Loop.run (allocPagesStep s n alignMask) bound c = some (result, s') ∧
      ((result = 0#64 ∧ s' = s ∧ Exhausted n.toNat alignMask pages) ∨
        ∃ before after, pages = before ++ pageRange result n.toNat ++ after ∧
          result &&& alignMask = 0#64 ∧ Passed n.toNat alignMask before ∧
          FreeList s' (before ++ after) ∧ ∀ a ∉ before, s'.mem a = s.mem a) := by
  induction rest generalizing c front k bound with
  | nil =>
      obtain ⟨bound, rfl⟩ : ∃ b, bound = b + 1 := ⟨bound - 1, by omega⟩
      have hnext : c.next = 0#64 := hscan.next
      have hstep : allocPagesStep s n alignMask c = .inr (0#64, s) := by
        simp only [allocPagesStep, if_pos hnext]
      have hsplit : pages = front ++ pageRange c.runStart k := by simpa using hscan.split
      exact ⟨0#64, s, Loop.run_succ_inr hstep bound,
        Or.inl ⟨rfl, rfl, front, c.runStart, k, hsplit, hk, hscan.aligned, hpassed⟩⟩
  | cons node rest ih =>
      obtain ⟨bound, rfl⟩ : ∃ b, bound = b + 1 := ⟨bound - 1, by omega⟩
      have hnext : c.next ≠ 0#64 := by
        obtain ⟨hnode, hne, -⟩ := hscan.next
        rwa [hnode]
      have hstep := allocPagesStep_cons s n alignMask hnext
      obtain ⟨front', k', hk', hkept, hscan'⟩ := hscan.visit (by omega)
      have hpassed' := hkept n.toNat hk hpassed
      dsimp only at hstep
      generalize hc' : c.visit alignMask c.curr c.next (s.mem c.next) = c' at hstep hscan'
      by_cases hrun : c'.run = n
      · rw [if_pos hrun] at hstep
        have hkn : k' = n.toNat := by
          have := hscan'.run
          bv_omega
        have hnextEq : s.mem c.next = c'.next := by
          rw [← hc']
          unfold Scan.visit
          dsimp only
          split_ifs <;> rfl
        rw [hnextEq, hscan'.runPrev (by omega)] at hstep
        subst hkn
        have hsplit := hscan'.split
        have hspec := unlinkRun_spec (hsplit ▸ h) hscan'.next
        exact ⟨_, _, Loop.run_succ_inr hstep bound,
          Or.inr ⟨front', rest, hsplit, hscan'.aligned (by omega), hpassed', hspec⟩⟩
      · rw [if_neg hrun] at hstep
        have hkn : k' ≠ n.toNat := by
          rintro rfl
          exact hrun (by rw [hscan'.run]; simp)
        rw [Loop.run_succ_inl hstep]
        exact ih hscan' (by omega) hpassed' (by simpa using hbound)

theorem toNat_one_shiftLeft {order : Word} (horder : order.toNat < 64) :
    (1#64 <<< order).toNat = 2 ^ order.toNat := by
  have hlt : 2 ^ order.toNat < 2 ^ 64 := Nat.pow_lt_pow_right (by omega) horder
  rw [BitVec.shiftLeft_eq', BitVec.toNat_shiftLeft, Nat.shiftLeft_eq]
  simp only [BitVec.toNat_ofNat]
  omega

/-- From order 52 on the alignment mask is all ones, and only null passes it. -/
theorem lt_of_and_alignMask_eq_zero {order pa : Word} (horder : order.toNat < 64) (hpa : pa ≠ 0#64)
    (hmask : pa &&& ((1#64 <<< order) <<< PAGE_SHIFT - 1#64) = 0#64) : order.toNat < 52 := by
  by_contra hge
  have hshift : (1#64 <<< order) <<< PAGE_SHIFT = 0#64 := by
    apply BitVec.eq_of_toNat_eq
    rw [BitVec.toNat_shiftLeft, toNat_one_shiftLeft horder, Nat.shiftLeft_eq, ← Nat.pow_add]
    exact Nat.mod_eq_zero_of_dvd (Nat.pow_dvd_pow 2 (by unfold PAGE_SHIFT; omega))
  have hones : (0#64 - 1#64 : Word) = BitVec.allOnes 64 := by decide
  rw [hshift, hones, BitVec.and_allOnes] at hmask
  exact hpa hmask

theorem and_alignMask_eq_zero_iff {order pa : Word} (horder : order.toNat < 52) :
    pa &&& ((1#64 <<< order) <<< PAGE_SHIFT - 1#64) = 0#64 ↔
      pa.toNat % (2 ^ order.toNat * 4096) = 0 := by
  have hlt : 2 ^ (order.toNat + 12) < 2 ^ 64 := Nat.pow_lt_pow_right (by omega) (by omega)
  have hpos : 0 < 2 ^ (order.toNat + 12) := Nat.two_pow_pos _
  have hshift : ((1#64 <<< order) <<< PAGE_SHIFT - 1#64).toNat = 2 ^ (order.toNat + 12) - 1 := by
    rw [BitVec.toNat_sub, BitVec.toNat_shiftLeft, toNat_one_shiftLeft (by omega),
      Nat.shiftLeft_eq, ← Nat.pow_add]
    simp only [PAGE_SHIFT, BitVec.toNat_ofNat]
    omega
  rw [← BitVec.toNat_inj, BitVec.toNat_and, hshift, Nat.and_two_pow_sub_one_eq_mod, Nat.pow_add]
  rfl

/-- The mask that `alloc_pages` compares the address of a run with. -/
def alignMaskOf (order : Word) : Word := (1#64 <<< order) <<< PAGE_SHIFT - 1#64

/-- What the traversal of `alloc_pages` finds, and what it has passed over until then. -/
theorem allocPages_scan {s : Machine} {pages : List Word} {order : Word} (h : FreeList s pages)
    (horder : order.toNat < 64) :
    ∃ result s', allocPages s order = some (result, s') ∧
      ((result = 0#64 ∧ s' = s ∧ Exhausted (2 ^ order.toNat) (alignMaskOf order) pages) ∨
        ∃ before after, pages = before ++ pageRange result (2 ^ order.toNat) ++ after ∧
          result &&& alignMaskOf order = 0#64 ∧
          Passed (2 ^ order.toNat) (alignMaskOf order) before ∧
          FreeList s' (before ++ after) ∧ ∀ a ∉ before, s'.mem a = s.mem a) := by
  have hn : (1#64 <<< order).toNat = 2 ^ order.toNat := toNat_one_shiftLeft horder
  have hscan : Scanned s pages (alignMaskOf order)
      { curr := 0#64, next := s.freelist, run := 0#64, runStart := 0#64, runPrev := 0#64,
        runNextPa := 0#64 }
      [] 0 pages :=
    { split := by simp [pageRange]
      next := h.chain
      curr := rfl
      run := rfl
      aligned := fun h0 => (h0 rfl).elim
      runPrev := fun h0 => (h0 rfl).elim
      runNextPa := fun h0 => (h0 rfl).elim }
  have hpos : 0 < 2 ^ order.toNat := Nat.two_pow_pos _
  have hle : 2 ^ order.toNat ≤ 2 ^ 63 := Nat.pow_le_pow_right (by omega) (by omega)
  obtain ⟨result, s', hrun, hresult⟩ :=
    run_allocPagesStep h (by rw [hn]; exact hpos) (by rw [hn]; exact hle) hscan
      (by rw [hn]; exact hpos) .nil h.length_lt
  rw [hn] at hresult
  refine ⟨result, s', ?_, hresult⟩
  rw [allocPages, if_neg (not_not.mpr (by simpa [BitVec.lt_def] using horder))]
  exact hrun

/-- **`alloc_pages`** either leaves the allocator as it is and returns null, or
    cuts a naturally aligned run of `2 ^ order` consecutive pages out of the list. -/
theorem allocPages_spec {s : Machine} {pages : List Word} {order : Word} (h : FreeList s pages)
    (horder : order.toNat < 64) :
    ∃ result s', allocPages s order = some (result, s') ∧
      ((result = 0#64 ∧ s' = s) ∨
        order.toNat < 52 ∧ result.toNat % (2 ^ order.toNat * 4096) = 0 ∧
        ∃ before after, pages = before ++ pageRange result (2 ^ order.toNat) ++ after ∧
          FreeList s' (before ++ after) ∧ ∀ a ∉ before, s'.mem a = s.mem a) := by
  obtain ⟨result, s', hrun, hresult⟩ := allocPages_scan h horder
  refine ⟨result, s', hrun, ?_⟩
  rcases hresult with ⟨hnull, hsame, -⟩ | ⟨before, after, hsplit, haligned, -, hlist, hframe⟩
  · exact Or.inl ⟨hnull, hsame⟩
  · have hresultMem : result ∈ pages := by
      obtain ⟨k, hk⟩ : ∃ k, 2 ^ order.toNat = k + 1 :=
        ⟨2 ^ order.toNat - 1, by have := Nat.two_pow_pos order.toNat; omega⟩
      rw [hsplit, hk]
      simp [pageRange]
    have hlt := lt_of_and_alignMask_eq_zero horder (h.chain.ne_null result hresultMem) haligned
    exact Or.inr ⟨hlt, (and_alignMask_eq_zero_iff hlt).mp haligned, before, after, hsplit, hlist,
      hframe⟩

end AcrnGuest
