import AcrnGuest.Loop
import Mathlib.Data.List.Nodup
import Mathlib.Data.List.Perm.Basic
import Mathlib.Data.Nat.Find
import Mathlib.Data.Set.Lattice
import Mathlib.Order.CompletePartialOrder
import Mathlib.Logic.Function.Basic
import Mathlib.Tactic.Common

/-!
# Radix tables in memory

A radix table maps addresses to values through a tree of table pages, one level
per group of address bits. Every entry of a table at level `l + 1` either points
to a table at level `l` or ends the walk, as a leaf or as an absent entry;
entries of level 1 always end it. What counts as a pointer is a parameter, so
the page tables of a processor, nested page tables and tables of an I/O memory
management unit are all instances.

* `Layout` fixes the memory layout, `WF` says that the table pages form a tree,
  and `pages` is the set of its pages.
* `eval` reads a table along the walk of an address. A `Reading` says what to
  make of the entry that ends the walk and of the pointers above it.
* `Regrown` describes a change below one entry of one table; it is the only
  place where tree shape and frame conditions are argued.
* `install_spec` is the rule for programs that walk down to a level, creating or
  splitting tables on the way, and then write one entry.
-/

namespace AcrnGuest.Radix

variable {α A E P I V S : Type*}

/-- The highest level at which the indices of two addresses differ. -/
theorem exists_highest_ne [DecidableEq I] (f g : Nat → I) {k l : Nat} (hk : k ≤ l)
    (hne : f k ≠ g k) :
    ∃ j, k ≤ j ∧ j ≤ l ∧ f j ≠ g j ∧ ∀ i, j < i → i ≤ l → f i = g i :=
  ⟨Nat.findGreatest (fun j => f j ≠ g j) l, Nat.le_findGreatest hk hne, Nat.findGreatest_le _,
    Nat.findGreatest_spec (P := fun j => f j ≠ g j) hk hne,
    fun _ hi hil => not_not.mp (Nat.findGreatest_is_greatest hi hil)⟩

/-- Memory layout of a radix table. `child l e` is the table that an entry `e` of
    level `l` points to, if it is a pointer. -/
structure Layout (α A E P I : Type*) where
  slot : P → I → A
  owner : A → P
  idx : Nat → α → I
  child : Nat → E → Option P
  Page : P → Prop
  owner_slot : ∀ {p}, Page p → ∀ i, owner (slot p i) = p
  slot_injective : ∀ {p}, Page p → Function.Injective (slot p)
  child_one : ∀ e, child 1 e = none

/-- How to read the walk of an address: the value of the entry that ends it and
    the effect of a pointer above. `stuck` is the value below level 1, which no
    walk reaches. -/
structure Reading (α E V : Type*) where
  stuck : V
  leaf : Nat → E → α → V
  node : Nat → E → V → V

def stopLevel : Reading α E Nat where
  stuck := 0
  leaf l _ _ := l
  node _ _ v := v

/-- Apply the effect of the pointers `es`, the first of them at level `l`. -/
def Reading.climb (r : Reading α E V) : Nat → List E → V → V
  | _, [], v => v
  | l, e :: es, v => r.node l e (r.climb (l - 1) es v)

/-- Pointers without an effect of their own. -/
theorem Reading.climb_of_node_eq {r : Reading α E V} (h : ∀ l e v, r.node l e v = v) (l : Nat)
    (es : List E) (v : V) : r.climb l es v = v := by
  induction es generalizing l with
  | nil => rfl
  | cons e es ih => rw [climb, h, ih]

namespace Layout

variable (L : Layout α A E P I)

def pages (m : A → E) : Nat → P → Set P
  | 0, _ => ∅
  | l + 1, p => {p} ∪ {q | ∃ i c, L.child (l + 1) (m (L.slot p i)) = some c ∧ q ∈ pages m l c}

/-- The pages below `p` form a tree, and every entry in it meets `good`. -/
def WF (good : Nat → E → Prop) (m : A → E) : Nat → P → Prop
  | 0, _ => True
  | l + 1, p =>
      L.Page p ∧ (∀ i, good (l + 1) (m (L.slot p i))) ∧
      (∀ i c, L.child (l + 1) (m (L.slot p i)) = some c → WF good m l c ∧ p ∉ L.pages m l c) ∧
      ∀ i j c d, i ≠ j → L.child (l + 1) (m (L.slot p i)) = some c →
        L.child (l + 1) (m (L.slot p j)) = some d → Disjoint (L.pages m l c) (L.pages m l d)

def entry (m : A → E) (l : Nat) (p : P) (va : α) : E := m (L.slot p (L.idx l va))

def eval (r : Reading α E V) (m : A → E) : Nat → P → α → V
  | 0, _, _ => r.stuck
  | l + 1, p, va =>
      match L.child (l + 1) (L.entry m (l + 1) p va) with
      | some c => r.node (l + 1) (L.entry m (l + 1) p va) (eval r m l c va)
      | none => r.leaf (l + 1) (L.entry m (l + 1) p va) va

def IsPath (good : Nat → E → Prop) : Nat → List E → Prop
  | _, [] => True
  | l, e :: es => good l e ∧ (∃ c, L.child l e = some c) ∧ IsPath good (l - 1) es

variable {L} {good : Nat → E → Prop} {m m' : A → E} {l : Nat} {p : P} {va : α}

theorem mem_pages_succ {q : P} :
    q ∈ L.pages m (l + 1) p ↔
      q = p ∨ ∃ i c, L.child (l + 1) (m (L.slot p i)) = some c ∧ q ∈ L.pages m l c := Iff.rfl

theorem self_mem_pages : p ∈ L.pages m (l + 1) p := mem_pages_succ.mpr (Or.inl rfl)

theorem mem_pages_child {i : I} {c q : P} (hc : L.child (l + 1) (m (L.slot p i)) = some c)
    (hq : q ∈ L.pages m l c) : q ∈ L.pages m (l + 1) p :=
  mem_pages_succ.mpr (Or.inr ⟨i, c, hc, hq⟩)

theorem eval_some {r : Reading α E V} {c : P}
    (hc : L.child (l + 1) (L.entry m (l + 1) p va) = some c) :
    L.eval r m (l + 1) p va = r.node (l + 1) (L.entry m (l + 1) p va) (L.eval r m l c va) := by
  simp only [eval, hc]

theorem eval_none {r : Reading α E V} (hc : L.child (l + 1) (L.entry m (l + 1) p va) = none) :
    L.eval r m (l + 1) p va = r.leaf (l + 1) (L.entry m (l + 1) p va) va := by
  simp only [eval, hc]

theorem stopLevel_le (L : Layout α A E P I) (m : A → E) (l : Nat) (p : P) (va : α) :
    L.eval stopLevel m l p va ≤ l := by
  induction l generalizing p with
  | zero => exact Nat.le_refl 0
  | succ l ih =>
      cases hc : L.child (l + 1) (L.entry m (l + 1) p va) with
      | none =>
          rw [eval_none hc]
          exact Nat.le_refl _
      | some c =>
          rw [eval_some hc]
          exact Nat.le_succ_of_le (ih c)

theorem one_le_stopLevel (L : Layout α A E P I) (m : A → E) (l : Nat) (p : P) (va : α) :
    1 ≤ L.eval stopLevel m (l + 1) p va := by
  induction l generalizing p with
  | zero =>
      rw [eval_none (L.child_one _)]
      exact Nat.le_refl 1
  | succ l ih =>
      cases hc : L.child (l + 1 + 1) (L.entry m (l + 1 + 1) p va) with
      | none =>
          rw [eval_none hc]
          exact Nat.succ_pos _
      | some c =>
          rw [eval_some hc]
          exact ih c

/-- Addresses that use the same entries down to the level at which the walk of the first one ends
    are read alike. -/
theorem eval_congr_idx {r : Reading α E V} {va' : α}
    (hidx : ∀ k, L.eval stopLevel m l p va ≤ k → k ≤ l → L.idx k va' = L.idx k va)
    (hleaf : ∀ k e, r.leaf k e va' = r.leaf k e va) : L.eval r m l p va' = L.eval r m l p va := by
  induction l generalizing p with
  | zero => rfl
  | succ l ih =>
      have hentry : L.entry m (l + 1) p va' = L.entry m (l + 1) p va := by
        rw [entry, entry, hidx (l + 1) (stopLevel_le L m (l + 1) p va) (Nat.le_refl _)]
      cases hc : L.child (l + 1) (L.entry m (l + 1) p va) with
      | none =>
          rw [eval_none hc, eval_none (hentry ▸ hc), hentry]
          exact hleaf _ _
      | some c =>
          have hstop : L.eval stopLevel m (l + 1) p va = L.eval stopLevel m l c va := eval_some hc
          rw [hstop] at hidx
          rw [eval_some hc, eval_some (hentry ▸ hc), hentry,
            ih fun k hk hkl => hidx k hk (Nat.le_succ_of_le hkl)]

/-! ### Agreement on the pages of a tree -/

theorem WF.isPage (h : L.WF good m (l + 1) p) : L.Page p := h.1

theorem WF.good_entry (h : L.WF good m (l + 1) p) (i : I) : good (l + 1) (m (L.slot p i)) := h.2.1 i

theorem WF.child (h : L.WF good m (l + 1) p) {i : I} {c : P}
    (hc : L.child (l + 1) (m (L.slot p i)) = some c) : L.WF good m l c ∧ p ∉ L.pages m l c :=
  h.2.2.1 i c hc

theorem WF.apart (h : L.WF good m (l + 1) p) {i j : I} {c d : P} (hij : i ≠ j)
    (hc : L.child (l + 1) (m (L.slot p i)) = some c)
    (hd : L.child (l + 1) (m (L.slot p j)) = some d) :
    Disjoint (L.pages m l c) (L.pages m l d) :=
  h.2.2.2 i j c d hij hc hd

theorem WF.agree_slot (h : L.WF good m (l + 1) p)
    (hagree : ∀ a, L.owner a ∈ L.pages m (l + 1) p → m' a = m a) (i : I) :
    m' (L.slot p i) = m (L.slot p i) :=
  hagree _ (by rw [L.owner_slot h.isPage]; exact self_mem_pages)

theorem WF.pages_congr (h : L.WF good m l p)
    (hagree : ∀ a, L.owner a ∈ L.pages m l p → m' a = m a) : L.pages m' l p = L.pages m l p := by
  induction l generalizing p with
  | zero => rfl
  | succ l ih =>
      ext q
      simp only [mem_pages_succ, h.agree_slot hagree]
      refine or_congr Iff.rfl (exists_congr fun i => exists_congr fun c =>
        and_congr_right fun hc => ?_)
      rw [ih (h.child hc).1 fun a ha => hagree a (mem_pages_child hc ha)]

theorem WF.congr (h : L.WF good m l p)
    (hagree : ∀ a, L.owner a ∈ L.pages m l p → m' a = m a) : L.WF good m' l p := by
  induction l generalizing p with
  | zero => trivial
  | succ l ih =>
      have hchild : ∀ i c, L.child (l + 1) (m (L.slot p i)) = some c →
          ∀ a, L.owner a ∈ L.pages m l c → m' a = m a :=
        fun i c hc a ha => hagree a (mem_pages_child hc ha)
      refine ⟨h.isPage, fun i => ?_, fun i c hc => ?_, fun i j c d hij hc hd => ?_⟩
      · rw [h.agree_slot hagree]
        exact h.good_entry i
      · rw [h.agree_slot hagree] at hc
        rw [(h.child hc).1.pages_congr (hchild i c hc)]
        exact ⟨ih (h.child hc).1 (hchild i c hc), (h.child hc).2⟩
      · rw [h.agree_slot hagree] at hc hd
        rw [(h.child hc).1.pages_congr (hchild i c hc), (h.child hd).1.pages_congr (hchild j d hd)]
        exact h.apart hij hc hd

/-- Every reading of a tree only depends on its pages. -/
theorem WF.eval_congr (h : L.WF good m l p)
    (hagree : ∀ a, L.owner a ∈ L.pages m l p → m' a = m a) (r : Reading α E V) :
    L.eval r m' l p va = L.eval r m l p va := by
  induction l generalizing p with
  | zero => rfl
  | succ l ih =>
      have hentry : L.entry m' (l + 1) p va = L.entry m (l + 1) p va := h.agree_slot hagree _
      cases hc : L.child (l + 1) (L.entry m (l + 1) p va) with
      | none => rw [eval_none hc, eval_none (hentry ▸ hc), hentry]
      | some c =>
          rw [eval_some hc, eval_some (hentry ▸ hc), hentry,
            ih (h.child hc).1 fun a ha => hagree a (mem_pages_child hc ha)]

theorem WF.mono {good' : Nat → E → Prop} (hgood : ∀ k e, good k e → good' k e)
    (h : L.WF good m l p) : L.WF good' m l p := by
  induction l generalizing p with
  | zero => trivial
  | succ l ih =>
      exact ⟨h.isPage, fun i => hgood _ _ (h.good_entry i),
        fun i c hc => ⟨ih (h.child hc).1, (h.child hc).2⟩, fun i j c d hij hc hd =>
          h.apart hij hc hd⟩

/-! ### Tables without pointers -/

theorem pages_of_ends (hends : ∀ i, L.child (l + 1) (m (L.slot p i)) = none) :
    L.pages m (l + 1) p = {p} := by
  ext q
  rw [mem_pages_succ]
  constructor
  · rintro (rfl | ⟨i, d, hd, -⟩)
    · exact rfl
    · rw [hends i] at hd
      exact (Option.some_ne_none d hd.symm).elim
  · exact fun hq => Or.inl hq

theorem wf_of_ends (hpage : L.Page p) (hgood : ∀ i, good (l + 1) (m (L.slot p i)))
    (hends : ∀ i, L.child (l + 1) (m (L.slot p i)) = none) : L.WF good m (l + 1) p := by
  refine ⟨hpage, hgood, fun i d hd => ?_, fun i j d e _ hd => ?_⟩
  · rw [hends i] at hd
    exact (Option.some_ne_none d hd.symm).elim
  · rw [hends i] at hd
    exact (Option.some_ne_none d hd.symm).elim

/-- A table with one pointer. -/
theorem pages_of_only_child {i : I} {c : P} (hc : L.child (l + 1) (m (L.slot p i)) = some c)
    (honly : ∀ j, j ≠ i → L.child (l + 1) (m (L.slot p j)) = none) :
    L.pages m (l + 1) p = {p} ∪ L.pages m l c := by
  ext q
  rw [mem_pages_succ]
  refine or_congr Iff.rfl ⟨?_, fun hq => ⟨i, c, hc, hq⟩⟩
  rintro ⟨j, d, hd, hq⟩
  by_cases hj : j = i
  · rw [hj, hc] at hd
    exact Option.some.inj hd ▸ hq
  · rw [honly j hj] at hd
    exact (Option.some_ne_none d hd.symm).elim

theorem wf_of_only_child {i : I} {c : P} (hpage : L.Page p)
    (hgood : ∀ j, good (l + 1) (m (L.slot p j))) (hc : L.child (l + 1) (m (L.slot p i)) = some c)
    (honly : ∀ j, j ≠ i → L.child (l + 1) (m (L.slot p j)) = none) (hwf : L.WF good m l c)
    (hout : p ∉ L.pages m l c) : L.WF good m (l + 1) p := by
  refine ⟨hpage, hgood, fun j d hd => ?_, fun j k d e hjk hd he => ?_⟩
  · by_cases hj : j = i
    · rw [hj, hc] at hd
      obtain rfl := Option.some.inj hd
      exact ⟨hwf, hout⟩
    · rw [honly j hj] at hd
      exact (Option.some_ne_none d hd.symm).elim
  · by_cases hj : j = i
    · rw [honly k (hj ▸ hjk.symm)] at he
      exact (Option.some_ne_none e he.symm).elim
    · rw [honly j hj] at hd
      exact (Option.some_ne_none d hd.symm).elim

/-! ### The entry at which a walk ends -/

/-- The level and the address of the entry at which the walk of `va` ends, when it does not go below
    the level `lowest`. -/
def find (L : Layout α A E P I) (m : A → E) (va : α) (lowest : Nat) : Nat → P → Nat × A
  | 0, p => (0, L.slot p (L.idx 0 va))
  | l + 1, p =>
      if l + 1 ≤ lowest then (l + 1, L.slot p (L.idx (l + 1) va))
      else
        match L.child (l + 1) (L.entry m (l + 1) p va) with
        | some c => find L m va lowest l c
        | none => (l + 1, L.slot p (L.idx (l + 1) va))

section Find

variable {lowest : Nat}

theorem find_top (h : l + 1 ≤ lowest) :
    L.find m va lowest (l + 1) p = (l + 1, L.slot p (L.idx (l + 1) va)) := by
  rw [find, if_pos h]

theorem find_some {c : P} (h : lowest < l + 1)
    (hc : L.child (l + 1) (L.entry m (l + 1) p va) = some c) :
    L.find m va lowest (l + 1) p = L.find m va lowest l c := by
  rw [find, if_neg (Nat.not_le_of_lt h), hc]

theorem find_none (hc : L.child (l + 1) (L.entry m (l + 1) p va) = none) :
    L.find m va lowest (l + 1) p = (l + 1, L.slot p (L.idx (l + 1) va)) := by
  rw [find, hc]
  exact ite_self _

/-- A walk ends in the table where it starts, or in the tree below the entry it uses there. -/
theorem find_cases (m : A → E) (va : α) (lowest l : Nat) (p : P) :
    L.find m va lowest (l + 1) p = (l + 1, L.slot p (L.idx (l + 1) va)) ∨
      ∃ c, lowest < l + 1 ∧ L.child (l + 1) (m (L.slot p (L.idx (l + 1) va))) = some c ∧
        L.find m va lowest (l + 1) p = L.find m va lowest l c := by
  by_cases hl : l + 1 ≤ lowest
  · exact Or.inl (find_top hl)
  · cases hc : L.child (l + 1) (m (L.slot p (L.idx (l + 1) va))) with
    | none => exact Or.inl (find_none hc)
    | some c => exact Or.inr ⟨c, Nat.lt_of_not_le hl, rfl, find_some (Nat.lt_of_not_le hl) hc⟩

theorem WF.owner_find_mem (h : L.WF good m (l + 1) p) (va : α) (lowest : Nat) :
    L.owner (L.find m va lowest (l + 1) p).2 ∈ L.pages m (l + 1) p := by
  induction l generalizing p with
  | zero =>
      rw [find_none (L.child_one _), L.owner_slot h.isPage]
      exact self_mem_pages
  | succ l ih =>
      rcases find_cases m va lowest (l + 1) p with heq | ⟨c, -, hc, heq⟩
      · rw [heq, L.owner_slot h.isPage]
        exact self_mem_pages
      · rw [heq]
        exact mem_pages_child hc (ih (h.child hc).1)

/-- In a tree, entries in the same table are found at the same level. -/
theorem WF.find_level_eq (h : L.WF good m (l + 1) p) {va va' : α} {k k' : Nat}
    (howner : L.owner (L.find m va k (l + 1) p).2 = L.owner (L.find m va' k' (l + 1) p).2) :
    (L.find m va k (l + 1) p).1 = (L.find m va' k' (l + 1) p).1 := by
  induction l generalizing p with
  | zero => rw [find_none (L.child_one _), find_none (L.child_one _)]
  | succ l ih =>
      rcases find_cases m va k (l + 1) p with heq | ⟨c, -, hc, heq⟩ <;>
        rcases find_cases m va' k' (l + 1) p with heq' | ⟨c', -, hc', heq'⟩
      · rw [heq, heq']
      · -- the second walk ends below a table that does not contain the root
        rw [heq, heq', L.owner_slot h.isPage] at howner
        exact absurd (howner ▸ (h.child hc').1.owner_find_mem va' k') (h.child hc').2
      · rw [heq, heq', L.owner_slot h.isPage] at howner
        exact absurd (howner ▸ (h.child hc).1.owner_find_mem va k) (h.child hc).2
      · rw [heq, heq'] at howner ⊢
        by_cases hidx : L.idx (l + 1 + 1) va = L.idx (l + 1 + 1) va'
        · rw [hidx, hc'] at hc
          obtain rfl := Option.some.inj hc
          exact ih (h.child hc').1 howner
        · have hin := (h.child hc).1.owner_find_mem va k
          rw [howner] at hin
          exact absurd ((h.child hc').1.owner_find_mem va' k')
            (Set.disjoint_left.mp (h.apart hidx hc hc') hin)

theorem find_of_le (h : l ≤ lowest) : L.find m va lowest l p = L.find m va l l p := by
  cases l with
  | zero => rfl
  | succ l => rw [find_top h, find_top (Nat.le_refl _)]

/-- What a walk meets below a pointer, the whole walk meets too. -/
theorem exists_find_eq_of_child {c : P} (hc : L.child (l + 1) (L.entry m (l + 1) p va) = some c)
    (k : Nat) : ∃ k', L.find m va k l c = L.find m va k' (l + 1) p := by
  -- below `c` no level above `l` is asked for
  refine ⟨min k l, ?_⟩
  rw [find_some (by omega) hc]
  by_cases hkl : k ≤ l
  · rw [Nat.min_eq_left hkl]
  · rw [Nat.min_eq_right (by omega), find_of_le (by omega)]

theorem find_congr (h : ∀ k, L.child (L.find m va k l p).1 (m' (L.find m va k l p).2) =
      L.child (L.find m va k l p).1 (m (L.find m va k l p).2)) :
    L.find m' va lowest l p = L.find m va lowest l p := by
  induction l generalizing p with
  | zero => rfl
  | succ l ih =>
      have htop := h (l + 1)
      rw [find_top (Nat.le_refl _)] at htop
      dsimp only at htop
      by_cases hl : l + 1 ≤ lowest
      · rw [find_top hl, find_top hl]
      · cases hc : L.child (l + 1) (L.entry m (l + 1) p va) with
        | none => rw [find_none hc, find_none (htop.trans hc)]
        | some c =>
            rw [find_some (Nat.lt_of_not_le hl) hc, find_some (Nat.lt_of_not_le hl) (htop.trans hc)]
            refine ih fun k => ?_
            obtain ⟨k', hk'⟩ := exists_find_eq_of_child hc k
            rw [hk']
            exact h k'

theorem find_congr_idx {va' : α} (hidx : ∀ k, 1 ≤ k → L.idx k va' = L.idx k va) (m : A → E)
    (lowest l : Nat) (p : P) : L.find m va' lowest (l + 1) p = L.find m va lowest (l + 1) p := by
  induction l generalizing p with
  | zero => rw [find_none (L.child_one _), find_none (L.child_one _), hidx 1 (Nat.le_refl 1)]
  | succ l ih =>
      have hsame := hidx (l + 1 + 1) (Nat.succ_pos _)
      have hentry : L.entry m (l + 1 + 1) p va' = L.entry m (l + 1 + 1) p va := by
        rw [entry, entry, hsame]
      by_cases hl : l + 1 + 1 ≤ lowest
      · rw [find_top hl, find_top hl, hsame]
      · cases hc : L.child (l + 1 + 1) (L.entry m (l + 1 + 1) p va) with
        | none => rw [find_none hc, find_none (hentry ▸ hc), hsame]
        | some c =>
            rw [find_some (Nat.lt_of_not_le hl) hc, find_some (Nat.lt_of_not_le hl) (hentry ▸ hc)]
            exact ih c

/-- Without a lower bound a walk ends at an entry that is no pointer. -/
theorem child_find_one (L : Layout α A E P I) (m : A → E) (va : α) (l : Nat) (p : P) :
    L.child (L.find m va 1 (l + 1) p).1 (m (L.find m va 1 (l + 1) p).2) = none := by
  induction l generalizing p with
  | zero =>
      rw [find_top (Nat.le_refl 1)]
      exact L.child_one _
  | succ l ih =>
      cases hc : L.child (l + 1 + 1) (L.entry m (l + 1 + 1) p va) with
      | none =>
          rw [find_none hc]
          exact hc
      | some c =>
          rw [find_some (by omega) hc]
          exact ih c

/-- A reading without an effect of the pointers reads this entry. -/
theorem eval_eq_leaf_find {r : Reading α E V} (hnode : ∀ k e v, r.node k e v = v)
    (m : A → E) (va : α) (l : Nat) (p : P) :
    L.eval r m (l + 1) p va = r.leaf (L.find m va 1 (l + 1) p).1
      (m (L.find m va 1 (l + 1) p).2) va := by
  induction l generalizing p with
  | zero => rw [eval_none (L.child_one _), find_top (Nat.le_refl 1), entry]
  | succ l ih =>
      cases hc : L.child (l + 1 + 1) (L.entry m (l + 1 + 1) p va) with
      | none => rw [eval_none hc, find_none hc, entry]
      | some c => rw [eval_some hc, find_some (by omega) hc, hnode, ih]

/-- Readings of two memories are related if the entries that the walk meets are: the pointers are
    the same, and the entries that end it are read as related values. -/
theorem eval_rel {r : Reading α E V} (R : V → V → Prop) (hstuck : R r.stuck r.stuck)
    (hnode : ∀ k e v v', R v v' → R (r.node k e v) (r.node k e v'))
    (h : ∀ k, (∃ c, L.child (L.find m va k l p).1 (m (L.find m va k l p).2) = some c) ∧
          m' (L.find m va k l p).2 = m (L.find m va k l p).2 ∨
        L.child (L.find m va k l p).1 (m (L.find m va k l p).2) = none ∧
          L.child (L.find m va k l p).1 (m' (L.find m va k l p).2) = none ∧
          R (r.leaf (L.find m va k l p).1 (m' (L.find m va k l p).2) va)
            (r.leaf (L.find m va k l p).1 (m (L.find m va k l p).2) va)) :
    R (L.eval r m' l p va) (L.eval r m l p va) := by
  induction l generalizing p with
  | zero => exact hstuck
  | succ l ih =>
      have htop := h (l + 1)
      rw [find_top (Nat.le_refl _)] at htop
      rcases htop with ⟨⟨c, hc⟩, hsame⟩ | ⟨hc, hc', hleaf⟩
      · have hentry : L.entry m' (l + 1) p va = L.entry m (l + 1) p va := hsame
        have hc' : L.child (l + 1) (L.entry m (l + 1) p va) = some c := hc
        rw [eval_some hc', eval_some (hentry ▸ hc'), hentry]
        refine hnode _ _ _ _ (ih fun k => ?_)
        obtain ⟨k', hk'⟩ := exists_find_eq_of_child hc' k
        rw [hk']
        exact h k'
      · have hend : L.child (l + 1) (L.entry m (l + 1) p va) = none := hc
        have hend' : L.child (l + 1) (L.entry m' (l + 1) p va) = none := hc'
        rw [eval_none hend, eval_none hend']
        exact hleaf

end Find

/-! ### Changing what hangs below one entry -/

/-- The memory `m'` differs from `m` only in entry `i` of the table `p` at level
    `l + 1` and inside the pages `R`, which hold whatever now hangs below that
    entry and no other part of the tree. -/
structure Regrown (L : Layout α A E P I) (good : Nat → E → Prop) (m m' : A → E) (l : Nat) (p : P)
    (i : I) (R : Set P) : Prop where
  good_entry : good (l + 1) (m' (L.slot p i))
  child : ∀ c, L.child (l + 1) (m' (L.slot p i)) = some c → L.WF good m' l c ∧ L.pages m' l c ⊆ R
  notMem : p ∉ R
  apart : ∀ j d, j ≠ i → L.child (l + 1) (m (L.slot p j)) = some d → Disjoint R (L.pages m l d)
  frame : ∀ a, a ≠ L.slot p i → L.owner a ∉ R → m' a = m a

variable {i : I} {R : Set P}

theorem Regrown.slot_eq (h : Regrown L good m m' l p i R) (hwf : L.WF good m (l + 1) p) {j : I}
    (hj : j ≠ i) : m' (L.slot p j) = m (L.slot p j) := by
  refine h.frame _ (fun heq => hj (L.slot_injective hwf.isPage heq)) ?_
  rw [L.owner_slot hwf.isPage]
  exact h.notMem

/-- The subtrees of the other entries are untouched. -/
theorem Regrown.agree_other (h : Regrown L good m m' l p i R) (hwf : L.WF good m (l + 1) p) {j : I}
    (hj : j ≠ i) {d : P} (hd : L.child (l + 1) (m (L.slot p j)) = some d) :
    ∀ a, L.owner a ∈ L.pages m l d → m' a = m a := by
  intro a ha
  refine h.frame a ?_ fun hR => Set.disjoint_left.mp (h.apart j d hj hd) hR ha
  rintro rfl
  rw [L.owner_slot hwf.isPage] at ha
  exact (hwf.child hd).2 ha

theorem Regrown.wf (h : Regrown L good m m' l p i R) (hwf : L.WF good m (l + 1) p) :
    L.WF good m' (l + 1) p := by
  have hother : ∀ j d, j ≠ i → L.child (l + 1) (m' (L.slot p j)) = some d →
      L.child (l + 1) (m (L.slot p j)) = some d ∧ L.pages m' l d = L.pages m l d := by
    intro j d hj hd
    rw [h.slot_eq hwf hj] at hd
    exact ⟨hd, (hwf.child hd).1.pages_congr (h.agree_other hwf hj hd)⟩
  refine ⟨hwf.isPage, fun j => ?_, fun j d hd => ?_, fun j k d e hjk hd he => ?_⟩
  · by_cases hj : j = i
    · rw [hj]
      exact h.good_entry
    · rw [h.slot_eq hwf hj]
      exact hwf.good_entry j
  · by_cases hj : j = i
    · rw [hj] at hd
      exact ⟨(h.child d hd).1, fun hp => h.notMem ((h.child d hd).2 hp)⟩
    · obtain ⟨hd', hpages⟩ := hother j d hj hd
      rw [hpages]
      exact ⟨(hwf.child hd').1.congr (h.agree_other hwf hj hd'), (hwf.child hd').2⟩
  · by_cases hj : j = i
    · have hk : k ≠ i := fun hk => hjk (hj.trans hk.symm)
      obtain ⟨he', hpages⟩ := hother k e hk he
      rw [hj] at hd
      rw [hpages]
      exact (h.apart k e hk he').mono_left (h.child d hd).2
    · obtain ⟨hd', hpages⟩ := hother j d hj hd
      by_cases hk : k = i
      · rw [hk] at he
        rw [hpages]
        exact ((h.apart j d hj hd').mono_left (h.child e he).2).symm
      · obtain ⟨he', hpages'⟩ := hother k e hk he
        rw [hpages, hpages']
        exact hwf.apart hjk hd' he'

theorem Regrown.pages_subset (h : Regrown L good m m' l p i R) (hwf : L.WF good m (l + 1) p) :
    L.pages m' (l + 1) p ⊆ L.pages m (l + 1) p ∪ R := by
  intro q hq
  rcases mem_pages_succ.mp hq with rfl | ⟨j, d, hd, hq⟩
  · exact Or.inl self_mem_pages
  · by_cases hj : j = i
    · rw [hj] at hd
      exact Or.inr ((h.child d hd).2 hq)
    · rw [h.slot_eq hwf hj] at hd
      rw [(hwf.child hd).1.pages_congr (h.agree_other hwf hj hd)] at hq
      exact Or.inl (mem_pages_child hd hq)

theorem Regrown.eval_other (h : Regrown L good m m' l p i R) (hwf : L.WF good m (l + 1) p)
    (hva : L.idx (l + 1) va ≠ i) (r : Reading α E V) :
    L.eval r m' (l + 1) p va = L.eval r m (l + 1) p va := by
  have hentry : L.entry m' (l + 1) p va = L.entry m (l + 1) p va := h.slot_eq hwf hva
  cases hc : L.child (l + 1) (L.entry m (l + 1) p va) with
  | none => rw [eval_none hc, eval_none (hentry ▸ hc), hentry]
  | some c =>
      rw [eval_some hc, eval_some (hentry ▸ hc), hentry,
        (hwf.child hc).1.eval_congr (h.agree_other hwf hva hc)]

end Layout

/-! ### Walking down and writing an entry

The programs covered here keep a table pointer, go down one level per iteration
and finally write one entry. Free pages come from a pool that the program owns:
`pool s free` says that the state `s` has the free pages `free`. -/

/-- One iteration took the walk of `va` from the table `p` at level `l + 1` to the
    table `c`, with the state going from `s` to `s'`. It may have put a table of
    fresh pages below the entry, as long as every address reads as before. -/
structure Opened (L : Layout α A E P I) (good : Nat → E → Prop) (r : Reading α E V)
    (mem : S → A → E) (pool : S → List P → Prop) (l : Nat) (va : α) (s : S) (p : P)
    (free : List P) (s' : S) (c : P) (taken rest : List P) : Prop where
  split : free.Perm (taken ++ rest)
  supply : pool s' rest
  child : L.child (l + 1) (L.entry (mem s') (l + 1) p va) = some c
  good_entry : good (l + 1) (L.entry (mem s') (l + 1) p va)
  wf : L.WF good (mem s') l c
  pages : ∀ q ∈ L.pages (mem s') l c, q ∈ taken ∨
    ∃ c₀, L.child (l + 1) (L.entry (mem s) (l + 1) p va) = some c₀ ∧ q ∈ L.pages (mem s) l c₀
  frame : ∀ a, a ≠ L.slot p (L.idx (l + 1) va) → L.owner a ∉ taken → mem s' a = mem s a
  reads : ∀ va', L.idx (l + 1) va' = L.idx (l + 1) va →
    r.node (l + 1) (L.entry (mem s') (l + 1) p va) (L.eval r (mem s') l c va') =
      L.eval r (mem s) (l + 1) p va'
  stops : ∀ va', L.idx (l + 1) va' = L.idx (l + 1) va →
    L.eval stopLevel (mem s') l c va' = min (L.eval stopLevel (mem s) (l + 1) p va') l
  count : taken.length + L.eval stopLevel (mem s') l c va = L.eval stopLevel (mem s) (l + 1) p va

section Open

variable {L : Layout α A E P I} {good : Nat → E → Prop} {r : Reading α E V} {mem : S → A → E}
  {pool : S → List P → Prop} {va : α} {l : Nat} {s s' : S} {p c : P} {free rest : List P}

/-- Following a pointer that is already there. -/
theorem Opened.existing (hpool : pool s free) (hwf : L.WF good (mem s) (l + 1) p)
    (hc : L.child (l + 1) (L.entry (mem s) (l + 1) p va) = some c) :
    Opened L good r mem pool l va s p free s c [] free := by
  have hentry : ∀ va', L.idx (l + 1) va' = L.idx (l + 1) va →
      L.entry (mem s) (l + 1) p va' = L.entry (mem s) (l + 1) p va := by
    intro va' hva'
    rw [Layout.entry, hva', Layout.entry]
  refine ⟨List.Perm.refl _, hpool, hc, hwf.good_entry _, (hwf.child hc).1,
    fun q hq => Or.inr ⟨c, hc, hq⟩, fun _ _ _ => rfl, ?_, ?_, ?_⟩
  · intro va' hva'
    rw [Layout.eval_some (by rw [hentry va' hva']; exact hc), hentry va' hva']
  · intro va' hva'
    rw [Layout.eval_some (by rw [hentry va' hva']; exact hc)]
    exact (Nat.min_eq_left (Layout.stopLevel_le _ _ _ _ _)).symm
  · rw [Layout.eval_some hc, List.length_nil, Nat.zero_add]
    rfl

/-- Hanging a fresh table of entries that end the walk below an entry that ended it. -/
theorem Opened.fresh (hl : 1 ≤ l) (hsplit : free.Perm (c :: rest)) (hpool : pool s' rest)
    (hpage : L.Page c) (hold : L.child (l + 1) (L.entry (mem s) (l + 1) p va) = none)
    (hc : L.child (l + 1) (L.entry (mem s') (l + 1) p va) = some c)
    (hgood : good (l + 1) (L.entry (mem s') (l + 1) p va))
    (hgoods : ∀ i, good l (mem s' (L.slot c i)))
    (hends : ∀ i, L.child l (mem s' (L.slot c i)) = none)
    (hframe : ∀ a, a ≠ L.slot p (L.idx (l + 1) va) → L.owner a ≠ c → mem s' a = mem s a)
    (hreads : ∀ va', L.idx (l + 1) va' = L.idx (l + 1) va →
      r.node (l + 1) (L.entry (mem s') (l + 1) p va) (r.leaf l (L.entry (mem s') l c va') va') =
        r.leaf (l + 1) (L.entry (mem s) (l + 1) p va) va') :
    Opened L good r mem pool l va s p free s' c [c] rest := by
  obtain ⟨k, rfl⟩ : ∃ k, l = k + 1 := ⟨l - 1, by omega⟩
  have hentry : ∀ va', L.idx (k + 1 + 1) va' = L.idx (k + 1 + 1) va →
      L.entry (mem s) (k + 1 + 1) p va' = L.entry (mem s) (k + 1 + 1) p va := by
    intro va' hva'
    rw [Layout.entry, hva', Layout.entry]
  have hpages : ∀ q ∈ L.pages (mem s') (k + 1) c, q ∈ [c] := by
    rw [Layout.pages_of_ends hends]
    exact fun q hq => List.mem_singleton.mpr hq
  have hwf := Layout.wf_of_ends hpage hgoods hends
  have hstop : ∀ va', L.eval stopLevel (mem s') (k + 1) c va' = k + 1 := fun va' => by
    rw [Layout.eval_none (hends _)]
    rfl
  have hstopOld : ∀ va', L.idx (k + 1 + 1) va' = L.idx (k + 1 + 1) va →
      L.eval stopLevel (mem s) (k + 1 + 1) p va' = k + 1 + 1 := fun va' hva' => by
    rw [Layout.eval_none (by rw [hentry va' hva']; exact hold)]
    rfl
  refine ⟨hsplit, hpool, hc, hgood, hwf, fun q hq => Or.inl (hpages q hq), ?_, ?_, ?_, ?_⟩
  · intro a ha hq
    exact hframe a ha (by simpa using hq)
  · intro va' hva'
    rw [Layout.eval_none (hends _), hreads va' hva',
      Layout.eval_none (by rw [hentry va' hva']; exact hold), hentry va' hva']
  · intro va' hva'
    rw [hstop, hstopOld va' hva']
    omega
  · rw [hstop, hstopOld va rfl, List.length_singleton]
    omega

end Open

/-- What one iteration must do from every state that is ready for it. -/
def Opens (L : Layout α A E P I) (good : Nat → E → Prop) (r : Reading α E V)
    (mem : S → A → E) (pool : S → List P → Prop) (Ready : Nat → S → P → Prop)
    (body : Nat → S × P → Option (S × P)) (va : α) (l : Nat) : Prop :=
  ∀ s p free, pool s free → free.Nodup → L.WF good (mem s) (l + 1) p →
    (∀ q ∈ free, q ∉ L.pages (mem s) (l + 1) p) → Ready (l + 1) s p →
    (L.eval stopLevel (mem s) (l + 1) p va = l + 1 → free ≠ []) →
    ∃ s' c taken rest, body (l + 1) (s, p) = some (s', c) ∧
      Opened L good r mem pool l va s p free s' c taken rest ∧ Ready l s' c

/-- The entry `e` was written for `va` at level `tgt` of the tree below `p`, a
    table at level `l`; `m'` is the memory afterwards. -/
structure Installed (L : Layout α A E P I) (good : Nat → E → Prop) (r : Reading α E V)
    (m m' : A → E) (tgt : Nat) (va : α) (e : E) (l : Nat) (p : P) (taken : List P) : Prop where
  count : taken.length = L.eval stopLevel m l p va - tgt
  wf : L.WF good m' l p
  pages : ∀ q ∈ L.pages m' l p, q ∈ L.pages m l p ∨ q ∈ taken
  frame : ∀ a, L.owner a ∉ L.pages m l p → L.owner a ∉ taken → m' a = m a
  reads_other : ∀ va' k, tgt ≤ k → k ≤ l → L.idx k va' ≠ L.idx k va →
    L.eval r m' l p va' = L.eval r m l p va'
  stops_other : ∀ va' k, tgt ≤ k → k ≤ l → (∀ j, k < j → j ≤ l → L.idx j va' = L.idx j va) →
    L.idx k va' ≠ L.idx k va →
    L.eval stopLevel m' l p va' = min (L.eval stopLevel m l p va') k
  reads_target : ∃ path : List E, path.length = l - tgt ∧ L.IsPath good l path ∧
    ∀ (W : Type) (r' : Reading α E W) (va' : α),
      (∀ k, tgt ≤ k → k ≤ l → L.idx k va' = L.idx k va) →
      L.eval r' m' l p va' = r'.climb l path (r'.leaf tgt e va')

theorem Installed.notMem_pages {L : Layout α A E P I} {good : Nat → E → Prop} {r : Reading α E V}
    {m m' : A → E} {tgt : Nat} {va : α} {e : E} {l : Nat} {p : P} {free taken rest : List P}
    (h : Installed L good r m m' tgt va e l p taken) (hsplit : free.Perm (taken ++ rest))
    (hnodup : free.Nodup) (hfree : ∀ q ∈ free, q ∉ L.pages m l p) :
    ∀ q ∈ rest, q ∉ L.pages m' l p := by
  intro q hq hmem
  rcases h.pages q hmem with hold | htaken
  · exact hfree q (hsplit.mem_iff.mpr (List.mem_append_right _ hq)) hold
  · exact (List.nodup_append'.mp (hsplit.nodup_iff.mp hnodup)).2.2 htaken hq

section Install

variable [DecidableEq A] {L : Layout α A E P I} {good : Nat → E → Prop} {r : Reading α E V}
  {mem : S → A → E} {pool : S → List P → Prop} {Ready : Nat → S → P → Prop}
  {va : α} {e : E} {tgt : Nat}

/-- Writing an entry that ends the walk, in the table of its own level. -/
theorem installed_here {m : A → E} {l : Nat} {p : P} (hwf : L.WF good m (l + 1) p)
    (hchild : L.child (l + 1) e = none) (hgood : good (l + 1) e) :
    Installed L good r m (Function.update m (L.slot p (L.idx (l + 1) va)) e) (l + 1) va e (l + 1) p
      [] := by
  have hentry : ∀ va', L.idx (l + 1) va' = L.idx (l + 1) va →
      L.entry (Function.update m (L.slot p (L.idx (l + 1) va)) e) (l + 1) p va' = e := by
    intro va' hva'
    rw [Layout.entry, hva', Function.update_self]
  have hregrown : L.Regrown good m (Function.update m (L.slot p (L.idx (l + 1) va)) e) l p
      (L.idx (l + 1) va) ∅ :=
    { good_entry := by rwa [Function.update_self]
      child := by
        intro c hc
        rw [Function.update_self, hchild] at hc
        exact (Option.some_ne_none c hc.symm).elim
      notMem := Set.notMem_empty p
      apart := fun _ _ _ _ => Set.empty_disjoint _
      frame := fun a ha _ => Function.update_of_ne ha _ _ }
  have hlevel : ∀ k, l + 1 ≤ k → k ≤ l + 1 → k = l + 1 := fun k h1 h2 => Nat.le_antisymm h2 h1
  refine ⟨?_, hregrown.wf hwf, ?_, ?_, ?_, ?_, [], ?_, trivial, ?_⟩
  · have := L.stopLevel_le m (l + 1) p va
    simp only [List.length_nil]
    omega
  · intro q hq
    exact Or.inl ((hregrown.pages_subset hwf hq).resolve_right (Set.notMem_empty q))
  · intro a ha _
    refine Function.update_of_ne ?_ _ _
    rintro rfl
    rw [L.owner_slot hwf.isPage] at ha
    exact ha Layout.self_mem_pages
  · intro va' k h1 h2 hva'
    rw [hlevel k h1 h2] at hva'
    exact hregrown.eval_other hwf hva' r
  · intro va' k h1 h2 _ hva'
    rw [hlevel k h1 h2] at hva' ⊢
    rw [hregrown.eval_other hwf hva' stopLevel]
    exact (Nat.min_eq_left (Layout.stopLevel_le _ _ _ _ _)).symm
  · simp
  · intro W r' va' hva'
    have hidx := hva' (l + 1) (Nat.le_refl _) (Nat.le_refl _)
    rw [Layout.eval_none (by rw [hentry va' hidx]; exact hchild), hentry va' hidx]
    rfl

variable {l : Nat} {s s' : S} {p c : P} {free taken rest later : List P} {m' : A → E}

/-- The pages that an opened table holds or an installation below it takes. -/
private def footprint (L : Layout α A E P I) (m : A → E) (l : Nat) (c : P) (taken : List P) :
    Set P :=
  {q | q ∈ L.pages m l c ∨ q ∈ taken}

omit [DecidableEq A] in
theorem Opened.rest_nodup (hopen : Opened L good r mem pool l va s p free s' c taken rest)
    (hnodup : free.Nodup) :
    rest.Nodup := (List.nodup_append'.mp (hopen.split.nodup_iff.mp hnodup)).2.1

omit [DecidableEq A] in
theorem Opened.rest_notMem (hopen : Opened L good r mem pool l va s p free s' c taken rest)
    (hnodup : free.Nodup) (hfree : ∀ q ∈ free, q ∉ L.pages (mem s) (l + 1) p) :
    ∀ q ∈ rest, q ∉ L.pages (mem s') l c := by
  intro q hq hmem
  rcases hopen.pages q hmem with htaken | ⟨c₀, hc₀, hmem⟩
  · exact (List.nodup_append'.mp (hopen.split.nodup_iff.mp hnodup)).2.2 htaken hq
  · exact hfree q (hopen.split.mem_iff.mpr (List.mem_append_right _ hq))
      (Layout.mem_pages_child hc₀ hmem)

omit [DecidableEq A] in
/-- An installation below an opened table only changes what hangs below its entry. -/
theorem Opened.regrown (hopen : Opened L good r mem pool l va s p free s' c taken rest)
    (hwf : L.WF good (mem s) (l + 1) p) (hfree : ∀ q ∈ free, q ∉ L.pages (mem s) (l + 1) p)
    (hlater : ∀ q ∈ later, q ∈ rest) (h : Installed L good r (mem s') m' tgt va e l c later) :
    L.entry m' (l + 1) p va = L.entry (mem s') (l + 1) p va ∧
      L.Regrown good (mem s) m' l p (L.idx (l + 1) va)
        (footprint L (mem s') l c (taken ++ later)) := by
  have htaken : ∀ q ∈ taken ++ later, q ∈ free := by
    intro q hq
    refine hopen.split.mem_iff.mpr ?_
    rcases List.mem_append.mp hq with hq | hq
    · exact List.mem_append_left _ hq
    · exact List.mem_append_right _ (hlater q hq)
  have hp : p ∉ footprint L (mem s') l c (taken ++ later) := by
    rintro (hq | hq)
    · rcases hopen.pages p hq with hq | ⟨c₀, hc₀, hq⟩
      · exact hfree p (htaken p (List.mem_append_left _ hq)) Layout.self_mem_pages
      · exact (hwf.child hc₀).2 hq
    · exact hfree p (htaken p hq) Layout.self_mem_pages
  have hentry : L.entry m' (l + 1) p va = L.entry (mem s') (l + 1) p va := by
    refine h.frame _ ?_ ?_
    · rw [L.owner_slot hwf.isPage]
      exact fun hq => hp (Or.inl hq)
    · rw [L.owner_slot hwf.isPage]
      exact fun hq => hp (Or.inr (List.mem_append_right _ hq))
  refine ⟨hentry, ?_, ?_, hp, ?_, ?_⟩
  · change good (l + 1) (L.entry m' (l + 1) p va)
    rw [hentry]
    exact hopen.good_entry
  · intro d hd
    change L.child (l + 1) (L.entry m' (l + 1) p va) = some d at hd
    rw [hentry, hopen.child] at hd
    cases hd
    refine ⟨h.wf, fun q hq => ?_⟩
    rcases h.pages q hq with hq | hq
    · exact Or.inl hq
    · exact Or.inr (List.mem_append_right _ hq)
  · -- the other subtrees hold neither fresh pages nor pages of the old subtree
    intro j d hj hd
    refine Set.disjoint_left.mpr fun q hq hqd => ?_
    rcases hq with hq | hq
    · rcases hopen.pages q hq with hq | ⟨c₀, hc₀, hq⟩
      · exact hfree q (htaken q (List.mem_append_left _ hq)) (Layout.mem_pages_child hd hqd)
      · exact Set.disjoint_left.mp (hwf.apart hj.symm hc₀ hd) hq hqd
    · exact hfree q (htaken q hq) (Layout.mem_pages_child hd hqd)
  · intro a ha hR
    have hnot : ∀ q ∈ taken ++ later, L.owner a ≠ q := fun q hq heq => hR (Or.inr (heq ▸ hq))
    rw [h.frame a (fun hq => hR (Or.inl hq)) fun hq => hnot _ (List.mem_append_right _ hq) rfl]
    exact hopen.frame a ha fun hq => hnot _ (List.mem_append_left _ hq) rfl

omit [DecidableEq A] in
theorem Opened.eval_below {W : Type*}
    (hopen : Opened L good r mem pool l va s p free s' c taken rest)
    (hentry : L.entry m' (l + 1) p va = L.entry (mem s') (l + 1) p va) (r' : Reading α E W)
    {va' : α} (hva' : L.idx (l + 1) va' = L.idx (l + 1) va) :
    L.eval r' m' (l + 1) p va' =
      r'.node (l + 1) (L.entry (mem s') (l + 1) p va) (L.eval r' m' l c va') := by
  have hentry' : L.entry m' (l + 1) p va' = L.entry (mem s') (l + 1) p va := by
    rw [← hentry, Layout.entry, hva', Layout.entry]
  rw [Layout.eval_some (by rw [hentry']; exact hopen.child), hentry']

omit [DecidableEq A] in
/-- Opening a table and installing an entry below it installs the entry. -/
theorem Opened.installed (hopen : Opened L good r mem pool l va s p free s' c taken rest)
    (hwf : L.WF good (mem s) (l + 1) p) (hfree : ∀ q ∈ free, q ∉ L.pages (mem s) (l + 1) p)
    (hlater : ∀ q ∈ later, q ∈ rest) (htgt : tgt ≤ l)
    (h : Installed L good r (mem s') m' tgt va e l c later) :
    Installed L good r (mem s) m' tgt va e (l + 1) p (taken ++ later) := by
  obtain ⟨hentry, hregrown⟩ := hopen.regrown hwf hfree hlater h
  obtain ⟨path, hlength, hpath, htarget⟩ := h.reads_target
  refine ⟨?_, hregrown.wf hwf, ?_, ?_, ?_, ?_, L.entry (mem s') (l + 1) p va :: path, ?_, ?_, ?_⟩
  · have hcount := hopen.count
    have hstop := hopen.stops va rfl
    rw [List.length_append, h.count]
    omega
  · intro q hq
    rcases hregrown.pages_subset hwf hq with hq | hq | hq
    · exact Or.inl hq
    · rcases hopen.pages q hq with hq | ⟨c₀, hc₀, hq⟩
      · exact Or.inr (List.mem_append_left _ hq)
      · exact Or.inl (Layout.mem_pages_child hc₀ hq)
    · exact Or.inr hq
  · intro a ha htaken
    refine hregrown.frame a ?_ ?_
    · rintro rfl
      rw [L.owner_slot hwf.isPage] at ha
      exact ha Layout.self_mem_pages
    · rintro (hq | hq)
      · rcases hopen.pages _ hq with hq | ⟨c₀, hc₀, hq⟩
        · exact htaken (List.mem_append_left _ hq)
        · exact ha (Layout.mem_pages_child hc₀ hq)
      · exact htaken hq
  · intro va' k hk hkl hva'
    by_cases hidx : L.idx (l + 1) va' = L.idx (l + 1) va
    · have hkl' : k ≤ l := by
        rcases Nat.lt_or_eq_of_le hkl with hlt | rfl
        · omega
        · exact (hva' hidx).elim
      rw [hopen.eval_below hentry r hidx, h.reads_other va' k hk hkl' hva', hopen.reads va' hidx]
    · exact hregrown.eval_other hwf hidx r
  · intro va' k hk hkl habove hva'
    rcases Nat.lt_or_eq_of_le hkl with hlt | rfl
    · have hidx := habove (l + 1) hlt (Nat.le_refl _)
      rw [hopen.eval_below hentry stopLevel hidx]
      change L.eval stopLevel m' l c va' = _
      rw [h.stops_other va' k hk (by omega) (fun j hj hjl => habove j hj (by omega)) hva',
        hopen.stops va' hidx, Nat.min_assoc, Nat.min_eq_right (a := l) (by omega)]
    · rw [hregrown.eval_other hwf hva' stopLevel]
      exact (Nat.min_eq_left (Layout.stopLevel_le _ _ _ _ _)).symm
  · rw [List.length_cons, hlength]
    omega
  · exact ⟨hopen.good_entry, ⟨c, hopen.child⟩, hpath⟩
  · intro W r' va' hva'
    rw [hopen.eval_below hentry r' (hva' (l + 1) (by omega) (Nat.le_refl _)),
      htarget W r' va' fun k hk hkl => hva' k hk (by omega)]
    rfl

/-- **Walking down and writing.** A program whose every iteration opens the table
    below installs its entry, takes exactly the pages for the missing tables, and
    keeps the rest of the pool. The entry is written in a table page. -/
theorem install_spec {body : Nat → S × P → Option (S × P)} (htgt : 1 ≤ tgt)
    (hopens : ∀ l, tgt ≤ l → Opens L good r mem pool Ready body va l)
    (hchild : L.child tgt e = none) (hgood : good tgt e) {l : Nat} (hl : tgt ≤ l)
    {s : S} {p : P} {free : List P} (hpool : pool s free) (hnodup : free.Nodup)
    (hwf : L.WF good (mem s) l p) (hfree : ∀ q ∈ free, q ∉ L.pages (mem s) l p)
    (hready : Ready l s p) (henough : L.eval stopLevel (mem s) l p va - tgt ≤ free.length) :
    ∃ s' p' taken rest, Loop.tryDown body tgt l (s, p) = some (s', p') ∧
      free.Perm (taken ++ rest) ∧ pool s' rest ∧ L.Page p' ∧
      (p' ∈ L.pages (mem s) l p ∨ p' ∈ taken) ∧
      Installed L good r (mem s) (Function.update (mem s') (L.slot p' (L.idx tgt va)) e)
        tgt va e l p taken := by
  induction l, hl using Nat.le_induction generalizing s p free with
  | base =>
      obtain ⟨k, rfl⟩ : ∃ k, tgt = k + 1 := ⟨tgt - 1, by omega⟩
      exact ⟨s, p, [], free, Loop.tryDown_of_le (Nat.le_refl _) _, List.Perm.refl _, hpool,
        hwf.isPage, Or.inl Layout.self_mem_pages, installed_here hwf hchild hgood⟩
  | succ l hl ih =>
      obtain ⟨s₁, c, taken, rest, hstep, hopen, hready'⟩ :=
        hopens l hl s p free hpool hnodup hwf hfree hready
          (by rintro hstop rfl; rw [hstop] at henough; simp at henough; omega)
      have hcount := hopen.count
      have hstop := hopen.stops va rfl
      have hlen := hopen.split.length_eq
      rw [List.length_append] at hlen
      obtain ⟨s', p', later, rest', hdown, hsplit, hpool', hpage, hwritten, hinst⟩ :=
        ih hopen.supply (hopen.rest_nodup hnodup) hopen.wf
          (hopen.rest_notMem hnodup hfree) hready' (by omega)
      have hlater : ∀ q ∈ later, q ∈ rest := fun q hq =>
        hsplit.mem_iff.mpr (List.mem_append_left _ hq)
      refine ⟨s', p', taken ++ later, rest', ?_, ?_, hpool', hpage, ?_,
        hopen.installed hwf hfree hlater hl hinst⟩
      · rw [Loop.tryDown_succ hl, hstep]
        exact hdown
      · rw [List.append_assoc]
        exact hopen.split.trans (hsplit.append_left taken)
      · rcases hwritten with hmem | hmem
        · rcases hopen.pages _ hmem with hmem | ⟨c₀, hc₀, hmem⟩
          · exact Or.inr (List.mem_append_left _ hmem)
          · exact Or.inl (Layout.mem_pages_child hc₀ hmem)
        · exact Or.inr (List.mem_append_right _ hmem)

end Install

end AcrnGuest.Radix
