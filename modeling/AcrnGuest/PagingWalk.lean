import AcrnGuest.PagingLookups

/-!
# Lookups and the processor's walk (`lib/x86/vm.c`)

The walk of an address reads one entry per level. It stops at the first entry that is not
present, at an entry of level 3 or 2 that maps a large page, and at the latest in a table of
level 1. `StopsAt` says this without a loop. `find_pte_level` stops at the same entry, in
every memory: nothing is assumed about the tables. `get_pte` then drops the entries that are
no leaves.

An address has 64 bits here. The walk looks at the bits 47:12 only, and so do the lookups;
the processor rejects addresses that are not canonical before it walks.
-/

namespace AcrnGuest

open Radix

variable {m : Mem} {cr3 va p a : Word} {l k : Nat}

def entryFor (va : Word) (l : Nat) (p : Word) : Word := slot p (tableIndex l va)

/-- The walk of `va` from the table `p` of level `l` stops at the entry `a` of level `k`. -/
inductive StopsAt (m : Mem) (va : Word) : Nat → Word → Nat → Word → Prop
  | absent {l : Nat} {p : Word} (habsent : m (entryFor va l p) &&& PT_PRESENT_MASK = 0#64) :
      StopsAt m va l p l (entryFor va l p)
  | largePage {l : Nat} {p : Word} (hlevel : l = 2 ∨ l = 3)
      (hpresent : m (entryFor va l p) &&& PT_PRESENT_MASK ≠ 0#64)
      (hlarge : m (entryFor va l p) &&& PT_PAGE_SIZE_MASK ≠ 0#64) :
        StopsAt m va l p l (entryFor va l p)
  | page {p : Word} (hpresent : m (entryFor va 1 p) &&& PT_PRESENT_MASK ≠ 0#64) :
      StopsAt m va 1 p 1 (entryFor va 1 p)
  | pointer {l : Nat} {p : Word} {k : Nat} {a : Word} (hlevel : 1 ≤ l)
      (hpresent : m (entryFor va (l + 1) p) &&& PT_PRESENT_MASK ≠ 0#64)
      (hsmall : ¬ ((l + 1 = 2 ∨ l + 1 = 3) ∧
        m (entryFor va (l + 1) p) &&& PT_PAGE_SIZE_MASK ≠ 0#64))
      (hbelow : StopsAt m va l (m (entryFor va (l + 1) p) &&& PT_ADDR_MASK) k a) :
        StopsAt m va (l + 1) p k a

theorem StopsAt.find_eq (h : StopsAt m va l p k a) (hl : 1 ≤ l) : x86.find m va 1 l p = (k, a) := by
  induction h with
  | @absent l p habsent =>
      obtain ⟨l, rfl⟩ := Nat.exists_eq_add_of_le' hl
      exact Layout.find_none (x86Child_of_absent habsent)
  | @largePage l p hlevel hpresent hlarge =>
      obtain ⟨l, rfl⟩ := Nat.exists_eq_add_of_le' hl
      exact Layout.find_none (x86Child_of_large ⟨hlevel, hlarge⟩)
  | page hpresent => exact Layout.find_top (Nat.le_refl 1)
  | @pointer l p k a hlevel hpresent hsmall hbelow ih =>
      have hc : x86.child (l + 1) (x86.entry m (l + 1) p va) =
          some (m (entryFor va (l + 1) p) &&& PT_ADDR_MASK) :=
            x86Child_of_pointer hpresent (by omega) hsmall
      rw [Layout.find_some (by omega) hc]
      exact ih hlevel

theorem stopsAt_find (m : Mem) (va : Word) (l : Nat) (p : Word) :
    StopsAt m va (l + 1) p (x86.find m va 1 (l + 1) p).1 (x86.find m va 1 (l + 1) p).2 := by
  induction l generalizing p with
  | zero =>
      rw [Layout.find_top (Nat.le_refl 1)]
      by_cases habsent : m (entryFor va 1 p) &&& PT_PRESENT_MASK = 0#64
      · exact StopsAt.absent habsent
      · exact StopsAt.page habsent
  | succ l ih =>
      by_cases habsent : m (entryFor va (l + 1 + 1) p) &&& PT_PRESENT_MASK = 0#64
      · rw [Layout.find_none (x86Child_of_absent habsent)]
        exact StopsAt.absent habsent
      by_cases hlarge : (l + 1 + 1 = 2 ∨ l + 1 + 1 = 3) ∧
          m (entryFor va (l + 1 + 1) p) &&& PT_PAGE_SIZE_MASK ≠ 0#64
      · rw [Layout.find_none (x86Child_of_large hlarge)]
        exact StopsAt.largePage hlarge.1 habsent hlarge.2
      · have hc : x86.child (l + 1 + 1) (x86.entry m (l + 1 + 1) p va) =
            some (m (entryFor va (l + 1 + 1) p) &&& PT_ADDR_MASK) :=
          x86Child_of_pointer habsent (by omega) hlarge
        rw [Layout.find_some (by omega) hc]
        exact StopsAt.pointer (by omega) habsent hlarge (ih _)

theorem stopsAt_iff (m : Mem) (cr3 va : Word) (k : Nat) (a : Word) :
    StopsAt m va PAGE_LEVEL cr3 k a ↔ findPteLoop m va 1 PAGE_LEVEL cr3 = ⟨k, a⟩ := by
  rw [show PAGE_LEVEL = 3 + 1 from rfl, findPteLoop_find]
  constructor
  · intro h
    rw [h.find_eq (by decide)]
  · intro h
    have hstops := stopsAt_find m va 3 cr3
    obtain ⟨hlevel, hpte⟩ := PteSearch.mk.inj h
    rwa [hlevel, hpte] at hstops

/-- The processor's walk ends in a present entry if `get_pte` returns one. -/
theorem walkPresent_iff_getPte (m : Mem) (cr3 va : Word) :
    WalkPresent m cr3 va ↔ ∃ pte, getPte m cr3 va = some pte ∧
      m pte &&& PT_PRESENT_MASK ≠ 0#64 := by
  rw [← presentPte_iff, presentPte]
  cases getPte m cr3 va with
  | none => simp
  | some pte => simp

/-- **The lookups follow the walk.** In every memory and for every address, `find_pte_level` returns
the level and the entry at which the walk stops, and `get_pte` returns this entry if it is a leaf
and nothing else. The walk ends in a present leaf, and a canonical address has a translation, if and
only if `get_pte` returns an entry that is present. -/
theorem lookups_follow_walk (m : Mem) (cr3 va : Word) :
    ∃ level pte, (∀ k a, StopsAt m va PAGE_LEVEL cr3 k a ↔ k = level ∧ a = pte) ∧
      findPteLevel m cr3 va 1 = some ⟨level, pte⟩ ∧
      (∀ found, getPte m cr3 va = some found ↔ found = pte ∧ IsLeaf level (m pte)) ∧
      (WalkPresent m cr3 va ↔ ∃ found, getPte m cr3 va = some found ∧
        m found &&& PT_PRESENT_MASK ≠ 0#64) ∧
      (Canonical va → ((translate m cr3 va).isSome ↔
        ∃ found, getPte m cr3 va = some found ∧ m found &&& PT_PRESENT_MASK ≠ 0#64)) := by
  refine ⟨(findPteLoop m va 1 PAGE_LEVEL cr3).level, (findPteLoop m va 1 PAGE_LEVEL cr3).pte,
    fun k a => ?_, findPteLevel_one m cr3 va, getPte_eq_some_iff m cr3 va,
      walkPresent_iff_getPte m cr3 va, fun hcanonical => ?_⟩
  · rw [stopsAt_iff]
    constructor
    · intro h
      rw [h]
      exact ⟨rfl, rfl⟩
    · rintro ⟨rfl, rfl⟩
      rfl
  · have hmapped : (translate m cr3 va).isSome ↔ IsMapped m cr3 va := by
      rw [translate, Option.isSome_map, IsMapped]
    rw [hmapped, isMapped_iff, and_iff_right hcanonical]
    exact walkPresent_iff_getPte m cr3 va

end AcrnGuest
