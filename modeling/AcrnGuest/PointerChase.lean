import Mathlib.Logic.Function.Iterate
import Mathlib.Tactic.Common

/-!
# Searching along a chain of pointers

A bounded search follows `next` from a start and stops at the first element that is a
hit. The elements it visits are the iterates of `next`, so a search is determined by the
number of steps after which a hit is met for the first time. A chain may have an end that
the search does not know of: `search_finds_live_iff` says when it answers as if it did.
-/

namespace AcrnGuest.PointerChase

variable {α : Type*} {hit : α → Prop} {next : α → α} {n k : Nat} {p a : α}

def search (hit : α → Prop) [DecidablePred hit] (next : α → α) : Nat → α → Option α
  | 0, _ => none
  | n + 1, p => if hit p then some p else search hit next n (next p)

structure MeetsFirst (hit : α → Prop) (next : α → α) (p : α) (k : Nat) : Prop where
  meets : hit (next^[k] p)
  before : ∀ i, i < k → ¬ hit (next^[i] p)

theorem MeetsFirst.unique {j : Nat} (h : MeetsFirst hit next p k) (h' : MeetsFirst hit next p j) :
    k = j := by
  rcases Nat.lt_trichotomy k j with hlt | heq | hgt
  · exact absurd h.meets (h'.before k hlt)
  · exact heq
  · exact absurd h'.meets (h.before j hgt)

theorem meetsFirst_zero_iff : MeetsFirst hit next p 0 ↔ hit p :=
  ⟨fun h => h.meets, fun h => ⟨h, fun i hi => absurd hi (Nat.not_lt_zero i)⟩⟩

theorem meetsFirst_succ_iff :
    MeetsFirst hit next p (k + 1) ↔ ¬ hit p ∧ MeetsFirst hit next (next p) k := by
  constructor
  · intro h
    refine ⟨h.before 0 (Nat.succ_pos k), h.meets, fun i hi => ?_⟩
    exact h.before (i + 1) (Nat.succ_lt_succ hi)
  · rintro ⟨hno, h⟩
    refine ⟨h.meets, fun i hi => ?_⟩
    cases i with
    | zero => exact hno
    | succ i => exact h.before i (Nat.lt_of_succ_lt_succ hi)

variable [DecidablePred hit]

theorem search_eq_some_iff :
    search hit next n p = some a ↔ ∃ k, k < n ∧ MeetsFirst hit next p k ∧ next^[k] p = a := by
  induction n generalizing p with
  | zero =>
      constructor
      · intro h
        cases h
      · rintro ⟨k, hk, -⟩
        exact absurd hk (Nat.not_lt_zero k)
  | succ n ih =>
      rw [search]
      by_cases hp : hit p
      · rw [if_pos hp, Option.some.injEq]
        constructor
        · intro heq
          exact ⟨0, Nat.succ_pos n, meetsFirst_zero_iff.mpr hp, heq⟩
        · rintro ⟨k, -, hfirst, heq⟩
          obtain rfl := hfirst.unique (meetsFirst_zero_iff.mpr hp)
          exact heq
      · rw [if_neg hp, ih]
        constructor
        · rintro ⟨k, hk, hfirst, heq⟩
          exact ⟨k + 1, Nat.succ_lt_succ hk, meetsFirst_succ_iff.mpr ⟨hp, hfirst⟩, heq⟩
        · rintro ⟨k, hk, hfirst, heq⟩
          cases k with
          | zero => exact absurd hfirst.meets hp
          | succ k => exact ⟨k, Nat.lt_of_succ_lt_succ hk, (meetsFirst_succ_iff.mp hfirst).2, heq⟩

/-- Searches that agree along the chain of one of them find the same. -/
theorem search_congr {hit' : α → Prop} [DecidablePred hit'] {next' : α → α}
    (hhit : ∀ i, i < n → (hit' (next^[i] p) ↔ hit (next^[i] p)))
    (hnext : ∀ i, i < n → next' (next^[i] p) = next (next^[i] p)) :
    search hit' next' n p = search hit next n p := by
  induction n generalizing p with
  | zero => rfl
  | succ n ih =>
      have hstep : next' p = next p := hnext 0 (Nat.succ_pos n)
      rw [search, search, hstep, ih (fun i hi => hhit (i + 1) (Nat.succ_lt_succ hi))
        fun i hi => hnext (i + 1) (Nat.succ_lt_succ hi)]
      exact if_congr (hhit 0 (Nat.succ_pos n)) rfl rfl

/-- A search of `n` elements finds the first hit of the live part of the chain, and nothing else,
    exactly if the first hit of all is among the `n` elements just when it is in the live part. -/
theorem search_finds_live_iff (live : α → Prop) :
    (∀ a, search hit next n p = some a ↔
        ∃ k, MeetsFirst hit next p k ∧ next^[k] p = a ∧ ∀ i, i ≤ k → live (next^[i] p)) ↔
      ∀ k, MeetsFirst hit next p k → (k < n ↔ ∀ i, i ≤ k → live (next^[i] p)) := by
  constructor
  · intro h k hfirst
    have hk := h (next^[k] p)
    rw [search_eq_some_iff] at hk
    constructor
    · intro hlt
      obtain ⟨j, hj, -, hlive⟩ := hk.mp ⟨k, hlt, hfirst, rfl⟩
      obtain rfl := hfirst.unique hj
      exact hlive
    · intro hlive
      obtain ⟨j, hlt, hj, -⟩ := hk.mpr ⟨k, hfirst, rfl, hlive⟩
      obtain rfl := hfirst.unique hj
      exact hlt
  · intro h a
    rw [search_eq_some_iff]
    constructor
    · rintro ⟨k, hlt, hfirst, heq⟩
      exact ⟨k, hfirst, heq, (h k hfirst).mp hlt⟩
    · rintro ⟨k, hfirst, heq, hlive⟩
      exact ⟨k, (h k hfirst).mpr hlive, hfirst, heq⟩

end AcrnGuest.PointerChase
