import Mathlib.Data.List.Nodup
import Mathlib.Data.Nat.Bitwise
import Mathlib.Logic.Function.Basic

/-!
# Checksums that see every single change

A checksum folds a step over a sequence of symbols. If the step can be undone, in
the state for a known symbol and in the symbol for a known state, then a change of
one symbol changes the result, wherever it happens and however long the sequence is.
-/

namespace AcrnGuest.Checksum

variable {σ α ι : Type*}

/-- On the states in `S` the step loses neither the state nor the symbol. -/
structure Reversible (step : σ → α → σ) (S : σ → Prop) : Prop where
  maps : ∀ s a, S s → S (step s a)
  state : ∀ s t a, S s → S t → step s a = step t a → s = t
  symbol : ∀ s a b, S s → step s a = step s b → a = b

variable {step : σ → α → σ} {S : σ → Prop}

theorem Reversible.maps_foldl (h : Reversible step S) {s : σ} (hs : S s) (l : List α) :
    S (l.foldl step s) :=
  List.foldlRecOn l step hs fun t ht a _ => h.maps t a ht

theorem Reversible.foldl_inj (h : Reversible step S) {s t : σ} (hs : S s) (ht : S t) {l : List α}
    (heq : l.foldl step s = l.foldl step t) : s = t := by
  induction l generalizing s t with
  | nil => exact heq
  | cons a l ih => exact h.state s t a hs ht (ih (h.maps s a hs) (h.maps t a ht) heq)

variable [DecidableEq ι]

/-- The checksum of the symbols at the positions `l` of a memory changes with the symbol
    at `i` exactly if `i` is one of the positions. -/
theorem Reversible.foldl_update_ne_iff (h : Reversible step S) {s : σ} (hs : S s) {l : List ι}
    (hl : l.Nodup) {m : ι → α} {i : ι} {v : α} (hv : v ≠ m i) :
    (l.map (Function.update m i v)).foldl step s ≠ (l.map m).foldl step s ↔ i ∈ l := by
  have hsame : ∀ {l : List ι}, i ∉ l → l.map (Function.update m i v) = l.map m := fun hi =>
    List.map_congr_left fun j hj => Function.update_of_ne (ne_of_mem_of_not_mem hj hi) ..
  constructor
  · intro hne
    by_contra hi
    exact hne (by rw [hsame hi])
  · intro hi heq
    obtain ⟨front, back, rfl⟩ := List.append_of_mem hi
    rw [List.nodup_append, List.nodup_cons] at hl
    have hfront : i ∉ front := fun hmem => hl.2.2 i hmem i List.mem_cons_self rfl
    -- up to `i` both runs agree, and behind it they cannot meet again
    simp only [List.map_append, List.map_cons, List.foldl_append, List.foldl_cons,
      hsame hfront, hsame hl.2.1.1, Function.update_self] at heq
    have hstate := h.maps_foldl hs (front.map m)
    exact hv (h.symbol _ _ _ hstate (h.foldl_inj (h.maps _ _ hstate) (h.maps _ _ hstate) heq))

/-! ### Tables without repetition -/

/-- No number of the list occurs twice or is one of the set bits of `seen`. -/
def distinct : Nat → List Nat → Bool
  | _, [] => true
  | seen, x :: l => !seen.testBit x && distinct (seen ||| 2 ^ x) l

theorem nodup_of_distinct {seen : Nat} {l : List Nat} (h : distinct seen l = true) :
    l.Nodup ∧ ∀ x ∈ l, seen.testBit x = false := by
  induction l generalizing seen with
  | nil => exact ⟨List.nodup_nil, fun _ hx => absurd hx List.not_mem_nil⟩
  | cons x l ih =>
      rw [distinct, Bool.and_eq_true, Bool.not_eq_true'] at h
      obtain ⟨hnodup, hseen⟩ := ih h.2
      simp only [Nat.testBit_or, Bool.or_eq_false_iff] at hseen
      refine ⟨List.nodup_cons.mpr ⟨fun hx => ?_, hnodup⟩, ?_⟩
      · have hbit := (hseen x hx).2
        rw [Nat.testBit_two_pow_self] at hbit
        exact Bool.false_ne_true hbit.symm
      · rintro y (_ | ⟨_, hy⟩)
        · exact h.1
        · exact (hseen y hy).1

end AcrnGuest.Checksum
