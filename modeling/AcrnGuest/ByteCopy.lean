import AcrnGuest.Loop
import Mathlib.Logic.Function.Basic

/-!
# Copying cell by cell

A loop copies the cells `src 0, src 1, …` of a memory to `dst 0, dst 1, …`, one at a
time. Source and destination may overlap. If no cell is overwritten before it is read,
the destination ends up with what the source held at the start; whether this is so
depends on the direction of the loop.
-/

namespace AcrnGuest.ByteCopy

variable {α β : Type*} [DecidableEq α]

def copyCells (src dst : Nat → α) (n : Nat) (mem : α → β) : α → β :=
  Loop.up (fun k mem => Function.update mem (dst k) (mem (src k))) n mem

variable {src dst : Nat → α} {n : Nat} {mem : α → β}

theorem copyCells_succ :
    copyCells src dst (n + 1) mem
      = Function.update (copyCells src dst n mem) (dst n) (copyCells src dst n mem (src n)) := rfl

theorem copyCells_succ' :
    copyCells src dst (n + 1) mem
      = copyCells (fun k => src (k + 1)) (fun k => dst (k + 1)) n
        (Function.update mem (dst 0) (mem (src 0))) := by
  induction n with
  | zero => rfl
  | succ n ih => rw [copyCells_succ, ih, copyCells_succ]

theorem copyCells_congr {src' dst' : Nat → α} (hsrc : ∀ k, k < n → src k = src' k)
    (hdst : ∀ k, k < n → dst k = dst' k) :
    copyCells src dst n mem = copyCells src' dst' n mem := by
  induction n with
  | zero => rfl
  | succ n ih =>
      rw [copyCells_succ, copyCells_succ, hsrc n (Nat.lt_succ_self n), hdst n (Nat.lt_succ_self n),
        ih (fun k hk => hsrc k (Nat.lt_succ_of_lt hk)) fun k hk => hdst k (Nat.lt_succ_of_lt hk)]

theorem copyCells_mem (a : α) : ∃ b, copyCells src dst n mem a = mem b := by
  induction n generalizing a with
  | zero => exact ⟨a, rfl⟩
  | succ n ih =>
      rw [copyCells_succ]
      by_cases ha : a = dst n
      · subst ha
        rw [Function.update_self]
        exact ih (src n)
      · rw [Function.update_of_ne ha]
        exact ih a

theorem copyCells_of_ne {a : α} (h : ∀ k, k < n → a ≠ dst k) :
    copyCells src dst n mem a = mem a := by
  induction n with
  | zero => rfl
  | succ n ih =>
      rw [copyCells_succ, Function.update_of_ne (h n (Nat.lt_succ_self n))]
      exact ih fun k hk => h k (Nat.lt_succ_of_lt hk)

/-- If no cell is overwritten before it is read, each destination cell gets what its source cell
    held at the start. -/
theorem copyCells_dst (hread : ∀ j k, j < k → k < n → src k ≠ dst j)
    (hinj : ∀ j k, j < k → k < n → dst k ≠ dst j) {k : Nat} (hk : k < n) :
    copyCells src dst n mem (dst k) = mem (src k) := by
  induction n with
  | zero => omega
  | succ n ih =>
      rw [copyCells_succ]
      rcases Nat.lt_succ_iff_lt_or_eq.mp hk with hlt | rfl
      · rw [Function.update_of_ne (hinj k n hlt (Nat.lt_succ_self n)).symm]
        exact ih (fun j k hj hk => hread j k hj (Nat.lt_succ_of_lt hk))
          (fun j k hj hk => hinj j k hj (Nat.lt_succ_of_lt hk)) hlt
      · rw [Function.update_self]
        exact copyCells_of_ne fun j hj => hread j k hj (Nat.lt_succ_self k)

end AcrnGuest.ByteCopy
