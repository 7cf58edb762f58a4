import Mathlib.Data.Sum.Basic
import Mathlib.Logic.Function.Iterate
import Mathlib.Tactic.Common

/-!
# Loops of imperative programs

Three loop forms carry the loops of the C sources. `run` is the general
`for (;;)` loop: one iteration either continues with a new state or breaks with
a result. It is given a bound on the number of iterations, so that it is a total
and executable function; `run_total` is the rule that shows that a loop with an
invariant and a variant returns before the bound is reached. `down` is the
counting loop `for (level = hi; level > lo; --level)`, and `tryDown` the same
loop with a body that may abort. `up` is `for (i = 0; i < n; i++)`, and `tryUp` the
same loop with a body that may abort. `scan` is a `run` that looks for an element and
forgets which one it found.
-/

namespace AcrnGuest.Loop

variable {σ β : Type*}

/-- Iterate `step` at most `bound` times, until it breaks with `Sum.inr`. -/
def run (step : σ → σ ⊕ β) : Nat → σ → Option β
  | 0, _ => none
  | bound + 1, s =>
      match step s with
      | .inl next => run step bound next
      | .inr result => some result

theorem run_succ_inl {step : σ → σ ⊕ β} {s next : σ} (h : step s = .inl next) (bound : Nat) :
    run step (bound + 1) s = run step bound next := by
  simp only [run, h]

theorem run_succ_inr {step : σ → σ ⊕ β} {s : σ} {result : β} (h : step s = .inr result)
    (bound : Nat) : run step (bound + 1) s = some result := by
  simp only [run, h]

/-- **Total correctness of a loop.** If every iteration from a state that meets
    the invariant either keeps it and decreases the variant, or breaks with a
    result that meets the postcondition, then the loop returns such a result. -/
theorem run_total (step : σ → σ ⊕ β) (Inv : σ → Prop) (variant : σ → Nat) (Post : β → Prop)
    (hcontinue : ∀ s next, Inv s → step s = .inl next → Inv next ∧ variant next < variant s)
    (hbreak : ∀ s result, Inv s → step s = .inr result → Post result)
    {s : σ} {bound : Nat} (hs : Inv s) (hbound : variant s < bound) :
    ∃ result, run step bound s = some result ∧ Post result := by
  induction bound generalizing s with
  | zero => omega
  | succ bound ih =>
      cases hstep : step s with
      | inl next =>
          have hnext := hcontinue s next hs hstep
          obtain ⟨result, hrun, hpost⟩ := ih hnext.1 (by omega)
          exact ⟨result, (run_succ_inl hstep bound).trans hrun, hpost⟩
      | inr result =>
          exact ⟨result, run_succ_inr hstep bound, hbreak s result hs hstep⟩

/-- A loop that keeps an invariant and never breaks under it does not return. -/
theorem run_eq_none_of_invariant (step : σ → σ ⊕ β) (Inv : σ → Prop)
    (hstep : ∀ s, Inv s → ∃ next, step s = .inl next ∧ Inv next) (bound : Nat) {s : σ}
    (hs : Inv s) :
    run step bound s = none := by
  induction bound generalizing s with
  | zero => rfl
  | succ bound ih =>
      obtain ⟨next, hnext, hInv⟩ := hstep s hs
      exact (run_succ_inl hnext bound).trans (ih hInv)

theorem run_eq_none (step : σ → σ ⊕ β) (hstep : ∀ s, ∃ next, step s = .inl next) (bound : Nat)
    (s : σ) : run step bound s = none := by
  refine run_eq_none_of_invariant step (fun _ => True) (fun s _ => ?_) bound trivial
  obtain ⟨next, hnext⟩ := hstep s
  exact ⟨next, hnext, trivial⟩

/-- A loop whose body may fail, which is the inner `none` of the result. -/
def tryRun (body : σ → Option (σ ⊕ β)) (bound : Nat) (s : σ) : Option (Option β) :=
  run (fun s =>
    match body s with
    | none => .inr none
    | some (.inl next) => .inl next
    | some (.inr result) => .inr (some result)) bound s

section TryRun

variable {body : σ → Option (σ ⊕ β)} {s next : σ} {bound : Nat}

theorem tryRun_fail (h : body s = none) (bound : Nat) : tryRun body (bound + 1) s = some none := by
  simp only [tryRun, run, h]

theorem tryRun_next (h : body s = some (.inl next)) (bound : Nat) :
    tryRun body (bound + 1) s = tryRun body bound next := by
  simp only [tryRun, run, h]

theorem tryRun_done {result : β} (h : body s = some (.inr result)) (bound : Nat) :
    tryRun body (bound + 1) s = some (some result) := by
  simp only [tryRun, run, h]

/-- What every pass keeps holds of the result. -/
theorem tryRun_keeps {result : β} (Inv : σ → Prop) (Post : β → Prop)
    (hnext : ∀ s next, Inv s → body s = some (.inl next) → Inv next)
    (hdone : ∀ s result, Inv s → body s = some (.inr result) → Post result) (hs : Inv s)
    (h : tryRun body bound s = some (some result)) : Post result := by
  induction bound generalizing s with
  | zero => cases h
  | succ bound ih =>
      cases hbody : body s with
      | none =>
          rw [tryRun_fail hbody] at h
          cases h
      | some r =>
          cases r with
          | inl next =>
              rw [tryRun_next hbody] at h
              exact ih (hnext s next hs hbody) h
          | inr result' =>
              rw [tryRun_done hbody] at h
              cases h
              exact hdone s result hs hbody

/-- A loop with a variant returns or fails. -/
theorem tryRun_ends (variant : σ → Nat)
    (hnext : ∀ s next, body s = some (.inl next) → variant next < variant s)
    (hbound : variant s < bound) : ∃ result, tryRun body bound s = some result := by
  induction bound generalizing s with
  | zero => omega
  | succ bound ih =>
      cases hbody : body s with
      | none => exact ⟨none, tryRun_fail hbody bound⟩
      | some r =>
          cases r with
          | inl next =>
              have hlt := hnext s next hbody
              rw [tryRun_next hbody]
              exact ih (by omega)
          | inr result => exact ⟨some result, tryRun_done hbody bound⟩

end TryRun

/-- The loop `for (s = start; !done(s); s = next(s)) if (hit(s)) return true; return false;`. -/
def scan (done hit : σ → Prop) [DecidablePred done] [DecidablePred hit] (next : σ → σ) (bound : Nat)
    (s : σ) : Option Bool :=
  run (fun s => if done s then .inr false else if hit s then .inr true else .inl (next s)) bound s

section Scan

variable {done hit : σ → Prop} [DecidablePred done] [DecidablePred hit] {next : σ → σ} {bound : Nat}
  {s : σ}

theorem scan_done (h : done s) : scan done hit next (bound + 1) s = some false := by
  simp only [scan, run, if_pos h]

theorem scan_hit (hlive : ¬ done s) (h : hit s) : scan done hit next (bound + 1) s = some true := by
  simp only [scan, run, if_neg hlive, if_pos h]

theorem scan_next (hlive : ¬ done s) (h : ¬ hit s) :
    scan done hit next (bound + 1) s = scan done hit next bound (next s) := by
  simp only [scan, run, if_neg hlive, if_neg h]

variable (done hit next)

/-- A scan that ends after `n` elements looks at each of them. -/
theorem scan_of_done {n : Nat} (hlive : ∀ i, i < n → ¬ done (next^[i] s))
    (hdone : done (next^[n] s)) (hbound : n < bound) :
    ∃ b, scan done hit next bound s = some b ∧ (b = true ↔ ∃ i, i < n ∧ hit (next^[i] s)) := by
  induction n generalizing s bound with
  | zero =>
      obtain ⟨bound, rfl⟩ := Nat.exists_eq_succ_of_ne_zero (Nat.ne_of_gt hbound)
      refine ⟨false, scan_done hdone, ?_⟩
      simp
  | succ n ih =>
      obtain ⟨bound, rfl⟩ := Nat.exists_eq_succ_of_ne_zero (by omega : bound ≠ 0)
      have hfirst : ¬ done s := hlive 0 (Nat.succ_pos n)
      by_cases hs : hit s
      · exact ⟨true, scan_hit hfirst hs, fun _ => ⟨0, Nat.succ_pos n, hs⟩, fun _ => rfl⟩
      · obtain ⟨b, hscan, hb⟩ := ih (fun i hi => hlive (i + 1) (Nat.succ_lt_succ hi)) hdone
          (Nat.lt_of_succ_lt_succ hbound)
        refine ⟨b, (scan_next hfirst hs).trans hscan, hb.trans ?_⟩
        constructor
        · rintro ⟨i, hi, hhit⟩
          exact ⟨i + 1, Nat.succ_lt_succ hi, hhit⟩
        · rintro ⟨i, hi, hhit⟩
          cases i with
          | zero => exact absurd hhit hs
          | succ i => exact ⟨i, Nat.lt_of_succ_lt_succ hi, hhit⟩

/-- A scan without an end returns if there is something to find, and does not return otherwise. -/
theorem scan_of_live (bound : Nat) (hlive : ∀ i, ¬ done (next^[i] s)) :
    scan done hit next bound s = some true ∧ (∃ i, i < bound ∧ hit (next^[i] s)) ∨
      scan done hit next bound s = none ∧ ∀ i, i < bound → ¬ hit (next^[i] s) := by
  induction bound generalizing s with
  | zero => exact Or.inr ⟨rfl, fun i hi => absurd hi (Nat.not_lt_zero i)⟩
  | succ bound ih =>
      have hfirst : ¬ done s := hlive 0
      by_cases hs : hit s
      · exact Or.inl ⟨scan_hit hfirst hs, 0, Nat.succ_pos bound, hs⟩
      · rw [scan_next hfirst hs]
        refine (ih fun i => hlive (i + 1)).imp ?_ ?_
        · rintro ⟨hscan, i, hi, hhit⟩
          exact ⟨hscan, i + 1, Nat.succ_lt_succ hi, hhit⟩
        · rintro ⟨hscan, hno⟩
          refine ⟨hscan, fun i hi => ?_⟩
          cases i with
          | zero => exact hs
          | succ i => exact hno i (Nat.lt_of_succ_lt_succ hi)

end Scan

/-- The body runs for `level = hi, hi - 1, …, lo + 1`. -/
def down (body : Nat → σ → σ) (lo : Nat) : Nat → σ → σ
  | 0, s => s
  | hi + 1, s => if lo < hi + 1 then down body lo hi (body (hi + 1) s) else s

/-- What the iterations of `down` do that is not seen in the states, in order. -/
def downTrace {ε : Type*} (body : Nat → σ → σ) (event : Nat → σ → List ε) (lo : Nat) :
    Nat → σ → List ε
  | 0, _ => []
  | hi + 1, s =>
    if lo < hi + 1 then event (hi + 1) s ++ downTrace body event lo hi (body (hi + 1) s) else []

def tryDown (body : Nat → σ → Option σ) (lo : Nat) : Nat → σ → Option σ
  | 0, s => some s
  | hi + 1, s => if lo < hi + 1 then (body (hi + 1) s).bind (tryDown body lo hi) else some s

theorem tryDown_of_le {body : Nat → σ → Option σ} {lo hi : Nat} (h : hi ≤ lo) (s : σ) :
    tryDown body lo hi s = some s := by
  cases hi with
  | zero => rfl
  | succ hi => simp only [tryDown, if_neg (Nat.not_lt.mpr h)]

theorem tryDown_succ {body : Nat → σ → Option σ} {lo hi : Nat} (h : lo ≤ hi) (s : σ) :
    tryDown body lo (hi + 1) s = (body (hi + 1) s).bind (tryDown body lo hi) := by
  simp only [tryDown, if_pos (Nat.lt_succ_of_le h)]

/-- What every iteration keeps holds after the loop. -/
theorem tryDown_invariant {body : Nat → σ → Option σ} (Inv : σ → Prop)
    (hbody : ∀ level s s', Inv s → body level s = some s' → Inv s') {lo hi : Nat} {s s' : σ}
    (hs : Inv s) (h : tryDown body lo hi s = some s') : Inv s' := by
  induction hi generalizing s with
  | zero => exact Option.some.inj h ▸ hs
  | succ hi ih =>
      rw [tryDown] at h
      split at h
      · obtain ⟨s₁, hstep, hrest⟩ := Option.bind_eq_some_iff.mp h
        exact ih (hbody _ s s₁ hs hstep) hrest
      · exact Option.some.inj h ▸ hs

theorem tryDown_some (body : Nat → σ → σ) (lo hi : Nat) (s : σ) :
    tryDown (fun level s => some (body level s)) lo hi s = some (down body lo hi s) := by
  induction hi generalizing s with
  | zero => rfl
  | succ hi ih =>
      simp only [tryDown, down, Option.bind_some, ih]
      split <;> rfl

/-- The body runs for `i = 0, 1, …, n - 1`. -/
def up (body : Nat → σ → σ) : Nat → σ → σ
  | 0, s => s
  | n + 1, s => body n (up body n s)

def tryUp (body : Nat → σ → Option σ) : Nat → σ → Option σ
  | 0, s => some s
  | n + 1, s => (tryUp body n s).bind (body n)

section TryUp

variable {body : Nat → σ → Option σ} {n k : Nat} {s t s' : σ}

theorem tryUp_succ_eq_some_iff :
    tryUp body (n + 1) s = some s' ↔ ∃ t, tryUp body n s = some t ∧ body n t = some s' :=
  Option.bind_eq_some_iff

/-- A loop that returns has passed through each number of iterations. -/
theorem tryUp_of_le (hk : k ≤ n) (h : tryUp body n s = some s') : ∃ t, tryUp body k s = some t := by
  induction hk generalizing s' with
  | refl => exact ⟨s', h⟩
  | step _ ih =>
      obtain ⟨t, ht, -⟩ := tryUp_succ_eq_some_iff.mp h
      exact ih ht

/-- What every iteration keeps stays from the time when it holds. -/
theorem tryUp_keeps (Inv : σ → Prop)
    (hbody : ∀ i t t', Inv t → body i t = some t' → Inv t') (hk : k ≤ n)
    (ht : tryUp body k s = some t) (hInv : Inv t) (h : tryUp body n s = some s') : Inv s' := by
  induction hk generalizing s' with
  | refl => exact Option.some.inj (ht.symm.trans h) ▸ hInv
  | step _ ih =>
      obtain ⟨u, hu, hlast⟩ := tryUp_succ_eq_some_iff.mp h
      exact hbody _ u s' (ih hu) hlast

/-- The iterations from the `n`th one on. -/
theorem tryUp_add (body : Nat → σ → Option σ) (n m : Nat) (s : σ) :
    tryUp body (n + m) s = (tryUp body n s).bind (tryUp (fun j => body (n + j)) m) := by
  induction m with
  | zero => simp [tryUp]
  | succ m ih => rw [← Nat.add_assoc, tryUp, ih, Option.bind_assoc]; rfl

theorem tryUp_congr {body body' : Nat → σ → Option σ} (h : ∀ i, i < n → body i = body' i) (s : σ) :
    tryUp body n s = tryUp body' n s := by
  induction n with
  | zero => rfl
  | succ n ih => rw [tryUp, tryUp, ih fun i hi => h i (by omega), h n (by omega)]

/-- Two nested loops that number their iterations through. -/
theorem tryUp_nested (body : Nat → σ → Option σ) (n m : Nat) (s : σ) :
    tryUp (fun i => tryUp (fun j => body (i * m + j)) m) n s = tryUp body (n * m) s := by
  induction n with
  | zero => simp [tryUp]
  | succ n ih => rw [tryUp, ih, Nat.succ_mul, tryUp_add]

/-- A `run` whose states are numbered and whose iteration `n` is the last one. -/
theorem run_eq_tryUp {τ : Type*} {step : τ → τ ⊕ Option β} (body : Nat → σ → Option σ)
    (state : Nat → σ → τ) (result : σ → β)
    (hstep : ∀ k t, k < n → step (state k t) =
      (body k t).elim (Sum.inr none) fun t' => Sum.inl (state (k + 1) t'))
    (hend : ∀ t, step (state n t) = Sum.inr (some (result t))) {bound : Nat} (hbound : n < bound) :
    run step bound (state 0 s) = some ((tryUp body n s).map result) := by
  have hrest : ∀ k, k ≤ n → (tryUp body k s).elim (run step bound (state 0 s) = some none)
      fun t => run step bound (state 0 s) = run step (bound - k) (state k t) := by
    intro k hk
    induction k with
    | zero => rfl
    | succ k ih =>
        have hbefore := ih (Nat.le_of_succ_le hk)
        rw [tryUp]
        cases ht : tryUp body k s with
        | none => rwa [ht] at hbefore
        | some t =>
            rw [ht, Option.elim_some, show bound - k = bound - (k + 1) + 1 by omega] at hbefore
            have hone := hstep k t hk
            rw [Option.bind_some]
            cases hbody : body k t with
            | none =>
                rw [hbody] at hone
                exact hbefore.trans (run_succ_inr hone _)
            | some t' =>
                rw [hbody] at hone
                exact hbefore.trans (run_succ_inl hone _)
  have hlast := hrest n (Nat.le_refl n)
  cases ht : tryUp body n s with
  | none => rwa [ht] at hlast
  | some t =>
      rw [ht, Option.elim_some, show bound - n = bound - n - 1 + 1 by omega] at hlast
      exact hlast.trans (run_succ_inr (hend t) _)

end TryUp

end AcrnGuest.Loop
