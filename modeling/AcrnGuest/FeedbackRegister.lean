import Mathlib.Data.Nat.Bitwise
import Mathlib.Logic.Function.Iterate

/-!
# Shift registers with feedback

A message enters a register bit by bit: the register moves down by one place, and if the
bit that falls out differs from the message's bit, a polynomial is added. The step is
linear in exclusive or. So `n` bits of a message can be added to the register at once and
then be moved through it (`feedBits_eq`), and `n` moves are a table's word for the low `n`
bits and the rest of the register moved down (`turn_split`).
-/

namespace AcrnGuest.FeedbackRegister

variable {w : Nat} (poly : BitVec w)

def feed (s : BitVec w) (bit : Bool) : BitVec w :=
  (s >>> 1) ^^^ if (s.getLsbD 0 ^^ bit) then poly else 0#w

/-- The bits of `x` below `n` enter the register, the lowest one first. -/
def feedBits (s : BitVec w) {v : Nat} (x : BitVec v) (n : Nat) : BitVec w :=
  (List.range n).foldl (fun s i => feed poly s (x.getLsbD i)) s

def turn (n : Nat) (s : BitVec w) : BitVec w := (feed poly · false)^[n] s

variable {s t : BitVec w} {n : Nat}

theorem turn_succ : turn poly (n + 1) s = feed poly (turn poly n s) false :=
  Function.iterate_succ_apply' ..

theorem ite_xor (a b : Bool) :
    (if (a ^^ b) then poly else 0#w) = (if a then poly else 0#w) ^^^ if b then poly else 0#w := by
  cases a <;> cases b <;> simp

theorem feed_xor (s t : BitVec w) (a b : Bool) :
    feed poly (s ^^^ t) (a ^^ b) = feed poly s a ^^^ feed poly t b := by
  have hbits : ((s.getLsbD 0 ^^ t.getLsbD 0) ^^ (a ^^ b)) =
      ((s.getLsbD 0 ^^ a) ^^ (t.getLsbD 0 ^^ b)) := by
    rw [Bool.xor_assoc, Bool.xor_assoc, Bool.xor_left_comm (t.getLsbD 0)]
  unfold feed
  rw [BitVec.getLsbD_xor, BitVec.ushiftRight_xor_distrib, hbits, ite_xor]
  ac_rfl

theorem turn_xor (n : Nat) (s t : BitVec w) :
    turn poly n (s ^^^ t) = turn poly n s ^^^ turn poly n t := by
  induction n with
  | zero => rfl
  | succ n ih =>
      have hbit := feed_xor poly (turn poly n s) (turn poly n t) false false
      simpa [turn_succ, ih] using hbit

/-- A bit that agrees with the one that falls out adds nothing. -/
theorem feed_own (s : BitVec w) : feed poly s (s.getLsbD 0) = s >>> 1 := by simp [feed]

/-- What has not entered yet was added too early, and is still in place. -/
theorem feedBits_eq (s x : BitVec w) (n : Nat) :
    feedBits poly s x n = turn poly n (s ^^^ x) ^^^ (x >>> n) := by
  induction n with
  | zero =>
      change s = (s ^^^ x) ^^^ (x >>> 0)
      rw [BitVec.ushiftRight_zero, BitVec.xor_assoc, BitVec.xor_self, BitVec.xor_zero]
  | succ n ih =>
      have hbit : (x >>> n).getLsbD 0 = x.getLsbD n := by simp
      have hstep := feed_xor poly (turn poly n (s ^^^ x)) (x >>> n) false (x.getLsbD n)
      rw [← hbit, feed_own, Bool.false_xor, hbit, ← turn_succ, ← BitVec.shiftRight_add] at hstep
      unfold feedBits at ih ⊢
      rw [List.range_succ, List.foldl_append, ih]
      exact hstep

/-- A register whose low bits are clear only moves down. -/
theorem turn_of_clear (h : ∀ i, i < n → s.getLsbD i = false) : turn poly n s = s >>> n := by
  induction n with
  | zero => simp [turn]
  | succ n ih =>
      have hlow : (s >>> n).getLsbD 0 = false := by simpa using h n (Nat.lt_succ_self n)
      have hown := feed_own poly (s >>> n)
      rw [hlow] at hown
      rw [turn_succ, ih fun i hi => h i (Nat.lt_succ_of_lt hi), hown, BitVec.shiftRight_add]

/-- **The step of a table**: the word for the low `n` bits, and the rest moved down. -/
theorem turn_split (n : Nat) (s : BitVec w) :
    turn poly n s = (s >>> n) ^^^ turn poly n ((s.setWidth n).setWidth w) := by
  have hclear : ∀ i, i < n → (s ^^^ (s.setWidth n).setWidth w).getLsbD i = false := by
    intro i hi
    by_cases hw : i < w
    · simp [hi, hw]
    · exact BitVec.getLsbD_of_ge _ _ (Nat.le_of_not_lt hw)
  have hrest : (s ^^^ (s.setWidth n).setWidth w) >>> n = s >>> n := by
    apply BitVec.eq_of_getLsbD_eq
    intro i _
    simp
  have hparts : s = (s ^^^ (s.setWidth n).setWidth w) ^^^ (s.setWidth n).setWidth w := by
    rw [BitVec.xor_assoc, BitVec.xor_self, BitVec.xor_zero]
  conv_lhs => rw [hparts, turn_xor, turn_of_clear poly hclear, hrest]

end AcrnGuest.FeedbackRegister
