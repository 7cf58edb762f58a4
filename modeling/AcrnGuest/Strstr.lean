import AcrnGuest.CStrings

/-!
# What `strstr` examines (`lib/string.c`)

`strstr` tries every position of its first string at which the second one still fits. The
pointer moves on while the unsigned length counts down, and `memcmp` looks at as many
characters as the second string has.

Here the functions run with pointers and lengths of 64 bits, and each of the two pointers
has a view of the memory in which only some characters can be read. A result where either
view has one string and its terminator, and no other character, shows what is examined
through which pointer.
-/

namespace AcrnGuest.View

open Delimited

def restrict (v : View Word) (S : Word → Prop) [DecidablePred S] : View Word :=
  fun a => if S a then v a else none

namespace StringIn

variable {v : View Word} {p : Word} {s : List (BitVec 8)} {i : Nat}

theorem getD_ne_zero (h : StringIn v p s) (hi : i < s.length) : s.getD i 0#8 ≠ 0#8 := by
  rw [List.getD_eq_getElem s 0#8 hi]
  exact fun hzero => h.nonzero (hzero ▸ List.getElem_mem hi)

/-- A string has fewer characters than there are addresses. -/
theorem length_lt (h : StringIn v p s) : s.length < LOOP_BOUND := by
  unfold LOOP_BOUND
  by_contra hlong
  -- its terminator would be one of its own characters
  have hsame : BitVec.ofNat 64 (s.length - 2 ^ 64) = BitVec.ofNat 64 s.length := by
    apply BitVec.eq_of_toNat_eq
    simp only [BitVec.toNat_ofNat]
    omega
  have hchar := h.cells (s.length - 2 ^ 64) (Nat.sub_le _ _)
  have hend := h.cells s.length (Nat.le_refl _)
  rw [List.getD_eq_default s 0#8 (Nat.le_refl _)] at hend
  change v (p + BitVec.ofNat 64 _) = _ at hchar hend
  rw [hsame, hend] at hchar
  exact h.getD_ne_zero (by omega) (Option.some.inj hchar).symm

theorem restrict_cells (h : StringIn v p s) :
    StringIn (v.restrict fun a => (a - p).toNat ≤ s.length) p s where
  nonzero := h.nonzero
  cells i hi := by
    have hoffset : (p + BitVec.ofNat 64 i - p).toNat ≤ s.length := by
      rw [BitVec.add_comm, BitVec.add_sub_cancel, BitVec.toNat_ofNat]
      exact Nat.le_trans (Nat.mod_le _ _) hi
    exact (if_pos hoffset).trans (h.cells i hi)

end StringIn

/-- **`strstr` examines the two strings only.** With nothing to read through each pointer but the
characters of its string and the terminator it returns, and the result is the first position at
which the second string occurs in the first one, or the null pointer if there is none. -/
theorem strstr_finds_first {v : View Word} {s1 s2 : Word} {s t : List (BitVec 8)}
    (hs : StringIn v s1 s) (ht : StringIn v s2 t) :
    ∃ r, strstr (v.restrict fun a => (a - s1).toNat ≤ s.length)
      (v.restrict fun a => (a - s2).toNat ≤ t.length)
        s1 s2 = some r ∧
      ((∃ i, r = some (s1 + BitVec.ofNat 64 i) ∧ t <+: s.drop i ∧ ∀ j, j < i → ¬ t <+: s.drop j) ∨
        r = none ∧ ∀ j, ¬ t <+: s.drop j) := by
  refine ⟨_, strstr_eq hs.restrict_cells ht.restrict_cells hs.length_lt ht.length_lt, ?_⟩
  have hfirst := isFirst_findText t s
  cases hfind : findText t s with
  | none =>
      rw [hfind] at hfirst
      exact Or.inr ⟨rfl, hfirst⟩
  | some i =>
      rw [hfind] at hfirst
      exact Or.inl ⟨i, rfl, hfirst⟩

/-- The text `aab` with its own end `ab` as the second string. -/
def sharedEnd : View Word := fun a => some ([97#8, 97#8, 98#8].getD (a - 0x1000#64).toNat 0#8)

theorem strstr_finds_first_shared_end :
    StringIn sharedEnd 0x1000#64 [97#8, 97#8, 98#8] ∧ StringIn sharedEnd 0x1001#64 [97#8, 98#8] ∧
      ∃ r, strstr (sharedEnd.restrict fun a => (a - 0x1000#64).toNat ≤ 3)
          (sharedEnd.restrict fun a => (a - 0x1001#64).toNat ≤ 2) 0x1000#64 0x1001#64 = some r ∧
        ((∃ i, r = some (0x1000#64 + BitVec.ofNat 64 i) ∧
          [97#8, 98#8] <+: [97#8, 97#8, 98#8].drop i ∧
            ∀ j, j < i → ¬ [97#8, 98#8] <+: [97#8, 97#8, 98#8].drop j) ∨
          r = none ∧ ∀ j, ¬ [97#8, 98#8] <+: [97#8, 97#8, 98#8].drop j) :=
  have hs : StringIn sharedEnd 0x1000#64 [97#8, 97#8, 98#8] := ⟨by decide, by decide⟩
  have ht : StringIn sharedEnd 0x1001#64 [97#8, 98#8] := ⟨by decide, by decide⟩
  ⟨hs, ht, strstr_finds_first hs ht⟩

end AcrnGuest.View
