import Mathlib.Data.List.Basic
import Mathlib.Data.List.GetD
import Mathlib.Tactic.Common

/-!
# Texts with a delimiter of two characters

Texts are joined by writing a delimiter behind each of them. If the delimiter's two
characters differ and no text contains it, then its first occurrence in the joined text
is the one behind the first text, whatever the texts begin or end with.
-/

namespace AcrnGuest.Delimited

variable {α : Type*}

/-- Each text with the delimiter behind it. -/
def joined (delim : List α) (texts : List (List α)) : List α := texts.flatMap (· ++ delim)

@[simp] theorem joined_nil (delim : List α) : joined delim [] = [] := rfl

@[simp] theorem joined_cons (delim text : List α) (texts : List (List α)) :
    joined delim (text :: texts) = text ++ delim ++ joined delim texts := List.flatMap_cons

theorem joined_append (delim : List α) (texts rest : List (List α)) :
    joined delim (texts ++ rest) = joined delim texts ++ joined delim rest := List.flatMap_append

theorem length_le_length_joined {delim : List α} (hdelim : delim ≠ []) (texts : List (List α)) :
    texts.length ≤ (joined delim texts).length := by
  have hpos := List.length_pos_of_ne_nil hdelim
  induction texts with
  | nil => exact Nat.zero_le 0
  | cons text texts ih =>
      simp only [joined_cons, List.length_append, List.length_cons]
      omega

/-- The last text and its delimiter stand at the end. -/
theorem joined_dropLast (delim : List α) {texts : List (List α)} (h : texts ≠ []) :
    joined delim texts = joined delim texts.dropLast ++ (texts.getLast h ++ delim) := by
  conv_lhs => rw [← List.dropLast_append_getLast h, joined_append]
  rw [joined_cons, joined_nil, List.append_nil]

/-- A delimiter that begins in a text does not end behind it. -/
theorem not_delim_isPrefix {a b : α} (hab : a ≠ b) {c : α} {text : List α} (rest : List α)
    (h : ¬[a, b] <+: c :: text) : ¬[a, b] <+: c :: (text ++ [a, b] ++ rest) := by
  intro hpre
  cases text with
  | nil =>
      -- the delimiter's second character would be its first one
      obtain ⟨-, hpre⟩ := List.cons_prefix_cons.mp hpre
      exact hab (List.cons_prefix_cons.mp hpre).1.symm
  | cons d text =>
      obtain ⟨hc, hpre⟩ := List.cons_prefix_cons.mp hpre
      obtain ⟨hd, -⟩ := List.cons_prefix_cons.mp hpre
      exact h (List.cons_prefix_cons.mpr ⟨hc, List.cons_prefix_cons.mpr ⟨hd, List.nil_prefix⟩⟩)

theorem isPrefix_iff_getD {pat s : List α} (d : α) (h : pat.length ≤ s.length) :
    pat <+: s ↔ ∀ i, i < pat.length → s.getD i d = pat.getD i d := by
  rw [List.prefix_iff_eq_take]
  constructor
  · intro htake i hi
    rw [List.getD_eq_getElem _ _ (by omega : i < s.length)]
    conv_rhs => rw [htake]
    rw [List.getD_eq_getElem _ _ (by rw [List.length_take]; omega), List.getElem_take]
  · intro hall
    refine List.ext_getElem (by rw [List.length_take]; omega) (fun i hi _ => ?_)
    have hchar := hall i hi
    rw [List.getD_eq_getElem _ _ hi, List.getD_eq_getElem _ _ (by omega : i < s.length)] at hchar
    rw [List.getElem_take, hchar]

/-- The first position at which `pat` occurs in `s`, or none if there is no such position. -/
def IsFirst (pat s : List α) : Option Nat → Prop
  | some i => pat <+: s.drop i ∧ ∀ j, j < i → ¬ pat <+: s.drop j
  | none => ∀ j, ¬ pat <+: s.drop j

variable [DecidableEq α]

def findText (pat : List α) : List α → Option Nat
  | [] => if pat = [] then some 0 else none
  | c :: s => if pat <+: c :: s then some 0 else (findText pat s).map (· + 1)

theorem findText_eq_none_of_length {pat s : List α} (h : s.length < pat.length) :
    findText pat s = none := by
  induction s with
  | nil => exact if_neg (List.ne_nil_of_length_pos h)
  | cons c s ih =>
      rw [findText, if_neg (fun hpre => Nat.not_lt.mpr hpre.length_le h),
        ih (Nat.lt_of_succ_lt h)]
      rfl

theorem findText_eq_zero_iff {pat s : List α} : findText pat s = some 0 ↔ pat <+: s := by
  cases s with
  | nil =>
      rw [findText, List.prefix_nil]
      by_cases hpat : pat = []
      · simp [hpat]
      · simp [hpat]
  | cons c s =>
      rw [findText]
      by_cases hpre : pat <+: c :: s
      · rw [if_pos hpre]
        exact iff_of_true rfl hpre
      · rw [if_neg hpre]
        refine iff_of_false (fun hzero => ?_) hpre
        obtain ⟨i, -, hi⟩ := Option.map_eq_some_iff.mp hzero
        exact Nat.succ_ne_zero i hi

theorem findText_isSome_iff {pat s : List α} : (findText pat s).isSome = true ↔ pat <:+: s := by
  induction s with
  | nil =>
      rw [findText, List.infix_nil]
      by_cases hpat : pat = []
      · simp [hpat]
      · simp [hpat]
  | cons c s ih =>
      rw [findText, List.infix_cons_iff]
      by_cases hpre : pat <+: c :: s
      · rw [if_pos hpre]
        exact iff_of_true rfl (Or.inl hpre)
      · rw [if_neg hpre, Option.isSome_map, ih]
        exact (or_iff_right hpre).symm

theorem isFirst_findText (pat s : List α) : IsFirst pat s (findText pat s) := by
  induction s with
  | nil =>
      rw [findText]
      split_ifs with hpat
      · exact ⟨hpat ▸ List.nil_prefix, fun j hj => absurd hj (Nat.not_lt_zero j)⟩
      · intro j
        rwa [List.drop_nil, List.prefix_nil]
  | cons c s ih =>
      rw [findText]
      split_ifs with hpre
      · exact ⟨hpre, fun j hj => absurd hj (Nat.not_lt_zero j)⟩
      · cases hfind : findText pat s with
        | none =>
            rw [hfind] at ih
            intro j
            cases j with
            | zero => exact hpre
            | succ j => exact ih j
        | some i =>
            rw [hfind] at ih
            refine ⟨ih.1, fun j hj => ?_⟩
            cases j with
            | zero => exact hpre
            | succ j => exact ih.2 j (Nat.lt_of_succ_lt_succ hj)

theorem findText_delimited {a b : α} (hab : a ≠ b) {text : List α}
    (htext : findText [a, b] text = none) (rest : List α) :
    findText [a, b] (text ++ [a, b] ++ rest) = some text.length := by
  induction text with
  | nil => exact if_pos (List.prefix_append [a, b] rest)
  | cons c text ih =>
      rw [findText] at htext
      split at htext
      · cases htext
      · next hpre =>
          rw [List.cons_append, List.cons_append, findText,
            if_neg (not_delim_isPrefix hab rest hpre), ih (Option.map_eq_none_iff.mp htext)]
          rfl

end AcrnGuest.Delimited
