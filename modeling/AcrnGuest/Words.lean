import AcrnGuest.Delimited
import Mathlib.Data.List.Flatten

/-!
# Words of a text

The words of a text are its maximal runs of characters that are not blank, in their order:
the non-empty pieces between blanks. A loop that skips blanks and then copies up to the next
blank goes through them one by one (`words_run`).
-/

namespace AcrnGuest.Words

open Delimited

variable {α : Type*} (blank : α → Bool)

def words (s : List α) : List (List α) := (s.splitOnP blank).filter fun w => !w.isEmpty

variable {blank} {c : α} {s w rest : List α}

@[simp] theorem words_nil : words blank [] = [] := by
  rw [words, List.splitOnP_nil]
  rfl

theorem words_cons_blank (hc : blank c = true) (s : List α) :
    words blank (c :: s) = words blank s := by
  rw [words, List.splitOnP_cons_eq_if_modifyHead, if_pos hc]
  rfl

theorem words_skip (s : List α) : words blank (s.dropWhile blank) = words blank s := by
  induction s with
  | nil => rfl
  | cons c s ih =>
      by_cases hc : blank c = true
      · rw [List.dropWhile_cons_of_pos hc, ih, words_cons_blank hc]
      · rw [List.dropWhile_cons_of_neg hc]

/-- A run of other characters, up to a blank or to the end. -/
structure Run (blank : α → Bool) (w rest : List α) : Prop where
  ne_nil : w ≠ []
  chars : ∀ x ∈ w, blank x = false
  stop : ∀ c ∈ rest.head?, blank c = true

theorem words_run (h : Run blank w rest) : words blank (w ++ rest) = w :: words blank rest := by
  have hkeep : ∀ pieces : List (List α), (w :: pieces).filter (fun w => !w.isEmpty) =
      w :: pieces.filter fun w => !w.isEmpty := by
    intro pieces
    apply List.filter_cons_of_pos
    simp [h.ne_nil]
  cases rest with
  | nil =>
    rw [List.append_nil, words, List.splitOnP_eq_singleton h.chars, hkeep, words_nil,
      List.filter_nil]
  | cons c rest =>
      have hc : blank c = true := h.stop c rfl
      rw [words, List.splitOnP_append_cons_of_forall_mem h.chars c hc, hkeep, words_cons_blank hc]
      rfl

/-- Behind the blanks there is a run, or nothing. -/
theorem run_of_dropWhile (hc : blank c = false) (s : List α) :
    Run blank ((c :: s).takeWhile (!blank ·)) ((c :: s).dropWhile (!blank ·)) where
  ne_nil := by simp [hc]
  chars x hx := by
    have hall := List.all_takeWhile (p := (!blank ·)) (l := c :: s)
    simpa using List.all_eq_true.mp hall x hx
  stop d hd := by
    have hne := List.head?_dropWhile_not (fun x => !blank x) (c :: s)
    rw [Option.mem_def.mp hd] at hne
    simpa using hne

theorem Run.length_lt (h : Run blank w rest) (hskip : s.dropWhile blank = w ++ rest) :
    rest.length < s.length := by
  have hle := (List.dropWhile_suffix blank (l := s)).length_le
  have hpos := List.length_pos_of_ne_nil h.ne_nil
  rw [hskip, List.length_append] at hle
  omega

/-- The induction over the words of a text: nothing but blanks, or blanks, a run and the rest. -/
theorem words_induction (blank : α → Bool) {P : List α → Prop}
    (hblank : ∀ s, s.dropWhile blank = [] → P s)
    (hrun : ∀ s w rest, s.dropWhile blank = w ++ rest → Run blank w rest → P rest → P s)
    (s : List α) : P s := by
  induction hn : s.length using Nat.strongRecOn generalizing s with
  | ind n ih =>
      cases hskip : s.dropWhile blank with
      | nil => exact hblank s hskip
      | cons c rest =>
          have hhead := List.head?_dropWhile_not blank s
          rw [hskip] at hhead
          have hrest := run_of_dropWhile (by simpa using hhead) rest
          have happend := List.takeWhile_append_dropWhile (p := (!blank ·)) (l := c :: rest)
          have hsplit := hskip.trans happend.symm
          have hlt := hrest.length_lt hsplit
          exact hrun s _ _ hsplit hrest (ih _ (hn ▸ hlt) _ rfl)

theorem mem_words_ne_nil (h : w ∈ words blank s) : w ≠ [] := by
  have hnonempty := (List.mem_filter.mp h).2
  simpa using hnonempty

theorem length_joined_splitOnP (blank : α → Bool) (d : α) (s : List α) :
    (joined [d] (s.splitOnP blank)).length = s.length + 1 := by
  induction s with
  | nil => rfl
  | cons c s ih =>
      rw [List.splitOnP_cons_eq_if_modifyHead]
      split
      · rw [joined_cons, List.length_append, ih]
        simp only [List.nil_append, List.length_cons, List.length_nil]
        omega
      · obtain ⟨w, pieces, hsplit⟩ := List.exists_cons_of_ne_nil (List.splitOnP_ne_nil blank s)
        rw [hsplit, joined_cons] at ih
        rw [hsplit, List.modifyHead_cons, joined_cons]
        simp only [List.length_append, List.length_cons] at ih ⊢
        omega

/-- With a character behind each, the words take no more room than the text with one behind it. -/
theorem length_joined_words_le (blank : α → Bool) (d : α) (s : List α) :
    (joined [d] (words blank s)).length ≤ s.length + 1 := by
  rw [← length_joined_splitOnP blank d s]
  exact (List.Sublist.flatMap List.filter_sublist _).length_le

theorem length_words_le (blank : α → Bool) (d : α) (s : List α) :
    2 * (words blank s).length ≤ (joined [d] (words blank s)).length := by
  have hne : ∀ w ∈ words blank s, w ≠ [] := fun w => mem_words_ne_nil
  generalize words blank s = ws at hne ⊢
  induction ws with
  | nil => exact Nat.zero_le _
  | cons w ws ih =>
      have hw := List.length_pos_of_ne_nil (hne w (List.mem_cons_self ..))
      have hws := ih fun v hv => hne v (List.mem_cons_of_mem w hv)
      rw [joined_cons]
      simp only [List.length_append, List.length_cons, List.length_nil]
      omega

end AcrnGuest.Words
