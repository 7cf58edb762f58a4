import Mathlib.Data.List.Basic
import Mathlib.Tactic.Common

/-!
# Texts in a buffer

A buffer is a list of cells with indices as pointers. `Holds` says which text stands at an
index, `scan` is a loop that moves a pointer over the cells with a property, and `Lines`
says that a range of the buffer is a sequence of pieces with a separator between them. The
pieces of a text are those of `List.splitOn`.
-/

namespace AcrnGuest.TextBuffer

variable {α : Type*}

/-! ### What stands in the buffer -/

def Holds (buf : List α) (i : Nat) (s : List α) : Prop := ∀ k, k < s.length → buf[i + k]? = s[k]?

section Holds

variable {buf : List α} {i k : Nat} {s t : List α} {c : α}

@[simp] theorem holds_nil : Holds buf i [] := by
  intro k hk
  exact absurd hk (Nat.not_lt_zero k)

theorem holds_append : Holds buf i (s ++ t) ↔ Holds buf i s ∧ Holds buf (i + s.length) t := by
  constructor
  · intro h
    constructor
    · intro k hk
      rw [h k (by rw [List.length_append]; omega), List.getElem?_append_left hk]
    · intro k hk
      rw [Nat.add_assoc, h (s.length + k) (by rw [List.length_append]; omega),
        List.getElem?_append_right (by omega), Nat.add_sub_cancel_left]
  · rintro ⟨hs, ht⟩ k hk
    by_cases hlt : k < s.length
    · rw [hs k hlt, List.getElem?_append_left hlt]
    · rw [List.length_append] at hk
      have hrest := ht (k - s.length) (by omega)
      rw [Nat.add_assoc, Nat.add_sub_cancel' (by omega)] at hrest
      rw [hrest, List.getElem?_append_right (by omega)]

theorem holds_singleton : Holds buf i [c] ↔ buf[i]? = some c := by
  constructor
  · intro h
    exact h 0 (by simp)
  · intro h k hk
    obtain rfl : k = 0 := by simpa using hk
    exact h

theorem holds_cons : Holds buf i (c :: s) ↔ buf[i]? = some c ∧ Holds buf (i + 1) s := by
  rw [← List.singleton_append, holds_append, holds_singleton]
  rfl

theorem Holds.set (h : Holds buf i s) (hk : k < i ∨ i + s.length ≤ k) :
    Holds (buf.set k c) i s := by
  intro j hj
  rw [List.getElem?_set_ne (by omega)]
  exact h j hj

theorem Holds.take_drop (h : Holds buf i s) : (buf.drop i).take s.length = s := by
  apply List.ext_getElem?
  intro k
  rw [List.getElem?_take, List.getElem?_drop]
  split
  · next hk => exact h k hk
  · next hk => exact (List.getElem?_eq_none (Nat.le_of_not_lt hk)).symm

theorem holds_of_append (pre rest : List α) (s : List α) :
    Holds (pre ++ (s ++ rest)) pre.length s := by
  intro k hk
  rw [List.getElem?_append_right (Nat.le_add_right ..), Nat.add_sub_cancel_left,
    List.getElem?_append_left hk]

end Holds

/-! ### Moving a pointer -/

/-- Move on from index `i` over the cells with `p`, over `n` cells at most. There is no result
outside the buffer. -/
def scan (p : α → Bool) (buf : List α) : Nat → Nat → Option Nat
  | 0, i => some i
  | n + 1, i =>
      match buf[i]? with
      | none => none
      | some c => if p c then scan p buf n (i + 1) else some i

/-- Move on without a limit. The pointer stops in the buffer, or leaves it after its last cell. -/
def skip (p : α → Bool) (buf : List α) (i : Nat) : Option Nat := scan p buf (buf.length + 1 - i) i

section Scan

variable {p : α → Bool} {buf : List α} {n i j : Nat} {s : List α} {c : α}

theorem le_of_scan (h : scan p buf n i = some j) : i ≤ j := by
  induction n generalizing i with
  | zero =>
      rw [scan] at h
      exact Nat.le_of_eq (Option.some.inj h)
  | succ n ih =>
      rw [scan] at h
      split at h
      · cases h
      · split at h
        · exact Nat.le_of_succ_le (ih h)
        · exact Nat.le_of_eq (Option.some.inj h)

/-- The pointer passes over a text and stops behind it at a cell without `p`. -/
theorem scan_stop (h : Holds buf i s) (hs : ∀ x ∈ s, p x = true)
    (hend : buf[i + s.length]? = some c) (hc : p c = false) (hn : s.length < n) :
    scan p buf n i = some (i + s.length) := by
  induction s generalizing i n with
  | nil =>
      obtain ⟨n, rfl⟩ := Nat.exists_eq_add_one_of_ne_zero (Nat.ne_of_gt hn)
      have hcell : buf[i]? = some c := hend
      simp [scan, hcell, hc]
  | cons x s ih =>
      obtain ⟨n, rfl⟩ := Nat.exists_eq_add_one_of_ne_zero (Nat.ne_of_gt (Nat.zero_lt_of_lt hn))
      obtain ⟨hx, hrest⟩ := holds_cons.mp h
      have hstep : scan p buf (n + 1) i = scan p buf n (i + 1) := by
        simp [scan, hx, hs x (List.mem_cons_self ..)]
      have hsum : i + (x :: s).length = i + 1 + s.length := by
        rw [List.length_cons]
        omega
      rw [hsum] at hend ⊢
      rw [hstep]
      exact ih hrest (fun y hy => hs y (List.mem_cons_of_mem x hy)) hend (Nat.lt_of_succ_lt_succ hn)

/-- The pointer passes over a text up to the limit. -/
theorem scan_all (h : Holds buf i s) (hs : ∀ x ∈ s, p x = true) :
    scan p buf s.length i = some (i + s.length) := by
  induction s generalizing i with
  | nil => rfl
  | cons x s ih =>
      obtain ⟨hx, hrest⟩ := holds_cons.mp h
      have hstep : scan p buf (s.length + 1) i = scan p buf s.length (i + 1) := by
        simp [scan, hx, hs x (List.mem_cons_self ..)]
      rw [List.length_cons, hstep, ih hrest fun y hy => hs y (List.mem_cons_of_mem x hy)]
      congr 1
      omega

theorem skip_stop (h : Holds buf i s) (hs : ∀ x ∈ s, p x = true)
    (hend : buf[i + s.length]? = some c) (hc : p c = false) :
    skip p buf i = some (i + s.length) := by
  obtain ⟨hlt, -⟩ := List.getElem?_eq_some_iff.mp hend
  exact scan_stop h hs hend hc (by omega)

/-- The pointer leaves a buffer in which all cells have `p`. -/
theorem skip_eq_none (hall : ∀ x ∈ buf, p x = true) (hi : i ≤ buf.length) :
    skip p buf i = none := by
  have hscan : ∀ n i, i + n = buf.length + 1 → i ≤ buf.length → scan p buf n i = none := by
    intro n
    induction n with
    | zero =>
        intro i hn hi
        omega
    | succ n ih =>
        intro i hn hi
        rw [scan]
        cases hcell : buf[i]? with
        | none => rfl
        | some c =>
            obtain ⟨hlt, heq⟩ := List.getElem?_eq_some_iff.mp hcell
            have hc : p c = true := hall c (heq ▸ List.getElem_mem hlt)
            simp only [hc, if_true]
            exact ih (i + 1) (by omega) hlt
  exact hscan _ _ (by omega) hi

end Scan

/-! ### Pieces with a separator -/

/-- From index `p` to `eof` the buffer holds the pieces, with `sep` behind each but the last one. No
pieces are left behind `eof`. -/
inductive Lines (buf : List α) (sep : α) (eof : Nat) : Nat → List (List α) → Prop
  | past {p : Nat} (hpast : eof < p) : Lines buf sep eof p []
  | last {p : Nat} {s : List α} (hs : Holds buf p s) (hsep : sep ∉ s) (hend : p + s.length = eof) :
      Lines buf sep eof p [s]
  | cons {p : Nat} {s : List α} {more : List (List α)} (hs : Holds buf p s) (hsep : sep ∉ s)
      (hcell : buf[p + s.length]? = some sep) (hlt : p + s.length < eof)
      (hmore : Lines buf sep eof (p + s.length + 1) more) : Lines buf sep eof p (s :: more)

def numbered : Nat → List (List α) → List (Nat × List α)
  | _, [] => []
  | p, s :: more => (p, s) :: numbered (p + s.length + 1) more

section Lines

variable {buf : List α} {sep : α} {eof p k : Nat} {pieces : List (List α)}

theorem Lines.set (h : Lines buf sep eof p pieces) (hk : k < p) (c : α) :
    Lines (buf.set k c) sep eof p pieces := by
  induction h with
  | past hpast => exact .past hpast
  | last hs hsep hend => exact .last (hs.set (Or.inl hk)) hsep hend
  | cons hs hsep hcell hlt _ ih =>
      refine .cons (hs.set (Or.inl hk)) hsep ?_ hlt (ih (by omega))
      rw [List.getElem?_set_ne (by omega)]
      exact hcell

theorem Lines.length_le (h : Lines buf sep eof p pieces) : pieces.length ≤ eof + 1 - p := by
  induction h with
  | past _ => exact Nat.zero_le _
  | last _ _ hend =>
      rw [List.length_singleton]
      omega
  | cons _ _ _ hlt _ ih =>
      rw [List.length_cons]
      omega

theorem Lines.ne_nil (h : Lines buf sep eof p pieces) (hp : p ≤ eof) : pieces ≠ [] := by
  cases h with
  | past hpast => omega
  | last _ _ _ => exact List.cons_ne_nil _ _
  | cons _ _ _ _ _ => exact List.cons_ne_nil _ _

theorem Lines.holds_head {s : List α} {more : List (List α)} (h : Lines buf sep eof p (s :: more)) :
    Holds buf p s := by
  cases h with
  | last hs _ _ => exact hs
  | cons hs _ _ _ _ => exact hs

variable [DecidableEq α]

/-- A text in the buffer is the sequence of its pieces. -/
theorem lines_splitOn (sep : α) {text : List α} (h : Holds buf p text) :
    Lines buf sep (p + text.length) p (text.splitOn sep) := by
  induction hlength : text.length using Nat.strongRecOn generalizing text p with
  | ind n ih =>
      by_cases hmem : sep ∈ text
      · obtain ⟨s, rest, rfl, hs⟩ := List.eq_append_cons_of_mem hmem
        obtain ⟨hfirst, hrest⟩ := holds_append.mp h
        obtain ⟨hcell, hmore⟩ := holds_cons.mp hrest
        rw [List.splitOn_append_cons_self_of_not_mem hs]
        have hlt : rest.length < n := by
          rw [List.length_append, List.length_cons] at hlength
          omega
        have htail := ih rest.length hlt hmore rfl
        have hend : p + s.length + 1 + rest.length = p + n := by
          rw [List.length_append, List.length_cons] at hlength
          omega
        rw [hend] at htail
        exact .cons hfirst hs hcell (by omega) htail
      · rw [List.splitOn_eq_singleton hmem]
        exact .last h hmem (by omega)

theorem mem_splitOn {text piece : List α} {c : α} (hpiece : piece ∈ text.splitOn sep)
    (hc : c ∈ piece) :
    c ∈ text ∧ c ≠ sep := by
  induction hlength : text.length using Nat.strongRecOn generalizing text with
  | ind n ih =>
      by_cases hmem : sep ∈ text
      · obtain ⟨s, rest, rfl, hs⟩ := List.eq_append_cons_of_mem hmem
        rw [List.splitOn_append_cons_self_of_not_mem hs] at hpiece
        rcases List.mem_cons.mp hpiece with rfl | hrest
        · exact ⟨List.mem_append_left _ hc, ne_of_mem_of_not_mem hc hs⟩
        · have hlt : rest.length < n := by
            rw [List.length_append, List.length_cons] at hlength
            omega
          obtain ⟨hin, hne⟩ := ih rest.length hlt hrest rfl
          exact ⟨List.mem_append_right _ (List.mem_cons_of_mem _ hin), hne⟩
      · rw [List.splitOn_eq_singleton hmem, List.mem_singleton] at hpiece
        subst hpiece
        exact ⟨hc, ne_of_mem_of_not_mem hc hmem⟩

end Lines

end AcrnGuest.TextBuffer
