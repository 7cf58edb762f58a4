import AcrnGuest.Getenv
import AcrnGuest.StringCopies

/-!
# Matching a pattern with stars (`lib/string.c`)

`simple_glob` knows a star at the beginning and a star at the end of a pattern. It works on a
copy of the pattern without them, and asks `strstr` or `strcmp`. The main result says which
question it answers: equality, prefix, suffix or occurrence.
-/

namespace AcrnGuest

open Delimited

/-! ### The source -/

def SIZE_MAX : Nat := 2 ^ 64 - 1

def strcmp (mem : Nat → BitVec 8) (a b : Nat) : Int := strncmp mem a b SIZE_MAX

/-- `strstr` with both strings in memory. -/
def strstrMem (mem : Nat → BitVec 8) (s1 s2 : Nat) : Option (Option Nat) :=
  View.strstr (.ofMem mem) (.ofMem mem) s1 s2

def STAR : BitVec 8 := 42#8

/-- The returns of `simple_glob`, with `n` characters in the copy. -/
def globReturn (mem : Nat → BitVec 8) (text copy n : Nat) (starStart starEnd : Bool) :
    Option Bool :=
  if starStart && starEnd then (strstrMem mem text copy).map (·.isSome)
  else if starEnd then (strstrMem mem text copy).map fun p => decide (p = some text)
  else if starStart then do
    let textLen ← strlen mem text
    if n > textLen then some false else some (strcmp mem (text + textLen - n) copy = 0)
  else some (strcmp mem text copy = 0)

/-- `simple_glob`, with the local array `copy` at an address of its own. -/
def simpleGlob (mem : Nat → BitVec 8) (text pattern copy : Nat) : Option Bool := do
  let n ← strlen mem pattern
  let starStart := decide (mem pattern = STAR)
  let (pattern, n) := if starStart then (pattern + 1, n - 1) else (pattern, n)
  let mem ← strcpy mem copy pattern
  let starEnd := decide (n > 0 ∧ mem (pattern + (n - 1)) = STAR)
  let (n, mem) := if starEnd then (n - 1, Function.update mem (copy + (n - 1)) 0#8) else (n, mem)
  globReturn mem text copy n starStart starEnd

/-! ### What a pattern means -/

/-- Whether there is a star at the beginning, and the pattern without it. -/
def stripStart : List (BitVec 8) → Bool × List (BitVec 8)
  | [] => (false, [])
  | c :: p => if c = STAR then (true, p) else (false, c :: p)

/-- Whether there is a star at the end, and the pattern without it. -/
def stripEnd (p : List (BitVec 8)) : Bool × List (BitVec 8) :=
  if p.getLast? = some STAR then (true, p.dropLast) else (false, p)

/-- How the literal part of a pattern has to stand in the text. -/
def literalMatches (starStart starEnd : Bool) (literal text : List (BitVec 8)) : Prop :=
  match starStart, starEnd with
  | false, false => literal = text
  | false, true => literal <+: text
  | true, false => literal <:+ text
  | true, true => literal <:+: text

def GlobMatches (pattern text : List (BitVec 8)) : Prop :=
  literalMatches (stripStart pattern).1 (stripEnd (stripStart pattern).2).1
    (stripEnd (stripStart pattern).2).2 text

instance : ∀ (starStart starEnd : Bool) (literal text : List (BitVec 8)),
    Decidable (literalMatches starStart starEnd literal text)
  | false, false, literal, text => inferInstanceAs (Decidable (literal = text))
  | false, true, literal, text => inferInstanceAs (Decidable (literal <+: text))
  | true, false, literal, text => inferInstanceAs (Decidable (literal <:+ text))
  | true, true, literal, text => inferInstanceAs (Decidable (literal <:+: text))

instance (pattern text : List (BitVec 8)) : Decidable (GlobMatches pattern text) :=
  inferInstanceAs (Decidable (literalMatches _ _ _ _))

/-! ### The string functions -/

section Strings

variable {mem : Nat → BitVec 8} {p q : Nat} {s t pat : List (BitVec 8)}

theorem StringAt.drop (h : StringAt mem p s) {k : Nat} (hk : k ≤ s.length) :
    StringAt mem (p + k) (s.drop k) := by
  have htail : StringAt mem (p + (s.take k).length) (s.drop k) := by
    apply StringAt.tail
    rw [List.take_append_drop]
    exact h
  rwa [List.length_take, Nat.min_eq_left hk] at htail

theorem StringAt.cutLast {c : BitVec 8} (h : StringAt mem p (s ++ [c])) :
    StringAt (Function.update mem (p + s.length) 0#8) p s where
  nonzero hs := h.nonzero (List.mem_append_left _ hs)
  chars i hi := by
    rw [Function.update_of_ne (by omega), h.chars i (by rw [List.length_append]; omega),
      List.getD_append _ _ _ _ hi]
  nul := Function.update_self _ _ _

theorem strncmp_eq_zero_iff_take (h : StringAt mem p s) (h' : StringAt mem q t) (n : Nat) :
    strncmp mem p q n = 0 ↔ s.take n = t.take n := by
  induction n generalizing p q s t with
  | zero => simp [strncmp]
  | succ n ih =>
      have hdiffer : mem p ≠ mem q → (mem p).toInt - (mem q).toInt ≠ 0 := fun hne hzero =>
        hne (BitVec.eq_of_toInt_eq (by omega))
      rw [strncmp]
      cases s with
      | nil =>
          have hp : mem p = 0#8 := h.nul
          rw [if_pos (Or.inr hp)]
          cases t with
          | nil => exact iff_of_true (by rw [hp, show mem q = 0#8 from h'.nul]; rfl) rfl
          | cons d t =>
              refine iff_of_false (hdiffer ?_) (by simp)
              rw [hp, h'.head]
              exact h'.head_ne_zero.symm
      | cons c s =>
          cases t with
          | nil =>
              have hne : mem p ≠ mem q := by
                rw [h.head, show mem q = 0#8 from h'.nul]
                exact h.head_ne_zero
              rw [if_pos (Or.inl hne)]
              exact iff_of_false (hdiffer hne) (by simp)
          | cons d t =>
              rw [List.take_succ_cons, List.take_succ_cons, List.cons.injEq]
              by_cases hcd : c = d
              · rw [if_neg, ih h.next h'.next]
                · exact (and_iff_right hcd).symm
                · rw [h.head, h'.head, hcd]
                  rintro (hne | hzero)
                  · exact hne rfl
                  · exact h'.head_ne_zero hzero
              · have hne : mem p ≠ mem q := by
                  rw [h.head, h'.head]
                  exact hcd
                rw [if_pos (Or.inl hne)]
                exact iff_of_false (hdiffer hne) fun heq => hcd heq.1

theorem strcmp_eq_zero_iff (h : StringAt mem p s) (h' : StringAt mem q t)
    (hs : s.length < LOOP_BOUND) (ht : t.length < LOOP_BOUND) : strcmp mem p q = 0 ↔ s = t := by
  unfold LOOP_BOUND at hs ht
  rw [strcmp, strncmp_eq_zero_iff_take h h', List.take_of_length_le, List.take_of_length_le]
  · unfold SIZE_MAX
    omega
  · unfold SIZE_MAX
    omega

theorem strstrMem_eq (h : StringAt mem p s) (h' : StringAt mem q pat) (hs : s.length < LOOP_BOUND)
    (hpat : pat.length < LOOP_BOUND) : strstrMem mem p q = some ((findText pat s).map (p + ·)) :=
  View.strstr_eq h.stringIn h'.stringIn hs hpat

end Strings

/-! ### The pattern -/

section Glob

variable {mem : Nat → BitVec 8} {text pattern copy : Nat} {t p literal : List (BitVec 8)}

/-- The text and the pattern in memory, and room for the copy apart from them. -/
structure GlobAt (mem : Nat → BitVec 8) (text pattern copy : Nat) (t p : List (BitVec 8)) :
    Prop where
  textAt : StringAt mem text t
  patternAt : StringAt mem pattern p
  textEnds : t.length < LOOP_BOUND
  patternEnds : p.length < LOOP_BOUND
  textApart : text + t.length < copy ∨ copy + p.length < text
  patternApart : pattern + p.length < copy ∨ copy + p.length < pattern

theorem GlobAt.tail {c : BitVec 8} (h : GlobAt mem text pattern copy t (c :: p)) :
    GlobAt mem text (pattern + 1) copy t p where
  textAt := h.textAt
  patternAt := h.patternAt.next
  textEnds := h.textEnds
  patternEnds := Nat.lt_of_succ_lt h.patternEnds
  textApart := by
    have hapart := h.textApart
    rw [List.length_cons] at hapart
    omega
  patternApart := by
    have hapart := h.patternApart
    rw [List.length_cons] at hapart
    omega

/-- The first character tells whether there is a star at the beginning. -/
theorem StringAt.star_iff (h : StringAt mem pattern p) :
    decide (mem pattern = STAR) = (stripStart p).1 := by
  cases p with
  | nil =>
      rw [show mem pattern = 0#8 from h.nul]
      rfl
  | cons c p =>
      rw [h.head, stripStart]
      by_cases hc : c = STAR
      · simp [hc]
      · simp [hc]

/-- The last character tells whether there is one at the end. -/
theorem StringAt.lastStar_iff (h : StringAt mem pattern p) :
    decide (p.length > 0 ∧ mem (pattern + (p.length - 1)) = STAR) = (stripEnd p).1 := by
  rw [stripEnd]
  rcases List.eq_nil_or_concat p with rfl | ⟨s, c, rfl⟩
  · rfl
  · have hlast : mem (pattern + s.length) = c := by
      rw [h.chars s.length (by simp), List.concat_eq_append,
        List.getD_append_right _ _ _ _ (Nat.le_refl _), Nat.sub_self]
      rfl
    rw [List.concat_eq_append, List.getLast?_append, List.length_append, List.length_singleton,
      Nat.add_sub_cancel, hlast]
    by_cases hc : c = STAR
    · simp [hc]
    · simp [hc]

/-- **The returns.** Each mode asks how the literal stands in the text. -/
theorem globReturn_iff (htext : StringAt mem text t) (hcopy : StringAt mem copy literal)
    (ht : t.length < LOOP_BOUND) (hliteral : literal.length < LOOP_BOUND)
    (starStart starEnd : Bool) :
    ∃ b, globReturn mem text copy literal.length starStart starEnd = some b ∧
      (b = true ↔ literalMatches starStart starEnd literal t) := by
  have hsearch := strstrMem_eq htext hcopy ht hliteral
  cases starStart with
  | false =>
      cases starEnd with
      | false =>
          refine ⟨_, rfl, ?_⟩
          rw [decide_eq_true_iff, strcmp_eq_zero_iff htext hcopy ht hliteral]
          exact eq_comm
      | true =>
          refine ⟨_, by rw [globReturn, hsearch]; rfl, ?_⟩
          rw [decide_eq_true_iff, literalMatches, ← findText_eq_zero_iff, Option.map_eq_some_iff]
          constructor
          · rintro ⟨i, hi, hzero⟩
            rwa [show i = 0 by omega] at hi
          · intro hzero
            exact ⟨0, hzero, rfl⟩
  | true =>
      cases starEnd with
      | false =>
          have hcall : globReturn mem text copy literal.length true false =
              if literal.length > t.length then some false
              else some (strcmp mem (text + t.length - literal.length) copy = 0) := by
            rw [globReturn, strlen_eq htext ht]
            rfl
          rw [hcall, literalMatches]
          split
          · next hlong =>
              exact ⟨false, rfl, by simp, fun hsuffix => absurd hsuffix.length_le (by omega)⟩
          · next hshort =>
              have hdrop := htext.drop (k := t.length - literal.length) (by omega)
              rw [← Nat.add_sub_assoc (by omega)] at hdrop
              refine ⟨_, rfl, ?_⟩
              rw [decide_eq_true_iff,
                strcmp_eq_zero_iff hdrop hcopy (by rw [List.length_drop]; omega) hliteral,
                List.suffix_iff_eq_drop]
              exact eq_comm
      | true =>
          refine ⟨_, by rw [globReturn, hsearch]; rfl, ?_⟩
          change ((findText literal t).map (text + ·)).isSome = true ↔ literal <:+: t
          rw [Option.isSome_map, findText_isSome_iff]

/-- From the copy of the pattern on. -/
theorem globEnd_iff (h : GlobAt mem text pattern copy t p) (starStart : Bool) :
    ∃ b, ((strcpy mem copy pattern).bind fun mem =>
        let starEnd := decide (p.length > 0 ∧ mem (pattern + (p.length - 1)) = STAR)
        let (n, mem) :=
          if starEnd then (p.length - 1, Function.update mem (copy + (p.length - 1)) 0#8)
            else (p.length, mem)
        globReturn mem text copy n starStart starEnd) = some b ∧
      (b = true ↔ literalMatches starStart (stripEnd p).1 (stripEnd p).2 t) := by
  have htextApart := h.textApart
  have hpatternApart := h.patternApart
  have hkept : ∀ {a : Nat} {s : List (BitVec 8)}, StringAt mem a s → a + s.length < copy ∨
      copy + p.length < a →
      StringAt (writeText mem copy (p ++ [0#8])) a s := fun hs hapart =>
    hs.congr fun i hlow hhigh => writeText_of_outside
      (by rw [List.length_append, List.length_singleton]; omega)
  have hcopy := stringAt_writeText mem copy h.patternAt.nonzero
  rw [strcpy_eq h.patternAt h.patternEnds (by omega), Option.bind_some]
  dsimp only
  rw [(hkept h.patternAt hpatternApart).lastStar_iff]
  have htext := hkept h.textAt htextApart
  generalize writeText mem copy (p ++ [0#8]) = mem' at hcopy htext ⊢
  unfold stripEnd
  by_cases hstar : p.getLast? = some STAR
  · -- a NUL on the star in the copy
    obtain ⟨s, hs⟩ := List.getLast?_eq_some_iff.mp hstar
    have hlength : p.length = s.length + 1 := by rw [hs, List.length_append, List.length_singleton]
    rw [hs] at hcopy
    simp only [hstar, if_true, hlength, Nat.add_sub_cancel]
    rw [hs, List.dropLast_concat]
    have hends := h.patternEnds
    exact globReturn_iff (htext.update (by omega) 0#8) hcopy.cutLast h.textEnds
      (by omega) starStart true
  · simp only [hstar, if_false]
    exact globReturn_iff htext hcopy h.textEnds h.patternEnds starStart false

/-- **`simple_glob`** matches a text exactly if the pattern without its stars stands in it as they
say. -/
theorem simpleGlob_iff (h : GlobAt mem text pattern copy t p) :
    ∃ b, simpleGlob mem text pattern copy = some b ∧ (b = true ↔ GlobMatches p t) := by
  have hstar := h.patternAt.star_iff
  unfold simpleGlob GlobMatches
  rw [strlen_eq h.patternAt h.patternEnds, Option.bind_eq_bind, Option.bind_some]
  dsimp only
  rw [hstar]
  cases p with
  | nil => exact globEnd_iff h false
  | cons c p =>
      unfold stripStart
      by_cases hc : c = STAR
      · simp only [hc, if_true, List.length_cons, Nat.add_sub_cancel]
        exact globEnd_iff h.tail true
      · simp only [hc, if_false]
        exact globEnd_iff h false

/-- The pattern `*b*` at `0x2000` and the text `abc` at `0x1000`. -/
def globMem : Nat → BitVec 8 :=
  writeText (writeText (fun _ => 0#8) 0x1000 [ch 'a', ch 'b', ch 'c', 0#8]) 0x2000
    [STAR, ch 'b', STAR, 0#8]

theorem simpleGlob_of_occurrence :
    ∃ b, simpleGlob globMem 0x1000 0x2000 0x3000 = some b ∧
      (b = true ↔ GlobMatches [STAR, ch 'b', STAR] [ch 'a', ch 'b', ch 'c']) ∧ b = true := by
  have hpattern : StringAt globMem 0x2000 [STAR, ch 'b', STAR] :=
    stringAt_writeText _ 0x2000 (s := [STAR, ch 'b', STAR]) (by decide)
  have htext : StringAt globMem 0x1000 [ch 'a', ch 'b', ch 'c'] :=
    (stringAt_writeText (fun _ => 0#8) 0x1000 (s := [ch 'a', ch 'b', ch 'c']) (by decide)).congr
      fun i _ hi =>
      writeText_of_outside (Or.inl (Nat.lt_of_le_of_lt hi (by decide)))
  have hat : GlobAt globMem 0x1000 0x2000 0x3000 [ch 'a', ch 'b', ch 'c'] [STAR, ch 'b', STAR] :=
    ⟨htext, hpattern, by decide, by decide, Or.inl (by decide), Or.inl (by decide)⟩
  obtain ⟨b, hcall, hb⟩ := simpleGlob_iff hat
  exact ⟨b, hcall, hb, hb.mpr (by decide)⟩

end Glob

end AcrnGuest
