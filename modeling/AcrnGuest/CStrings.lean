import AcrnGuest.AllocPage
import AcrnGuest.Delimited
import AcrnGuest.Printf

/-!
# Strings in memory (`lib/string.c`)

`strlen`, `memcmp` and `strstr`, over the characters that can be read through a pointer. Pointers
and lengths are of any type that counts as the machine does: words of 64 bits, or numbers where
the addresses do not matter. Each function gets a specification in terms of the string that is
read from the pointer on. The reporting code calls them on a memory with numbers as addresses.
-/

namespace AcrnGuest

open Delimited

/-- Pointers and lengths, which do not wrap below `LOOP_BOUND`. -/
class Pointer (P : Type) [Add P] [Sub P] [LE P] where
  ofNat : Nat → P
  add_zero (p : P) : p + ofNat 0 = p
  add_add (p : P) (i j : Nat) : p + ofNat i + ofNat j = p + ofNat (i + j)
  ofNat_add (i j : Nat) : ofNat i + ofNat j = ofNat (i + j)
  ofNat_sub_one (i : Nat) : ofNat (i + 1) - ofNat 1 = ofNat i
  ofNat_le_iff {i j : Nat} (hi : i < LOOP_BOUND) (hj : j < LOOP_BOUND) : ofNat i ≤ ofNat j ↔ i ≤ j

instance : Pointer Nat where
  ofNat := id
  add_zero _ := rfl
  add_add := Nat.add_assoc
  ofNat_add _ _ := rfl
  ofNat_sub_one i := Nat.add_sub_cancel i 1
  ofNat_le_iff _ _ := Iff.rfl

instance : Pointer Word where
  ofNat := BitVec.ofNat 64
  add_zero := BitVec.add_zero
  add_add p i j := by rw [BitVec.add_assoc, ← BitVec.ofNat_add]
  ofNat_add i j := (BitVec.ofNat_add i j).symm
  ofNat_sub_one i := by rw [BitVec.ofNat_add, BitVec.add_sub_cancel]
  ofNat_le_iff hi hj := by
    unfold LOOP_BOUND at hi hj
    rw [BitVec.le_def, BitVec.toNat_ofNat, BitVec.toNat_ofNat, Nat.mod_eq_of_lt hi,
      Nat.mod_eq_of_lt hj]

/-- The characters that can be read. There is no result after the read of another one. -/
def View (P : Type) := P → Option (BitVec 8)

namespace View

open Pointer (ofNat)

variable {P : Type} [Add P] [Sub P] [LE P] [Pointer P]

/-! ### The source -/

/-- One pass of the loop of `strlen`, on `buf` and `len`. -/
def strlenStep (v : View P) : P × P → Option ((P × P) ⊕ P)
  | (buf, len) =>
      (v buf).map fun c => if c ≠ 0#8 then .inl (buf + ofNat 1, len + ofNat 1) else .inr len

/-- `strlen`; there is no result if no NUL is found. -/
def strlen (v : View P) (buf : P) : Option P :=
  (Loop.tryRun v.strlenStep LOOP_BOUND (buf, ofNat 0)).join

/-- One pass of the loop of `memcmp`, on `a`, `b` and `n`. When `n` is 0, the last `ret` was 0. -/
def memcmpStep [DecidableEq P] (v1 v2 : View P) : P × P × P → Option ((P × P × P) ⊕ Int)
  | (a, b, n) =>
      if n = ofNat 0 then some (.inr 0)
      else do
        let x ← v1 a
        let y ← v2 b
        let ret : Int := x.toNat - y.toNat
        if ret ≠ 0 then some (.inr ret) else some (.inl (a + ofNat 1, b + ofNat 1, n - ofNat 1))

def memcmp [DecidableEq P] (v1 v2 : View P) (s1 s2 n : P) : Option Int :=
  (Loop.tryRun (memcmpStep v1 v2) LOOP_BOUND (s1, s2, n)).join

/-- One pass of the loop of `strstr`, on `l1` and `s1`. -/
def strstrStep [DecidableEq P] [DecidableLE P] (v1 v2 : View P) (s2 l2 : P) :
    P × P → Option ((P × P) ⊕ Option P)
  | (l1, s1) =>
      if l2 ≤ l1 then do
        let l1 := l1 - ofNat 1
        let ret ← memcmp v1 v2 s1 s2 l2
        if ret = 0 then some (.inr (some s1)) else some (.inl (l1, s1 + ofNat 1))
      else some (.inr none)

/-- `strstr`, with the characters that can be read through `s1` and through `s2`. The inner `none`
is the null pointer. -/
def strstr [DecidableEq P] [DecidableLE P] (v1 v2 : View P) (s1 s2 : P) : Option (Option P) := do
  let l2 ← v2.strlen s2
  if l2 = ofNat 0 then some (some s1)
  else
    let l1 ← v1.strlen s1
    (Loop.tryRun (strstrStep v1 v2 s2 l2) LOOP_BOUND (l1, s1)).join

/-! ### Strings -/

/-- The string `s` at `p`: its characters and the terminator. -/
structure StringIn (v : View P) (p : P) (s : List (BitVec 8)) : Prop where
  nonzero : 0#8 ∉ s
  cells : ∀ i, i ≤ s.length → v (p + ofNat i) = some (s.getD i 0#8)

variable {v v1 v2 : View P} {p q : P} {c : BitVec 8} {s t : List (BitVec 8)} {n bound : Nat}

theorem StringIn.head (h : StringIn v p s) : v p = some (s.getD 0 0#8) := by
  have hcell := h.cells 0 (Nat.zero_le _)
  rwa [Pointer.add_zero] at hcell

theorem StringIn.tail (h : StringIn v p (c :: s)) : StringIn v (p + ofNat 1) s where
  nonzero hs := h.nonzero (List.mem_cons_of_mem c hs)
  cells i hi := by
    rw [Pointer.add_add, Nat.add_comm 1 i, h.cells (i + 1) (Nat.succ_le_succ hi),
      List.getD_cons_succ]

/-! ### The loops -/

theorem tryRun_strlenStep (h : StringIn v p s) (len : Nat) (hbound : s.length < bound) :
    Loop.tryRun v.strlenStep bound (p, ofNat len) = some (some (ofNat (len + s.length))) := by
  induction s generalizing p len bound with
  | nil =>
      obtain ⟨bound, rfl⟩ := Nat.exists_eq_succ_of_ne_zero (Nat.ne_of_gt hbound)
      have hstep : v.strlenStep (p, ofNat len) = some (.inr (ofNat len)) := by
        rw [strlenStep, h.head]
        rfl
      exact Loop.tryRun_done hstep bound
  | cons c s ih =>
      obtain ⟨bound, rfl⟩ := Nat.exists_eq_succ_of_ne_zero (Nat.ne_zero_of_lt hbound)
      have hc : c ≠ 0#8 := fun hzero => h.nonzero (hzero ▸ List.mem_cons_self)
      have hstep : v.strlenStep (p, ofNat len) =
          some (.inl (p + ofNat 1, ofNat (len + 1))) := by
        rw [strlenStep, h.head, Option.map_some, List.getD_cons_zero, if_pos hc, Pointer.ofNat_add]
      rw [Loop.tryRun_next hstep, ih h.tail (len + 1) (Nat.lt_of_succ_lt_succ hbound),
        List.length_cons, Nat.add_right_comm, Nat.add_assoc]

/-- The loop counts the characters up to the terminator. -/
theorem strlen_eq (h : StringIn v p s) (hs : s.length < LOOP_BOUND) :
    v.strlen p = some (ofNat s.length) := by
  rw [strlen, tryRun_strlenStep h 0 hs, Option.join_some, Nat.zero_add]

theorem ofNat_eq_zero_iff (hn : n < LOOP_BOUND) : (ofNat n : P) = ofNat 0 ↔ n = 0 := by
  have hzero : 0 < LOOP_BOUND := Nat.two_pow_pos 64
  constructor
  · intro heq
    have hle : (ofNat n : P) ≤ ofNat 0 := by
      rw [heq]
      exact (Pointer.ofNat_le_iff hzero hzero).mpr (Nat.le_refl 0)
    exact Nat.le_zero.mp ((Pointer.ofNat_le_iff hn hzero).mp hle)
  · rintro rfl
    rfl

variable [DecidableEq P]

/-- The comparison looks at no more than `n` characters of each side. -/
theorem tryRun_memcmpStep {x y : Nat → BitVec 8} (hn : n < LOOP_BOUND) (hbound : n < bound)
    (hx : ∀ i, i < n → v1 (p + ofNat i) = some (x i))
    (hy : ∀ i, i < n → v2 (q + ofNat i) = some (y i)) :
    ∃ ret, Loop.tryRun (memcmpStep v1 v2) bound (p, q, ofNat n) = some (some ret) ∧
      (ret = 0 ↔ ∀ i, i < n → x i = y i) := by
  induction n generalizing p q x y bound with
  | zero =>
      obtain ⟨bound, rfl⟩ := Nat.exists_eq_succ_of_ne_zero (Nat.ne_of_gt hbound)
      have hstep : memcmpStep v1 v2 (p, q, ofNat 0) = some (.inr 0) := if_pos rfl
      exact ⟨0, Loop.tryRun_done hstep bound,
        iff_of_true rfl fun i hi => absurd hi (Nat.not_lt_zero i)⟩
  | succ n ih =>
      obtain ⟨bound, rfl⟩ := Nat.exists_eq_succ_of_ne_zero (Nat.ne_zero_of_lt hbound)
      have hx0 := hx 0 (Nat.succ_pos n)
      have hy0 := hy 0 (Nat.succ_pos n)
      rw [Pointer.add_zero] at hx0 hy0
      have hstep : memcmpStep v1 v2 (p, q, ofNat (n + 1)) =
          if ((x 0).toNat : Int) - (y 0).toNat ≠ 0 then
            some (.inr (((x 0).toNat : Int) - (y 0).toNat))
          else some (.inl (p + ofNat 1, q + ofNat 1, ofNat n)) := by
        rw [memcmpStep, if_neg (mt (ofNat_eq_zero_iff hn).mp (Nat.succ_ne_zero n)), hx0, hy0,
          Pointer.ofNat_sub_one]
        rfl
      by_cases hchar : x 0 = y 0
      · rw [if_neg (not_not.mpr (by rw [hchar, Int.sub_self]))] at hstep
        obtain ⟨ret, hrun, hret⟩ := ih (Nat.lt_of_succ_lt hn) (Nat.lt_of_succ_lt_succ hbound)
          (fun i hi => (congrArg v1 (Pointer.add_add p 1 i)).trans (hx (1 + i) (by omega)))
          (fun i hi => (congrArg v2 (Pointer.add_add q 1 i)).trans (hy (1 + i) (by omega)))
        refine ⟨ret, (Loop.tryRun_next hstep bound).trans hrun, hret.trans ⟨fun hall i hi => ?_,
          fun hall i hi => hall (1 + i) (by omega)⟩⟩
        cases i with
        | zero => exact hchar
        | succ i => exact Nat.add_comm 1 i ▸ hall i (by omega)
      · have hne : ((x 0).toNat : Int) - (y 0).toNat ≠ 0 := by
          intro hzero
          exact hchar (BitVec.eq_of_toNat_eq (by omega))
        rw [if_pos hne] at hstep
        exact ⟨_, Loop.tryRun_done hstep bound,
          iff_of_false hne fun hall => hchar (hall 0 (Nat.succ_pos n))⟩

/-- Where the second string fits, the comparison asks whether it is a prefix. -/
theorem memcmp_prefix (hs : StringIn v1 p s) (ht : StringIn v2 q t) (hlt : t.length < LOOP_BOUND)
    (hfits : t.length ≤ s.length) :
    ∃ ret, memcmp v1 v2 p q (ofNat t.length) = some ret ∧ (ret = 0 ↔ t <+: s) := by
  obtain ⟨ret, hrun, hret⟩ := tryRun_memcmpStep hlt hlt
    (fun i hi => hs.cells i (by omega)) (fun i hi => ht.cells i (Nat.le_of_lt hi))
  exact ⟨ret, by rw [memcmp, hrun, Option.join_some],
    hret.trans (isPrefix_iff_getD 0#8 hfits).symm⟩

variable [DecidableLE P]

/-- The loop of `strstr` goes through the first string. -/
theorem tryRun_strstrStep (hs : StringIn v1 p s) (ht : StringIn v2 q t) (hnil : t ≠ [])
    (hlt : s.length < LOOP_BOUND) (hlt' : t.length < LOOP_BOUND) (hbound : s.length < bound) :
    Loop.tryRun (strstrStep v1 v2 q (ofNat t.length)) bound (ofNat s.length, p) =
      some (some ((findText t s).map fun i => p + ofNat i)) := by
  have hshort : ∀ (s : List (BitVec 8)) (p : P), s.length < t.length → s.length < LOOP_BOUND →
      strstrStep v1 v2 q (ofNat t.length) (ofNat s.length, p) =
        some (.inr ((findText t s).map fun i => p + ofNat i)) := by
    intro s p hlength hs
    rw [strstrStep, if_neg (mt (Pointer.ofNat_le_iff hlt' hs).mp (Nat.not_le_of_lt hlength)),
      findText_eq_none_of_length hlength]
    rfl
  induction s generalizing p bound with
  | nil =>
      obtain ⟨bound, rfl⟩ := Nat.exists_eq_succ_of_ne_zero (Nat.ne_of_gt hbound)
      exact Loop.tryRun_done (hshort [] p (List.length_pos_of_ne_nil hnil) hlt) bound
  | cons c s ih =>
      obtain ⟨bound, rfl⟩ := Nat.exists_eq_succ_of_ne_zero (Nat.ne_zero_of_lt hbound)
      by_cases hfits : t.length ≤ (c :: s).length
      · obtain ⟨ret, hcompare, hret⟩ := memcmp_prefix hs ht hlt' hfits
        have hstep : strstrStep v1 v2 q (ofNat t.length) (ofNat (c :: s).length, p) =
            if ret = 0 then some (.inr (some p))
            else some (.inl (ofNat s.length, p + ofNat 1)) := by
          rw [strstrStep, if_pos ((Pointer.ofNat_le_iff hlt' hlt).mpr hfits), hcompare,
            List.length_cons, Pointer.ofNat_sub_one]
          rfl
        rw [findText]
        by_cases hpre : t <+: c :: s
        · rw [if_pos (hret.mpr hpre)] at hstep
          rw [Loop.tryRun_done hstep, if_pos hpre, Option.map_some, Pointer.add_zero]
        · rw [if_neg (mt hret.mp hpre)] at hstep
          rw [Loop.tryRun_next hstep, if_neg hpre, Option.map_map,
            ih hs.tail (Nat.lt_of_succ_lt hlt) (Nat.lt_of_succ_lt_succ hbound)]
          congr 3
          funext i
          rw [Pointer.add_add, Nat.add_comm 1 i]
          rfl
      · exact Loop.tryRun_done (hshort (c :: s) p (Nat.lt_of_not_le hfits) hlt) bound

/-- **`strstr`** returns the first position. -/
theorem strstr_eq (hs : StringIn v1 p s) (ht : StringIn v2 q t) (hlt : s.length < LOOP_BOUND)
    (hlt' : t.length < LOOP_BOUND) :
    strstr v1 v2 p q = some ((findText t s).map fun i => p + ofNat i) := by
  rw [strstr, strlen_eq ht hlt', Option.bind_eq_bind, Option.bind_some]
  by_cases hnil : t = []
  · subst hnil
    rw [findText_eq_zero_iff.mpr List.nil_prefix, Option.map_some, Pointer.add_zero]
    exact if_pos rfl
  · have hne : (ofNat t.length : P) ≠ ofNat 0 :=
      mt (ofNat_eq_zero_iff hlt').mp (mt List.length_eq_zero_iff.mp hnil)
    rw [if_neg hne, strlen_eq hs hlt, Option.bind_some,
      tryRun_strstrStep hs ht hnil hlt hlt' hlt, Option.join_some]

/-- All of the memory can be read. -/
def ofMem (mem : Nat → BitVec 8) : View Nat := fun a => some (mem a)

end View

/-! ### Numbers as addresses -/

/-- `strlen` in a memory; there is no result if no NUL is found. -/
def strlen (mem : Nat → BitVec 8) (buf : Nat) : Option Nat := (View.ofMem mem).strlen buf

/-- `strstr` with a string literal; the inner `none` is the null pointer. -/
def strstr (mem : Nat → BitVec 8) (s1 : Nat) (s2 : CString) : Option (Option Nat) :=
  View.strstr (.ofMem mem) (.ofMem fun i => s2.chars.getD i 0#8) s1 0

/-- The memory holds the string `s` at `p`. -/
structure StringAt (mem : Nat → BitVec 8) (p : Nat) (s : List (BitVec 8)) : Prop where
  nonzero : 0#8 ∉ s
  chars : ∀ i, i < s.length → mem (p + i) = s.getD i 0#8
  nul : mem (p + s.length) = 0#8

variable {mem : Nat → BitVec 8} {p : Nat} {s t : List (BitVec 8)}

theorem StringAt.tail (h : StringAt mem p (s ++ t)) : StringAt mem (p + s.length) t where
  nonzero ht := h.nonzero (List.mem_append_right s ht)
  chars i hi := by
    have hchar := h.chars (s.length + i) (by rw [List.length_append]; omega)
    rw [List.getD_append_right _ _ _ _ (by omega), Nat.add_sub_cancel_left] at hchar
    rw [Nat.add_assoc, hchar]
  nul := by
    have hnul := h.nul
    rwa [List.length_append, ← Nat.add_assoc] at hnul

theorem StringAt.char_ne_zero (h : StringAt mem p s) {i : Nat} (hi : i < s.length) :
    mem (p + i) ≠ 0#8 := by
  rw [h.chars i hi, List.getD_eq_getElem s 0#8 hi]
  exact fun hzero => h.nonzero (hzero ▸ List.getElem_mem hi)

/-- The first character tells the empty string from the others. -/
theorem StringAt.eq_zero_iff (h : StringAt mem p s) : mem p = 0#8 ↔ s = [] := by
  constructor
  · intro hzero
    by_contra hs
    exact h.char_ne_zero (List.length_pos_of_ne_nil hs) hzero
  · rintro rfl
    exact h.nul

theorem StringAt.stringIn (h : StringAt mem p s) : View.StringIn (.ofMem mem) p s where
  nonzero := h.nonzero
  cells i hi := by
    rcases Nat.lt_or_eq_of_le hi with hi | rfl
    · exact congrArg some (h.chars i hi)
    · exact congrArg some (h.nul.trans (List.getD_eq_default s 0#8 (Nat.le_refl _)).symm)

theorem CString.stringIn (s : CString) :
    View.StringIn (.ofMem fun i => s.chars.getD i 0#8) 0 s.chars where
  nonzero := s.nul
  cells i _ := congrArg (fun i => some (s.chars.getD i 0#8)) (Nat.zero_add i)

theorem strlen_eq (h : StringAt mem p s) (hs : s.length < LOOP_BOUND) :
    strlen mem p = some s.length := View.strlen_eq h.stringIn hs

theorem strstr_eq (h : StringAt mem p s) (hs : s.length < LOOP_BOUND) (s2 : CString)
    (hs2 : s2.chars.length < LOOP_BOUND) :
    strstr mem p s2 = some ((findText s2.chars s).map (p + ·)) :=
  View.strstr_eq h.stringIn s2.stringIn hs hs2

end AcrnGuest
