import AcrnGuest.ByteCopy
import AcrnGuest.CStrings

/-!
# Copying strings and memory (`lib/string.c`)

`strcat` and `strcpy` copy a string upwards, character by character and with its NUL. They
are right as long as the destination does not begin inside of the source. `memmove` chooses
its direction by the addresses, so that no byte is overwritten before it is read, however
the two ranges overlap.
-/

namespace AcrnGuest

open ByteCopy

/-! ### The source -/

/-- The first loop of `strcat`, to the end of the string at `dest`. -/
def strcatEnd (mem : Nat → BitVec 8) (dest : Nat) : Option Nat :=
  Loop.run (fun p => if mem p ≠ 0#8 then .inl (p + 1) else .inr p) LOOP_BOUND dest

/-- The memory and the pointers of the second loop. -/
structure StrcatState where
  mem : Nat → BitVec 8
  p : Nat
  src : Nat

/-- `(*p++ = *src++) != 0`. -/
def strcatStep (s : StrcatState) : StrcatState ⊕ (Nat → BitVec 8) :=
  let mem := Function.update s.mem s.p (s.mem s.src)
  if s.mem s.src ≠ 0#8 then .inl ⟨mem, s.p + 1, s.src + 1⟩ else .inr mem

def strcat (mem : Nat → BitVec 8) (dest src : Nat) : Option (Nat → BitVec 8) :=
  (strcatEnd mem dest).bind fun p => Loop.run strcatStep LOOP_BOUND ⟨mem, p, src⟩

def strcpy (mem : Nat → BitVec 8) (dest src : Nat) : Option (Nat → BitVec 8) :=
  strcat (Function.update mem dest 0#8) dest src

section Memmove

variable {w : Nat}

/-- `while (n--) *d++ = *s++`. -/
def memmoveUp (mem : BitVec w → BitVec 8) (d s : BitVec w) : Nat → BitVec w → BitVec 8
  | 0 => mem
  | n + 1 => memmoveUp (Function.update mem d (mem s)) (d + 1#w) (s + 1#w) n

/-- `while (n--) *--d = *--s`. -/
def memmoveDown (mem : BitVec w → BitVec 8) (d s : BitVec w) : Nat → BitVec w → BitVec 8
  | 0 => mem
  | n + 1 => memmoveDown (Function.update mem (d - 1#w) (mem (s - 1#w))) (d - 1#w) (s - 1#w) n

/-- `memmove`, with addresses and sizes of `w` bits: the returned pointer and the memory. -/
def memmove (mem : BitVec w → BitVec 8) (dest src n : BitVec w) :
    BitVec w × (BitVec w → BitVec 8) :=
  if dest ≤ src then (dest, memmoveUp mem dest src n.toNat)
  else (dest, memmoveDown mem (dest + n) (src + n) n.toNat)

end Memmove

/-! ### Strings -/

section Strings

variable {mem : Nat → BitVec 8} {p dest src i bound : Nat} {s t : List (BitVec 8)} {c : BitVec 8}

def writeText (mem : Nat → BitVec 8) (p : Nat) (s : List (BitVec 8)) (i : Nat) : BitVec 8 :=
  if p ≤ i ∧ i < p + s.length then s.getD (i - p) 0#8 else mem i

theorem writeText_of_outside (hi : i < p ∨ p + s.length ≤ i) : writeText mem p s i = mem i :=
  if_neg (by omega)

theorem writeText_add (hi : i < s.length) : writeText mem p s (p + i) = s.getD i 0#8 := by
  rw [writeText, if_pos (by omega), Nat.add_sub_cancel_left]

theorem writeText_cons : writeText (Function.update mem p c) (p + 1) s =
    writeText mem p (c :: s) := by
  funext i
  unfold writeText
  rw [List.length_cons]
  rcases Nat.lt_trichotomy i p with hlt | rfl | hgt
  · rw [if_neg (by omega), if_neg (by omega), Function.update_of_ne (by omega)]
  · rw [if_neg (by omega), if_pos (by omega), Function.update_self, Nat.sub_self,
      List.getD_cons_zero]
  · have hnext : i - p = i - (p + 1) + 1 := by omega
    rw [Function.update_of_ne (by omega), hnext, List.getD_cons_succ]
    exact if_congr (by omega) rfl rfl

theorem writeText_update (hs : s ≠ []) :
    writeText (Function.update mem p c) p s = writeText mem p s := by
  have hpos := List.length_pos_of_ne_nil hs
  funext i
  unfold writeText
  by_cases hi : i = p
  · rw [if_pos (by omega), if_pos (by omega)]
  · rw [Function.update_of_ne hi]

theorem stringAt_writeText (mem : Nat → BitVec 8) (p : Nat) (hs : 0#8 ∉ s) :
    StringAt (writeText mem p (s ++ [0#8])) p s where
  nonzero := hs
  chars i hi := by
    rw [writeText_add (by rw [List.length_append]; omega), List.getD_append _ _ _ _ hi]
  nul := by
    rw [writeText_add (by rw [List.length_append]; exact Nat.lt_succ_self _),
      List.getD_append_right _ _ _ _ (Nat.le_refl _), Nat.sub_self]
    rfl

/-- A memory holds one string at an address. -/
theorem StringAt.eq (h : StringAt mem p s) (h' : StringAt mem p t) : s = t := by
  induction s generalizing p t with
  | nil => exact (h'.eq_zero_iff.mp h.nul).symm
  | cons c s ih =>
      cases t with
      | nil => exact absurd (h.eq_zero_iff.mp h'.nul) (List.cons_ne_nil c s)
      | cons d t =>
          have hc : mem p = c := h.chars 0 (Nat.succ_pos _)
          have hd : mem p = d := h'.chars 0 (Nat.succ_pos _)
          rw [← hc, ← hd, ih (h.tail (s := [c])) (h'.tail (s := [d]))]

theorem StringAt.congr {mem' : Nat → BitVec 8} (h : StringAt mem p s)
    (hsame : ∀ i, p ≤ i → i ≤ p + s.length → mem' i = mem i) : StringAt mem' p s where
  nonzero := h.nonzero
  chars i hi := by
    rw [hsame (p + i) (by omega) (by omega)]
    exact h.chars i hi
  nul := by
    rw [hsame _ (by omega) (by omega)]
    exact h.nul

theorem StringAt.update (h : StringAt mem p s) (hi : i < p ∨ p + s.length < i) (c : BitVec 8) :
    StringAt (Function.update mem i c) p s :=
  h.congr fun j hlow hhigh => Function.update_of_ne (by omega) _ _

/-- The copying loop, if the destination does not begin inside of the source. -/
theorem run_strcatStep (h : StringAt mem src s) (hapart : p ≤ src ∨ src + s.length < p)
    (hs : s.length < bound) :
    Loop.run strcatStep bound ⟨mem, p, src⟩ = some (writeText mem p (s ++ [0#8])) := by
  induction s generalizing mem p src bound with
  | nil =>
      obtain ⟨bound, rfl⟩ := Nat.exists_eq_add_one_of_ne_zero (Nat.ne_of_gt hs)
      have hnul : mem src = 0#8 := h.nul
      have hstep : strcatStep ⟨mem, p, src⟩ = .inr (Function.update mem p 0#8) := by
        simp only [strcatStep, hnul, ne_eq, not_true, if_false]
      rw [Loop.run_succ_inr hstep, List.nil_append, ← writeText_cons]
      congr 1
      funext i
      exact (writeText_of_outside (by rw [List.length_nil]; omega)).symm
  | cons c s ih =>
      obtain ⟨bound, rfl⟩ := Nat.exists_eq_add_one_of_ne_zero (Nat.ne_of_gt (Nat.zero_lt_of_lt hs))
      rw [List.length_cons] at hapart hs
      have hfirst : mem src = c := h.chars 0 (Nat.succ_pos _)
      have hne : c ≠ 0#8 := fun hzero => h.nonzero (hzero ▸ List.mem_cons_self ..)
      have hstep : strcatStep ⟨mem, p, src⟩ = .inl ⟨Function.update mem p c, p + 1, src + 1⟩ := by
        simp only [strcatStep, hfirst, ne_eq, hne, not_false_eq_true, if_true]
      have htail : StringAt mem (src + 1) s := h.tail (s := [c])
      rw [Loop.run_succ_inl hstep, ih (htail.update (by omega) c) (by omega) (by omega),
        writeText_cons]
      rfl

/-- **`strcpy`** of a string that does not contain the destination. -/
theorem strcpy_eq (h : StringAt mem src s) (hs : s.length < LOOP_BOUND)
    (hapart : dest < src ∨ src + s.length < dest) :
    strcpy mem dest src = some (writeText mem dest (s ++ [0#8])) := by
  have hend : strcatEnd (Function.update mem dest 0#8) dest = some dest := by
    unfold strcatEnd
    obtain ⟨bound, hbound⟩ := Nat.exists_eq_add_one_of_ne_zero (by decide : LOOP_BOUND ≠ 0)
    rw [hbound]
    apply Loop.run_succ_inr
    rw [Function.update_self]
    rfl
  rw [strcpy, strcat, hend, Option.bind_some, run_strcatStep (h.update hapart 0#8) (by omega) hs,
    writeText_update (by simp)]

end Strings

/-! ### Overlapping ranges -/

section Memmove

variable {w : Nat} {mem : BitVec w → BitVec 8} {d s dest src n : BitVec w} {k : Nat}

theorem memmoveUp_eq (mem : BitVec w → BitVec 8) (d s : BitVec w) (n : Nat) :
    memmoveUp mem d s n = copyCells (fun k => s + BitVec.ofNat w k)
      (fun k => d + BitVec.ofNat w k) n mem := by
  induction n generalizing mem d s with
  | zero => rfl
  | succ n ih =>
      have hnext : ∀ (a : BitVec w) (k : Nat),
          a + BitVec.ofNat w (k + 1) = a + 1#w + BitVec.ofNat w k := by
        intro a k
        rw [Nat.add_comm k 1, BitVec.ofNat_add, BitVec.add_assoc]
      rw [memmoveUp, ih, copyCells_succ', BitVec.add_zero, BitVec.add_zero]
      exact copyCells_congr (fun k _ => (hnext s k).symm) fun k _ => (hnext d k).symm

theorem memmoveDown_eq (mem : BitVec w → BitVec 8) (d s : BitVec w) (n : Nat) :
    memmoveDown mem d s n =
      copyCells (fun k => s - BitVec.ofNat w (k + 1))
        (fun k => d - BitVec.ofNat w (k + 1)) n mem := by
  induction n generalizing mem d s with
  | zero => rfl
  | succ n ih =>
      have hnext : ∀ (a : BitVec w) (k : Nat),
          a - BitVec.ofNat w (k + 1 + 1) = a - 1#w - BitVec.ofNat w (k + 1) := by
        intro a k
        rw [Nat.add_comm (k + 1) 1, BitVec.ofNat_add, BitVec.sub_sub]
      rw [memmoveDown, ih, copyCells_succ']
      exact copyCells_congr (fun k _ => (hnext s k).symm) fun k _ => (hnext d k).symm

theorem toNat_add_ofNat (hend : d.toNat + n.toNat ≤ 2 ^ w) (hk : k < n.toNat) :
    (d + BitVec.ofNat w k).toNat = d.toNat + k := by
  have hn := n.isLt
  rw [BitVec.toNat_add, BitVec.toNat_ofNat, Nat.mod_eq_of_lt (by omega : k < 2 ^ w),
    Nat.mod_eq_of_lt (by omega)]

theorem add_sub_ofNat (hk : k < n.toNat) :
    d + n - BitVec.ofNat w (k + 1) = d + BitVec.ofNat w (n.toNat - 1 - k) := by
  have hn : n = BitVec.ofNat w (n.toNat - 1 - k) + BitVec.ofNat w (k + 1) := by
    rw [← BitVec.ofNat_add, show n.toNat - 1 - k + (k + 1) =
      n.toNat by omega, BitVec.ofNat_toNat, BitVec.setWidth_eq]
  conv_lhs => rw [hn]
  rw [← BitVec.add_assoc, BitVec.add_sub_cancel]

/-- A range is copied in an order that is its own inverse. If no byte is overwritten before it is
read, the destination gets the range, and nothing else changes. -/
theorem copyCells_range (order : Nat → Nat) (hdest : dest.toNat + n.toNat ≤ 2 ^ w)
    (hsrc : src.toNat + n.toNat ≤ 2 ^ w) (hlt : ∀ k, k < n.toNat → order k < n.toNat)
    (hinv : ∀ k, k < n.toNat → order (order k) = k)
    (hread : ∀ j k, j < k → k < n.toNat → src.toNat + order k ≠ dest.toNat + order j)
    {mem' : BitVec w → BitVec 8}
    (hmem' : mem' = copyCells (fun k => src + BitVec.ofNat w (order k))
      (fun k => dest + BitVec.ofNat w (order k))
      n.toNat mem) :
    (∀ k, k < n.toNat → mem' (dest + BitVec.ofNat w k) = mem (src + BitVec.ofNat w k)) ∧
      ∀ a : BitVec w, a.toNat < dest.toNat ∨ dest.toNat + n.toNat ≤ a.toNat → mem' a = mem a := by
  subst hmem'
  have haddr : ∀ k, k < n.toNat → (dest + BitVec.ofNat w (order k)).toNat = dest.toNat + order k :=
    fun k hk =>
    toNat_add_ofNat hdest (hlt k hk)
  constructor
  · intro k hk
    have hmoved : copyCells (fun k => src + BitVec.ofNat w (order k))
        (fun k => dest + BitVec.ofNat w (order k))
        n.toNat mem (dest + BitVec.ofNat w (order (order k))) =
          mem (src + BitVec.ofNat w (order (order k))) := by
      refine copyCells_dst (fun j k hjk hk heq => ?_) (fun j k hjk hk heq => ?_) (hlt k hk)
      · apply hread j k hjk hk
        rw [← haddr j (by omega), ← heq, toNat_add_ofNat hsrc (hlt k hk)]
      · have hsame := congrArg BitVec.toNat heq
        rw [haddr k hk, haddr j (by omega)] at hsame
        have horder : order k = order j := Nat.add_left_cancel hsame
        have hkj := hinv k hk
        rw [horder, hinv j (by omega)] at hkj
        omega
    rwa [hinv k hk] at hmoved
  · intro a ha
    refine copyCells_of_ne fun k hk heq => ?_
    have hk' := hlt k hk
    rw [heq, haddr k hk] at ha
    omega

/-- **`memmove`** moves a range however it overlaps the destination, and changes nothing outside of
it. -/
theorem memmove_moves (mem : BitVec w → BitVec 8) (dest src n : BitVec w)
    (hdest : dest.toNat + n.toNat ≤ 2 ^ w) (hsrc : src.toNat + n.toNat ≤ 2 ^ w) :
    (memmove mem dest src n).1 = dest ∧
      (∀ k, k < n.toNat → (memmove mem dest src n).2 (dest + BitVec.ofNat w k) =
        mem (src + BitVec.ofNat w k)) ∧
      ∀ a : BitVec w, a.toNat < dest.toNat ∨ dest.toNat + n.toNat ≤ a.toNat →
        (memmove mem dest src n).2 a = mem a := by
  unfold memmove
  by_cases hle : dest ≤ src
  · have hnat : dest.toNat ≤ src.toNat := hle
    rw [if_pos hle]
    exact ⟨rfl, copyCells_range id hdest hsrc (fun _ hk => hk) (fun _ _ => rfl)
      (fun j k hjk _ => by simp only [id]; omega) (memmoveUp_eq mem dest src n.toNat)⟩
  · have hnat : src.toNat < dest.toNat := Nat.lt_of_not_le hle
    rw [if_neg hle]
    refine ⟨rfl, copyCells_range (fun k => n.toNat - 1 - k) hdest hsrc (fun k hk => by omega)
      (fun k hk => by omega) (fun j k hjk hk => by omega) ?_⟩
    dsimp only
    rw [memmoveDown_eq]
    exact copyCells_congr (fun k hk => add_sub_ofNat hk) fun k hk => add_sub_ofNat hk

/-- Four bytes moved up by one, over themselves. -/
theorem memmove_moves_overlapping :
    (∀ k, k < 4 → (memmove (fun a : BitVec 64 => a.setWidth 8) 11#64 10#64 4#64).2
      (11#64 + BitVec.ofNat 64 k) =
        (10#64 + BitVec.ofNat 64 k).setWidth 8) ∧
      (memmove (fun a : BitVec 64 => a.setWidth 8) 11#64 10#64 4#64).2 10#64 = 10#8 := by
  obtain ⟨-, hmoved, hkept⟩ :=
    memmove_moves (fun a : BitVec 64 => a.setWidth 8) 11#64 10#64 4#64 (by decide) (by decide)
  exact ⟨hmoved, hkept 10#64 (Or.inl (by decide))⟩

end Memmove

end AcrnGuest
