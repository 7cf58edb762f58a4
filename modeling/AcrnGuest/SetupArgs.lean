import AcrnGuest.SetupEnv
import AcrnGuest.Words

/-!
# The arguments of `main` (`lib/argv.c`)

`__setup_args` goes through the command line with three cursors: `args` in the line, `argv`
in the array of pointers and `copy_ptr` in the buffer with the copies. It skips blanks, notes
a pointer, copies up to the next blank and writes a NUL. Nothing limits the number of
pointers or of characters: a store outside of `__argv` or `args_copy` has no result here.

The command line is not in `args_copy`, so that the pointer `args` is the rest of the line.
-/

namespace AcrnGuest

open Delimited TextBuffer Words

/-! ### The source -/

def ARGV_SIZE : Nat := 100

def ARGS_COPY_SIZE : Nat := 1000

/-- The static variables. A pointer in `argv` is an index of `argsCopy`, and `none` the null
pointer. -/
structure Args where
  argc : Nat
  argv : List (Option Nat)
  argsCopy : List (BitVec 8)
  copyPtr : Nat
  length_argv : argv.length = ARGV_SIZE
  length_argsCopy : argsCopy.length = ARGS_COPY_SIZE

def skipBlanks (p : List (BitVec 8)) : List (BitVec 8) := p.dropWhile isblank

namespace Args

def storeArg (a : Args) (i : Nat) : Option Args :=
  if i < ARGV_SIZE then
    some
      { a with
        argv := a.argv.set i (some a.copyPtr)
        length_argv := by rw [List.length_set, a.length_argv] }
  else none

def putChar (a : Args) (c : BitVec 8) : Option Args :=
  if a.copyPtr < ARGS_COPY_SIZE then
    some
      { a with
        argsCopy := a.argsCopy.set a.copyPtr c
        length_argsCopy := by rw [List.length_set, a.length_argsCopy] }
  else none

def storeChar (a : Args) (c : BitVec 8) : Option Args :=
  (a.putChar c).map fun a => { a with copyPtr := a.copyPtr + 1 }

def copyWord (a : Args) : List (BitVec 8) → Option (Args × List (BitVec 8))
  | [] => some (a, [])
  | c :: args =>
    if isblank c then some (a, c :: args) else (a.storeChar c).bind fun a => a.copyWord args

end Args

/-- The variables of `__setup_args` with the static ones. -/
structure ArgsPass where
  args : List (BitVec 8)
  argv : Nat
  state : Args

/-- One pass of the outer loop. -/
def setupArgsPass (s : ArgsPass) : Option (ArgsPass ⊕ ArgsPass) :=
  match skipBlanks s.args with
  | [] => some (.inr { s with args := [] })
  | c :: args => do
      let noted ← s.state.storeArg s.argv
      let copied ← noted.copyWord (c :: args)
      let ended ← copied.1.storeChar 0#8
      some (.inl ⟨copied.2, s.argv + 1, ended⟩)

/-- `__setup_args` on the line `args`. Each pass but the last consumes a character of it. -/
def setupArgs (a : Args) (args : CString) : Option Args :=
  (Loop.tryRun setupArgsPass (args.chars.length + 1) ⟨args.chars, a.argc, a⟩).join.map fun s =>
    { s.state with argc := s.argv }

/-- `strcpy(copy_ptr, s); copy_ptr += strlen(s) + 1`. -/
def Args.strcpy (a : Args) (s : List (BitVec 8)) : Option Args :=
  (a.putChar 0#8).bind fun a => (s ++ [0#8]).foldlM Args.storeChar a

/-- `setup_args_progname`; without `args` only the name of the program is noted. -/
def setupArgsProgname (a : Args) (progname : CString) (args : Option CString) : Option Args := do
  let noted ← a.storeArg 0
  let named ← noted.strcpy progname.chars
  let counted := { named with argc := named.argc + 1 }
  match args with
  | none => some counted
  | some args => setupArgs counted args

/-! ### What the stores do -/

section Stores

variable {a a' a'' : Args} {c : BitVec 8} {s t w rest : List (BitVec 8)} {i k : Nat}

structure Args.Wrote (a a' : Args) (s : List (BitVec 8)) : Prop where
  copyPtr : a'.copyPtr = a.copyPtr + s.length
  text : Holds a'.argsCopy a.copyPtr s
  kept : ∀ j, j < a.copyPtr ∨ a.copyPtr + s.length ≤ j → a'.argsCopy[j]? = a.argsCopy[j]?
  argv : a'.argv = a.argv
  argc : a'.argc = a.argc

theorem Args.Wrote.nil (a : Args) : a.Wrote a [] where
  copyPtr := rfl
  text := holds_nil
  kept _ _ := rfl
  argv := rfl
  argc := rfl

theorem Args.Wrote.holds (h : a.Wrote a' s) (ht : Holds a.argsCopy i t)
    (hbelow : i + t.length ≤ a.copyPtr) :
    Holds a'.argsCopy i t := by
  intro k hk
  rw [h.kept (i + k) (by omega)]
  exact ht k hk

theorem Args.Wrote.append (h : a.Wrote a' s) (h' : a'.Wrote a'' t) : a.Wrote a'' (s ++ t) where
  copyPtr := by rw [h'.copyPtr, h.copyPtr, List.length_append, Nat.add_assoc]
  text := holds_append.mpr ⟨h'.holds h.text (Nat.le_of_eq h.copyPtr.symm), h.copyPtr ▸ h'.text⟩
  kept j hj := by
    rw [List.length_append] at hj
    rw [h'.kept j (by rw [h.copyPtr]; omega), h.kept j (by omega)]
  argv := h'.argv.trans h.argv
  argc := h'.argc.trans h.argc

theorem Args.storeChar_wrote (hroom : a.copyPtr < ARGS_COPY_SIZE) (c : BitVec 8) :
    ∃ a', a.storeChar c = some a' ∧ a.Wrote a' [c] := by
  refine ⟨_, by rw [Args.storeChar, Args.putChar, if_pos hroom]; rfl, ?_⟩
  exact
  { copyPtr := rfl
    text := holds_singleton.mpr (List.getElem?_set_self (by rw [a.length_argsCopy]; exact hroom))
    kept := by
      intro j hj
      rw [List.length_singleton] at hj
      exact List.getElem?_set_ne (by omega)
    argv := rfl
    argc := rfl }

theorem Args.storeChar_eq_none (hfull : ARGS_COPY_SIZE ≤ a.copyPtr) (c : BitVec 8) :
    a.storeChar c = none := by
  rw [Args.storeChar, Args.putChar, if_neg (Nat.not_lt.mpr hfull)]
  rfl

/-- A text that fits is written. -/
theorem Args.foldlM_wrote (hroom : a.copyPtr + s.length ≤ ARGS_COPY_SIZE) :
    ∃ a', s.foldlM Args.storeChar a = some a' ∧ a.Wrote a' s := by
  induction s generalizing a with
  | nil => exact ⟨a, rfl, .nil a⟩
  | cons c s ih =>
      rw [List.length_cons] at hroom
      obtain ⟨a₁, hstore, hone⟩ := Args.storeChar_wrote (a := a) (by omega) c
      have hptr : a₁.copyPtr = a.copyPtr + 1 := hone.copyPtr
      obtain ⟨a', hrest, hwrote⟩ := ih (a := a₁) (by omega)
      refine ⟨a', ?_, hone.append hwrote⟩
      rw [List.foldlM_cons, hstore]
      exact hrest

theorem Args.foldlM_eq_none (hs : s ≠ []) (hfull : ARGS_COPY_SIZE < a.copyPtr + s.length) :
    s.foldlM Args.storeChar a = none := by
  induction s generalizing a with
  | nil => exact absurd rfl hs
  | cons c s ih =>
      rw [List.foldlM_cons]
      rw [List.length_cons] at hfull
      by_cases hroom : a.copyPtr < ARGS_COPY_SIZE
      · obtain ⟨a₁, hstore, hone⟩ := Args.storeChar_wrote hroom c
        have hptr : a₁.copyPtr = a.copyPtr + 1 := hone.copyPtr
        rw [hstore]
        refine ih ?_ (by omega)
        rintro rfl
        rw [List.length_nil] at hfull
        omega
      · rw [Args.storeChar_eq_none (Nat.le_of_not_lt hroom)]
        rfl

/-- The inner loop stores a run. -/
theorem Args.copyWord_run (h : Run isblank w rest) (a : Args) :
    a.copyWord (w ++ rest) = (w.foldlM Args.storeChar a).map (·, rest) := by
  obtain ⟨-, hchars, hstop⟩ := h
  induction w generalizing a with
  | nil =>
      cases rest with
      | nil => rfl
      | cons c rest =>
          rw [List.nil_append, Args.copyWord, if_pos (hstop c rfl)]
          rfl
  | cons c w ih =>
      have hc : isblank c = false := hchars c (List.mem_cons_self ..)
      rw [List.cons_append, Args.copyWord, if_neg (by rw [hc]; exact Bool.false_ne_true),
        List.foldlM_cons]
      cases a.storeChar c with
      | none => rfl
      | some a₁ => exact ih a₁ fun x hx => hchars x (List.mem_cons_of_mem c hx)

theorem Args.strcpy_wrote (hroom : a.copyPtr + (s.length + 1) ≤ ARGS_COPY_SIZE) :
    ∃ a', a.strcpy s = some a' ∧ a.Wrote a' (s ++ [0#8]) := by
  have hput : ∃ a₁, a.putChar 0#8 = some a₁ ∧ a₁ = { a with
      argsCopy := a.argsCopy.set a.copyPtr 0#8
      length_argsCopy := by rw [List.length_set, a.length_argsCopy] } :=
    ⟨_, if_pos (by omega), rfl⟩
  obtain ⟨a₁, hput, rfl⟩ := hput
  obtain ⟨a', hstore, hwrote⟩ := Args.foldlM_wrote (s := s ++ [0#8])
    (a := { a with
      argsCopy := a.argsCopy.set a.copyPtr 0#8
      length_argsCopy := by rw [List.length_set, a.length_argsCopy] })
    (by rw [List.length_append]; exact hroom)
  refine ⟨a', by rw [Args.strcpy, hput]; exact hstore, { hwrote with kept := ?_ }⟩
  intro j hj
  have hlength : 1 ≤ (s ++ [0#8]).length := by simp
  -- the first cell is overwritten again
  rw [hwrote.kept j hj]
  exact List.getElem?_set_ne (by omega)

end Stores

/-! ### The words -/

section Passes

variable {a a' a'' : Args} {args w rest : List (BitVec 8)} {ws : List (List (BitVec 8))}
  {i j k bound : Nat}

/-- The words `ws` were copied, with their pointers from index `i` on. -/
structure Args.Copied (a a' : Args) (i : Nat) (ws : List (List (BitVec 8))) : Prop where
  copyPtr : a'.copyPtr = a.copyPtr + (joined [0#8] ws).length
  text : Holds a'.argsCopy a.copyPtr (joined [0#8] ws)
  kept : ∀ j, j < a.copyPtr ∨ a.copyPtr + (joined [0#8] ws).length ≤ j →
    a'.argsCopy[j]? = a.argsCopy[j]?
  pointers : ∀ k, k < ws.length → a'.argv[i + k]? =
    some (some (a.copyPtr + (joined [0#8] (ws.take k)).length))
  entries : ∀ j, j < i ∨ i + ws.length ≤ j → a'.argv[j]? = a.argv[j]?

theorem Args.Copied.nil (a : Args) (i : Nat) : a.Copied a i [] where
  copyPtr := rfl
  text := holds_nil
  kept _ _ := rfl
  pointers k hk := absurd hk (Nat.not_lt_zero k)
  entries _ _ := rfl

theorem Args.Copied.append {ws' : List (List (BitVec 8))} (h : a.Copied a' i ws)
    (h' : a'.Copied a'' (i + ws.length) ws') : a.Copied a'' i (ws ++ ws') where
  copyPtr := by rw [h'.copyPtr, h.copyPtr, joined_append, List.length_append, Nat.add_assoc]
  text := by
    rw [joined_append, holds_append, ← h.copyPtr]
    refine ⟨fun k hk => ?_, h'.text⟩
    rw [h'.kept (a.copyPtr + k) (by rw [h.copyPtr]; omega)]
    exact h.text k hk
  kept j hj := by
    rw [joined_append, List.length_append] at hj
    rw [h'.kept j (by rw [h.copyPtr]; omega), h.kept j (by omega)]
  pointers k hk := by
    rw [List.length_append] at hk
    by_cases hlt : k < ws.length
    · rw [h'.entries (i + k) (by omega), h.pointers k hlt,
        List.take_append_of_le_length (Nat.le_of_lt hlt)]
    · have hpointer := h'.pointers (k - ws.length) (by omega)
      rw [Nat.add_assoc, Nat.add_sub_cancel' (Nat.le_of_not_lt hlt)] at hpointer
      rw [hpointer, h.copyPtr, List.take_append, List.take_of_length_le (Nat.le_of_not_lt hlt),
        joined_append, List.length_append, Nat.add_assoc]
  entries j hj := by
    rw [List.length_append] at hj
    rw [h'.entries j (by omega), h.entries j (by omega)]

/-- A pass over a run notes the pointer and stores the run and a NUL. -/
theorem setupArgsPass_run (hskip : skipBlanks args = w ++ rest) (h : Run isblank w rest)
    (i : Nat) (a : Args) :
    setupArgsPass ⟨args, i, a⟩ = (a.storeArg i).bind fun noted =>
      ((w ++ [0#8]).foldlM Args.storeChar noted).map fun ended => .inl ⟨rest, i + 1, ended⟩ := by
  obtain ⟨c, v, rfl⟩ := List.exists_cons_of_ne_nil h.ne_nil
  have hpass : setupArgsPass ⟨args, i, a⟩ = (a.storeArg i).bind fun noted =>
      (noted.copyWord (c :: v ++ rest)).bind fun copied =>
        (copied.1.storeChar 0#8).bind fun ended => some (.inl ⟨copied.2, i + 1, ended⟩) := by
    rw [setupArgsPass, hskip]
    rfl
  rw [hpass]
  congr 1
  funext noted
  rw [Args.copyWord_run h, List.foldlM_append]
  cases (c :: v).foldlM Args.storeChar noted with
  | none => rfl
  | some copied =>
      change (copied.storeChar 0#8).bind _ = ([0#8].foldlM Args.storeChar copied).map _
      rw [List.foldlM_cons]
      cases copied.storeChar 0#8 with
      | none => rfl
      | some ended => rfl

theorem Args.Wrote.copied {noted : Args} (hi : i < ARGV_SIZE) (hnote : a.storeArg i = some noted)
    (hwrote : noted.Wrote a' (w ++ [0#8])) : a.Copied a' i [w] := by
  have hjoined : joined [0#8] [w] = w ++ [0#8] := by rw [joined_cons, joined_nil, List.append_nil]
  rw [Args.storeArg, if_pos hi] at hnote
  cases hnote
  exact
  { copyPtr := by rw [hjoined]; exact hwrote.copyPtr
    text := by rw [hjoined]; exact hwrote.text
    kept := by rw [hjoined]; exact hwrote.kept
    pointers := by
      intro k hk
      obtain rfl : k = 0 := Nat.lt_one_iff.mp hk
      rw [hwrote.argv]
      exact List.getElem?_set_self (by rw [a.length_argv]; exact hi)
    entries := by
      intro j hj
      rw [List.length_singleton] at hj
      rw [hwrote.argv]
      exact List.getElem?_set_ne (by omega) }

/-- A run for which there is room becomes an argument. -/
theorem setupArgsPass_copied (hskip : skipBlanks args = w ++ rest) (h : Run isblank w rest)
    (hi : i < ARGV_SIZE) (hroom : a.copyPtr + (w.length + 1) ≤ ARGS_COPY_SIZE) :
    ∃ a', setupArgsPass ⟨args, i, a⟩ = some (.inl ⟨rest, i + 1, a'⟩) ∧ a.Copied a' i [w] := by
  obtain ⟨noted, hnote, hptr⟩ : ∃ noted, a.storeArg i = some noted ∧ noted.copyPtr = a.copyPtr :=
    ⟨_, if_pos hi, rfl⟩
  obtain ⟨a', hstore, hwrote⟩ := Args.foldlM_wrote (a := noted) (s := w ++ [0#8])
    (by rw [hptr, List.length_append]; exact hroom)
  refine ⟨a', ?_, hwrote.copied hi hnote⟩
  rw [setupArgsPass_run hskip h, hnote, Option.bind_some, hstore]
  rfl

/-- A run for which there is none ends in a store outside of the arrays. -/
theorem setupArgsPass_eq_none (hskip : skipBlanks args = w ++ rest) (h : Run isblank w rest)
    (hfull : ¬ (i < ARGV_SIZE ∧ a.copyPtr + (w.length + 1) ≤ ARGS_COPY_SIZE)) :
    setupArgsPass ⟨args, i, a⟩ = none := by
  rw [setupArgsPass_run hskip h]
  unfold Args.storeArg
  by_cases hi : i < ARGV_SIZE
  · rw [if_pos hi, Option.bind_some, Args.foldlM_eq_none (by simp)]
    · rfl
    · rw [List.length_append, List.length_singleton]
      exact Nat.lt_of_not_le fun hle => hfull ⟨hi, hle⟩
  · rw [if_neg hi]
    rfl

/-- The arguments fit: from index `i` and from `copy_ptr` on there is room for the words and their
NULs. -/
def Args.Fits (a : Args) (i : Nat) (ws : List (List (BitVec 8))) : Prop :=
  i + ws.length ≤ ARGV_SIZE ∧ a.copyPtr + (joined [0#8] ws).length ≤ ARGS_COPY_SIZE

instance (a : Args) (i : Nat) (ws : List (List (BitVec 8))) : Decidable (a.Fits i ws) :=
  inferInstanceAs (Decidable (_ ∧ _))

theorem Args.fits_cons : a.Fits i (w :: ws) ↔
    i + 1 + ws.length ≤ ARGV_SIZE ∧ a.copyPtr + (w.length + 1) + (joined [0#8] ws).length ≤
      ARGS_COPY_SIZE := by
  simp only [Args.Fits, joined_cons, List.length_append, List.length_cons, List.length_nil]
  omega

theorem Args.Copied.fits_rest (h : a.Copied a' i [w]) (ws : List (List (BitVec 8))) :
    a'.Fits (i + 1) ws ↔ a.Fits i (w :: ws) := by
  have hptr := h.copyPtr
  rw [joined_cons, joined_nil, List.append_nil, List.length_append, List.length_singleton] at hptr
  rw [Args.fits_cons, Args.Fits, hptr]

/-- **The loop.** It copies the words of the line if they fit. -/
theorem setupArgsLoop_copied (args : List (BitVec 8)) :
    ∀ {i : Nat} {a : Args} {bound : Nat}, args.length < bound → a.Fits i (words isblank args) →
      ∃ a', Loop.tryRun setupArgsPass bound ⟨args, i, a⟩ =
          some (some ⟨[], i + (words isblank args).length, a'⟩) ∧
            a.Copied a' i (words isblank args) := by
  induction args using words_induction isblank with
  | hblank args hskip =>
      intro i a bound hbound _
      obtain ⟨bound, rfl⟩ := Nat.exists_eq_add_one_of_ne_zero
        (Nat.ne_of_gt (Nat.zero_lt_of_lt hbound))
      rw [← words_skip, hskip, words_nil]
      exact ⟨a, Loop.tryRun_done (by rw [setupArgsPass, skipBlanks, hskip]; rfl) bound, .nil a i⟩
  | hrun args w rest hskip h ih =>
      intro i a bound hbound hfits
      obtain ⟨bound, rfl⟩ := Nat.exists_eq_add_one_of_ne_zero
        (Nat.ne_of_gt (Nat.zero_lt_of_lt hbound))
      have hlt := h.length_lt hskip
      rw [← words_skip, hskip, words_run h] at hfits ⊢
      have hroom := Args.fits_cons.mp hfits
      obtain ⟨a₁, hpass, hone⟩ :=
        setupArgsPass_copied (a := a) hskip h (by omega : i < ARGV_SIZE) (by omega)
      obtain ⟨a', hrest, hcopied⟩ :=
        ih (by omega : rest.length < bound) ((hone.fits_rest _).mpr hfits)
      refine ⟨a', ?_, hone.append hcopied⟩
      rw [Loop.tryRun_next hpass, hrest, List.length_cons, Nat.add_right_comm, Nat.add_assoc]

/-- It stores outside of the arrays if they do not. -/
theorem setupArgsLoop_fails (args : List (BitVec 8)) :
    ∀ {i : Nat} {a : Args} {bound : Nat}, args.length < bound → i ≤ ARGV_SIZE →
      a.copyPtr ≤ ARGS_COPY_SIZE →
      ¬ a.Fits i (words isblank args) → Loop.tryRun setupArgsPass bound ⟨args, i, a⟩ =
        some none := by
  induction args using words_induction isblank with
  | hblank args hskip =>
      intro i a bound _ hi hptr hfits
      rw [← words_skip, hskip, words_nil] at hfits
      exact absurd ⟨hi, hptr⟩ hfits
  | hrun args w rest hskip h ih =>
      intro i a bound hbound hi hptr hfits
      obtain ⟨bound, rfl⟩ := Nat.exists_eq_add_one_of_ne_zero
        (Nat.ne_of_gt (Nat.zero_lt_of_lt hbound))
      have hlt := h.length_lt hskip
      rw [← words_skip, hskip, words_run h] at hfits
      by_cases hroom : i < ARGV_SIZE ∧ a.copyPtr + (w.length + 1) ≤ ARGS_COPY_SIZE
      · obtain ⟨a₁, hpass, hone⟩ := setupArgsPass_copied hskip h hroom.1 hroom.2
        have hnext : a₁.Fits (i + 1) [] := (hone.fits_rest []).mpr (Args.fits_cons.mpr hroom)
        rw [Loop.tryRun_next hpass]
        exact ih (by omega) hnext.1 hnext.2 (mt (hone.fits_rest _).mp hfits)
      · exact Loop.tryRun_fail (setupArgsPass_eq_none hskip h hroom) bound

theorem setupArgs_eq_none {args : CString} (hargc : a.argc ≤ ARGV_SIZE)
    (hptr : a.copyPtr ≤ ARGS_COPY_SIZE) (hfits : ¬ a.Fits a.argc (words isblank args.chars)) :
    setupArgs a args = none := by
  rw [setupArgs, setupArgsLoop_fails args.chars (Nat.lt_succ_self _) hargc hptr hfits]
  rfl

/-- `__setup_args` returns exactly if the words fit. -/
theorem setupArgs_eq_some_iff (hargc : a.argc ≤ ARGV_SIZE) (hptr : a.copyPtr ≤ ARGS_COPY_SIZE)
    (args : CString) :
    (∃ a', setupArgs a args = some a') ↔ a.Fits a.argc (words isblank args.chars) := by
  constructor
  · rintro ⟨a', hcall⟩
    by_contra hfits
    rw [setupArgs_eq_none hargc hptr hfits] at hcall
    cases hcall
  · intro hfits
    obtain ⟨a', hrun, -⟩ := setupArgsLoop_copied args.chars (Nat.lt_succ_self _) hfits
    rw [setupArgs, hrun]
    exact ⟨_, rfl⟩

/-- The words `ws` were appended to the arguments. -/
structure Args.Appended (a a' : Args) (ws : List (List (BitVec 8))) : Prop where
  argc : a'.argc = a.argc + ws.length
  copied : ∀ k w, ws[k]? = some w → ∃ p, a'.argv[a.argc + k]? = some (some p) ∧ a.copyPtr ≤ p ∧
    Holds a'.argsCopy p (w ++ [0#8])
  apart : ∀ j k v p q, j < k → k < ws.length → ws[j]? = some v →
    a'.argv[a.argc + j]? = some (some p) →
    a'.argv[a.argc + k]? = some (some q) → p + (v.length + 1) ≤ q
  entries : ∀ j, j < a.argc ∨ a'.argc ≤ j → a'.argv[j]? = a.argv[j]?
  copies : ∀ j, j < a.copyPtr → a'.argsCopy[j]? = a.argsCopy[j]?

theorem joined_take_succ {w : List (BitVec 8)} (hw : ws[k]? = some w) :
    joined [0#8] (ws.take (k + 1)) = joined [0#8] (ws.take k) ++ (w ++ [0#8]) := by
  rw [List.take_add_one, hw, Option.toList_some, joined_append, joined_cons, joined_nil,
    List.append_nil]

theorem Args.Copied.appended (h : a.Copied a' a.argc ws) :
    a.Appended { a' with argc := a.argc + ws.length } ws where
  argc := rfl
  copied k w hw := by
    have hk := (List.getElem?_eq_some_iff.mp hw).1
    refine ⟨_, h.pointers k hk, Nat.le_add_right _ _, ?_⟩
    have htext := h.text
    rw [← List.take_append_drop (k + 1) ws, joined_append, joined_take_succ hw, holds_append,
      holds_append] at htext
    exact htext.1.2
  apart j k v p q hjk hk hv hp hq := by
    have hj : j < ws.length := by omega
    -- the words up to the `j`th one are among those before the `k`th one
    have hwords : joined [0#8] (ws.take k) =
        joined [0#8] (ws.take (j + 1)) ++ joined [0#8] ((ws.take k).drop (j + 1)) := by
      have htake : (ws.take k).take (j + 1) = ws.take (j + 1) := by
        rw [List.take_take, Nat.min_eq_left (by omega)]
      rw [← joined_append, ← htake, List.take_append_drop]
    have hlength := congrArg List.length hwords
    rw [joined_take_succ hv] at hlength
    simp only [List.length_append, List.length_singleton] at hlength
    obtain rfl : a.copyPtr + (joined [0#8] (ws.take j)).length = p :=
      Option.some.inj (Option.some.inj ((h.pointers j hj).symm.trans hp))
    obtain rfl : a.copyPtr + (joined [0#8] (ws.take k)).length = q :=
      Option.some.inj (Option.some.inj ((h.pointers k hk).symm.trans hq))
    omega
  entries j hj := h.entries j hj
  copies j hj := h.kept j (Or.inl hj)

theorem setupArgs_appended {args : CString} (hfits : a.Fits a.argc (words isblank args.chars)) :
    ∃ a', setupArgs a args = some a' ∧ a.Appended a' (words isblank args.chars) := by
  obtain ⟨a', hrun, hcopied⟩ := setupArgsLoop_copied args.chars (Nat.lt_succ_self _) hfits
  exact ⟨_, by rw [setupArgs, hrun]; rfl, hcopied.appended⟩

/-- **The words of the command line become the arguments.** If there is room for them, they are
appended to `__argv` in order, each as a copy with a NUL; the copies do not overlap, and what was
there before stays. -/
theorem setupArgs_appends_words (a : Args) (args : CString)
    (hargv : a.argc + (words isblank args.chars).length ≤ ARGV_SIZE)
    (hcopy : a.copyPtr + (joined [0#8] (words isblank args.chars)).length ≤ ARGS_COPY_SIZE) :
    ∃ a', setupArgs a args = some a' ∧ a.Appended a' (words isblank args.chars) :=
  setupArgs_appended ⟨hargv, hcopy⟩

def Args.initial : Args where
  argc := 0
  argv := List.replicate ARGV_SIZE none
  argsCopy := List.replicate ARGS_COPY_SIZE 0#8
  copyPtr := 0
  length_argv := List.length_replicate
  length_argsCopy := List.length_replicate

/-- The line `" a\tbc "`. -/
theorem setupArgs_appends_two_words :
    ∃ a', setupArgs .initial ⟨[ch ' ', ch 'a', ch '\t', ch 'b', ch 'c', ch ' '], by decide⟩ =
      some a' ∧
      Args.initial.Appended a' [[ch 'a'], [ch 'b', ch 'c']] :=
  setupArgs_appends_words .initial ⟨[ch ' ', ch 'a', ch '\t', ch 'b', ch 'c', ch ' '], by decide⟩
    (by decide) (by decide)

/-- The words of a line take at most half as many pointers as characters, so that a line of 199
characters always fits. -/
theorem setupArgs_of_short {args : CString} (h : args.chars.length ≤ 199) :
    ∃ a', setupArgs .initial args = some a' ∧
      Args.initial.Appended a' (words isblank args.chars) := by
  have hroom := length_joined_words_le isblank 0#8 args.chars
  have hcount := length_words_le isblank 0#8 args.chars
  apply setupArgs_appended
  constructor
  · change 0 + _ ≤ 100
    omega
  · change 0 + _ ≤ 1000
    omega

/-- With the name of the program in front, `__argv` gets the name and the words. -/
theorem setupArgsProgname_appended {progname args : CString} (hargc : a.argc = 0)
    (hfits : a.Fits 0 (progname.chars :: words isblank args.chars)) :
    ∃ a', setupArgsProgname a progname (some args) = some a' ∧
      a.Appended a' (progname.chars :: words isblank args.chars) := by
  have hroom := Args.fits_cons.mp hfits
  have hzero : 0 < ARGV_SIZE := by decide
  obtain ⟨noted, hnote, hptr, hcount⟩ :
      ∃ noted, a.storeArg 0 = some noted ∧ noted.copyPtr = a.copyPtr ∧ noted.argc = a.argc :=
    ⟨_, if_pos hzero, rfl, rfl⟩
  obtain ⟨named, hname, hwrote⟩ := Args.strcpy_wrote (a := noted) (s := progname.chars) (by omega)
  have hone : a.Copied { named with argc := 1 } 0 [progname.chars] :=
    { hwrote.copied hzero hnote with }
  have hargc' : named.argc + 1 = 1 := by rw [hwrote.argc, hcount, hargc]
  obtain ⟨a', hrun, hcopied⟩ :=
    setupArgsLoop_copied args.chars (Nat.lt_succ_self _) ((hone.fits_rest _).mpr hfits)
  refine ⟨{ a' with argc := 1 + (words isblank args.chars).length }, ?_, ?_⟩
  · have hcall : setupArgsProgname a progname (some args) =
        setupArgs { named with argc := 1 } args := by
      rw [setupArgsProgname, hnote, Option.bind_eq_bind, Option.bind_some, hname, Option.bind_some]
      dsimp only
      rw [hargc']
    rw [hcall, setupArgs]
    exact congrArg (fun r => r.join.map fun s : ArgsPass => { s.state with argc := s.argv }) hrun
  · have hall := hone.append hcopied
    rw [← hargc] at hall
    have happended := hall.appended
    rw [hargc, List.length_append, List.length_singleton, Nat.zero_add] at happended
    exact happended

end Passes

end AcrnGuest
