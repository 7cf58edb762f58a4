import AcrnGuest.Getenv
import AcrnGuest.TextBuffer

/-!
# The environment text (`lib/argv.c`)

`setup_env` turns a text into the array `__environ` of pointers into it. A text without NUL
is a sequence of lines, of which `env_next` finds the next one that sets a variable; the ends
of these lines are overwritten with NUL. In a text with NUL the strings are taken as they
stand, up to the first empty one.

The text is an array with bounds: a read or a write outside of it, or outside of
`__environ`, has no result. `env_next` calls itself in return position only, so that it is a
loop over its calls.
-/

namespace AcrnGuest

open TextBuffer

/-! ### The source -/

def NEWLINE : BitVec 8 := 10#8
def HASH : BitVec 8 := 35#8

def isblank (c : BitVec 8) : Bool := c = 32#8 || c = 9#8
def isalpha (c : BitVec 8) : Bool := (65#8 ≤ c && c ≤ 90#8) || (97#8 ≤ c && c ≤ 122#8) || c = 95#8
def isalnum (c : BitVec 8) : Bool := isalpha c || (48#8 ≤ c && c ≤ 57#8)

/-- The text, and the strings for which `Invalid environment variable: %s` was printed. -/
structure EnvText where
  buf : List (BitVec 8)
  printed : List (List (BitVec 8))

def envEol (buf : List (BitVec 8)) (env : Nat) : Option Nat :=
  skip (fun c => c ≠ 0#8 && c ≠ NEWLINE) buf env

def printedText (buf : List (BitVec 8)) (p : Nat) : Option (List (BitVec 8)) :=
  (skip (· ≠ 0#8) buf p).map fun q => (buf.drop p).take (q - p)

/-- `env_invalid_eol`: the end of the line is NUL for the time of printing. -/
def envInvalidEol (t : EnvText) (env : Nat) : Option (EnvText × Nat) := do
  let eol ← envEol t.buf env
  let eolOld ← t.buf[eol]?
  let ended := t.buf.set eol 0#8
  let line ← printedText ended env
  return (⟨ended.set eol eolOld, t.printed ++ [line]⟩, eol)

/-- The loop of `env_next` over a name, over `n` characters at most. -/
def nameLoop (buf : List (BitVec 8)) : Nat → Nat → Bool → Option (Nat × Bool)
  | 0, _, _ => none
  | n + 1, p, invalid =>
      match buf[p]? with
      | none => none
      | some c =>
          if c ≠ 0#8 ∧ c ≠ EQUALS ∧ c ≠ NEWLINE then
            nameLoop buf n (p + 1) (if isalnum c then invalid else true)
          else some (p, invalid)

/-- `*env ? env_next(env + 1) : env`, where `.inl` is the call. -/
def envNextLine (t : EnvText) (env : Nat) : Option ((EnvText × Nat) ⊕ (EnvText × Nat)) :=
  (t.buf[env]?).map fun c => if c ≠ 0#8 then .inl (t, env + 1) else .inr (t, env)

/-- The way of `env_next` past an invalid line. -/
def envNextInvalid (t : EnvText) (env : Nat) : Option ((EnvText × Nat) ⊕ (EnvText × Nat)) :=
  (envInvalidEol t env).bind fun next => envNextLine next.1 next.2

/-- One call of `env_next`; `.inl` is the next call. -/
def envNextCall (t : EnvText) (env : Nat) : Option ((EnvText × Nat) ⊕ (EnvText × Nat)) := do
  let c ← t.buf[env]?
  if c = 0#8 then some (.inr (t, env))
  else if isalpha c then
    let name ← nameLoop t.buf (t.buf.length - env) (env + 1) false
    let p ← t.buf[name.1]?
    if name.2 ∨ p ≠ EQUALS then envNextInvalid t env else some (.inr (t, env))
  else
    let p ← skip isblank t.buf env
    let c ← t.buf[p]?
    if c = NEWLINE then some (.inl (t, p + 1))
    else if c = HASH then
      let eol ← envEol t.buf env
      envNextLine t eol
    else envNextInvalid t env

def envNext (t : EnvText) (env : Nat) : Option (Option (EnvText × Nat)) :=
  Loop.tryRun (fun s => envNextCall s.1 s.2) (t.buf.length + 1) (t, env)

/-- The variables of `setup_env`, and `__environ`. -/
structure EnvSetup where
  text : EnvText
  environ : List (Option Nat)
  i : Nat
  env : Nat

/-- The characters over which the loop at the end of `setup_env` goes. -/
def lineChar (newline : Bool) (c : BitVec 8) : Bool := c ≠ 0#8 && !(newline && c = NEWLINE)

/-- The pointer of the loop, after the call of `env_next` in a text of lines. -/
def setupEnvNext (newline : Bool) (s : EnvSetup) : Option (EnvText × Nat) :=
  if newline then (envNext s.text s.env).join else some (s.text, s.env)

/-- One pass of the loop of `setup_env`. -/
def setupEnvPass (newline : Bool) (eof : Nat) (s : EnvSetup) : Option (EnvSetup ⊕ EnvSetup) :=
  if s.env < eof then do
    let next ← setupEnvNext newline s
    let c ← next.1.buf[next.2]?
    if c = 0#8 ∨ eof ≤ next.2 then some (.inr { s with text := next.1, env := next.2 })
    else if s.i < s.environ.length then
      let stop ← scan (lineChar newline) next.1.buf (eof - next.2) next.2
      if stop < next.1.buf.length then
        some (.inl
          { text := { next.1 with buf := next.1.buf.set stop 0#8 }
            environ := s.environ.set s.i (some next.2)
            i := s.i + 1
            env := stop + 1 })
      else none
    else none
  else some (.inr s)

/-- `setup_env` on the text at the start of `buf`. There are fewer passes than `size + 2`, as each
moves the pointer on. -/
def setupEnv (buf : List (BitVec 8)) (size : Nat) (environ : List (Option Nat)) :
    Option EnvSetup := do
  let p ← skip (· ≠ 0#8) buf 0
  (Loop.tryRun (setupEnvPass (p = size) size) (size + 2) ⟨⟨buf, []⟩, environ, 0, 0⟩).join

/-! ### Lines that set a variable -/

/-- A line of the form `name=value`, where the name is a letter or an underscore and then letters,
digits and underscores. -/
def IsVariable (line : List (BitVec 8)) : Prop :=
  ∃ first name value, line = first :: name ++ EQUALS :: value ∧ isalpha first = true ∧
    ∀ c ∈ name, isalnum c = true

theorem isalnum_ne_equals {c : BitVec 8} (h : isalnum c = true) : c ≠ EQUALS := by
  rintro rfl
  exact absurd h (by decide)

theorem splitEnv_append_equals {name : List (BitVec 8)} (hname : ∀ c ∈ name, isalnum c = true)
    (value : List (BitVec 8)) : splitEnv (name ++ EQUALS :: value) = some (name, value) := by
  induction name with
  | nil => simp [splitEnv]
  | cons c name ih =>
      have hc : c ≠ EQUALS := isalnum_ne_equals (hname c (List.mem_cons_self ..))
      simp [splitEnv, hc, ih fun d hd => hname d (List.mem_cons_of_mem c hd)]

theorem isVariable_cons_iff (c : BitVec 8) (cs : List (BitVec 8)) :
    IsVariable (c :: cs) ↔ isalpha c = true ∧ ∃ kv, splitEnv cs = some kv ∧
      kv.1.all isalnum = true := by
  constructor
  · rintro ⟨first, name, value, heq, hfirst, hname⟩
    obtain ⟨rfl, rfl⟩ := List.cons.inj heq
    exact ⟨hfirst, (name, value), splitEnv_append_equals hname value, List.all_eq_true.mpr hname⟩
  · rintro ⟨hc, ⟨name, value⟩, hsplit, hname⟩
    obtain ⟨rfl, -⟩ := splitEnv_append hsplit
    exact ⟨c, name, value, rfl, hc, List.all_eq_true.mp hname⟩

instance : DecidablePred IsVariable
  | [] => .isFalse fun ⟨_, _, _, heq, _⟩ => by cases heq
  | c :: cs =>
      match hsplit : splitEnv cs with
      | some kv => decidable_of_iff (isalpha c = true ∧ kv.1.all isalnum = true) (by
          rw [isVariable_cons_iff, hsplit]
          simp)
      | none => .isFalse (by
          rw [isVariable_cons_iff, hsplit]
          simp)

/-! ### One line -/

section Line

variable {t : EnvText} {p n : Nat} {line : List (BitVec 8)} {e : BitVec 8}

theorem lineChar_true_iff {c : BitVec 8} : lineChar true c = true ↔ c ≠ 0#8 ∧ c ≠ NEWLINE := by
  simp [lineChar]

/-- The line stands at `p` and is ended by `e`, which is a newline or NUL. -/
structure LineAt (buf : List (BitVec 8)) (p : Nat) (line : List (BitVec 8)) (e : BitVec 8) :
    Prop where
  holds : Holds buf p line
  chars : ∀ c ∈ line, lineChar true c = true
  cell : buf[p + line.length]? = some e
  stop : lineChar true e = false

theorem LineAt.ne (h : LineAt t.buf p line e) {c : BitVec 8} (hc : c ∈ line) :
    c ≠ 0#8 ∧ c ≠ NEWLINE :=
  lineChar_true_iff.mp (h.chars c hc)

theorem LineAt.end_cases (h : LineAt t.buf p line e) : e = 0#8 ∨ e = NEWLINE := by
  have hstop := h.stop
  simp only [lineChar, Bool.true_and, Bool.and_eq_false_iff, Bool.not_eq_false',
    decide_eq_false_iff_not, decide_eq_true_eq, not_not] at hstop
  exact hstop

theorem LineAt.head {c : BitVec 8} {cs : List (BitVec 8)} (h : LineAt t.buf p (c :: cs) e) :
    t.buf[p]? = some c :=
  (holds_cons.mp h.holds).1

theorem LineAt.tail {c : BitVec 8} {cs : List (BitVec 8)} (h : LineAt t.buf p (c :: cs) e) :
    LineAt t.buf (p + 1) cs e where
  holds := (holds_cons.mp h.holds).2
  chars := fun d hd => h.chars d (List.mem_cons_of_mem c hd)
  cell := by
    have hcell := h.cell
    rwa [List.length_cons, Nat.add_comm cs.length, ← Nat.add_assoc] at hcell
  stop := h.stop

theorem LineAt.lt (h : LineAt t.buf p line e) : p + line.length < t.buf.length :=
  (List.getElem?_eq_some_iff.mp h.cell).1

theorem envEol_line (h : LineAt t.buf p line e) : envEol t.buf p = some (p + line.length) := by
  refine skip_stop h.holds (fun c hc => ?_) h.cell ?_
  · simp [h.ne hc]
  · simpa [lineChar] using h.stop

/-- The line is printed, and the text is as before. -/
theorem envInvalidEol_line (h : LineAt t.buf p line e) :
    envInvalidEol t p = some (⟨t.buf, t.printed ++ [line]⟩, p + line.length) := by
  obtain ⟨hlt, hcell⟩ := List.getElem?_eq_some_iff.mp h.cell
  have hended : Holds (t.buf.set (p + line.length) 0#8) p line :=
    h.holds.set (Or.inr (Nat.le_refl _))
  have hprinted : printedText (t.buf.set (p + line.length) 0#8) p = some line := by
    have hskip : skip (· ≠ 0#8) (t.buf.set (p + line.length) 0#8) p = some (p + line.length) := by
      refine skip_stop hended (fun c hc => ?_) (List.getElem?_set_self hlt) (by decide)
      simp [h.ne hc]
    rw [printedText, hskip, Option.map_some, Nat.add_sub_cancel_left, hended.take_drop]
  have hback : (t.buf.set (p + line.length) 0#8).set (p + line.length) e = t.buf := by
    rw [List.set_set, ← hcell, List.set_getElem_self]
  simp only [envInvalidEol, envEol_line h, h.cell, hprinted, hback, Option.bind_eq_bind,
    Option.bind_some, Option.pure_def]

/-- The name ends at the first `=`, or with the line. -/
theorem nameLoop_line {cs : List (BitVec 8)} (h : LineAt t.buf p cs e) (hn : cs.length < n)
    (invalid : Bool) :
    nameLoop t.buf n p invalid = some (match splitEnv cs with
      | some kv => (p + kv.1.length, invalid || !kv.1.all isalnum)
      | none => (p + cs.length, invalid || !cs.all isalnum)) := by
  induction cs generalizing p n invalid with
  | nil =>
      obtain ⟨n, rfl⟩ := Nat.exists_eq_add_one_of_ne_zero (Nat.ne_of_gt hn)
      have hcell : t.buf[p]? = some e := h.cell
      have hstop : ¬ (e ≠ 0#8 ∧ e ≠ EQUALS ∧ e ≠ NEWLINE) := by
        rintro ⟨hnul, -, hnewline⟩
        exact h.end_cases.elim hnul hnewline
      simp [nameLoop, hcell, hstop, splitEnv]
  | cons c cs ih =>
      obtain ⟨n, rfl⟩ := Nat.exists_eq_add_one_of_ne_zero (Nat.ne_of_gt (Nat.zero_lt_of_lt hn))
      by_cases hc : c = EQUALS
      · subst hc
        simp [nameLoop, h.head, splitEnv]
      · have hne := h.ne (List.mem_cons_self ..)
        rw [nameLoop, h.head]
        simp only [if_pos (⟨hne.1, hc, hne.2⟩ : c ≠ 0#8 ∧ c ≠ EQUALS ∧ c ≠ NEWLINE)]
        rw [ih h.tail (Nat.lt_of_succ_lt_succ hn), splitEnv, if_neg hc]
        cases splitEnv cs with
        | none =>
            simp only [Option.map_none, List.length_cons, List.all_cons]
            rw [Nat.add_right_comm p 1, Nat.add_assoc p]
            cases isalnum c <;> simp
        | some kv =>
            simp only [Option.map_some, List.length_cons, List.all_cons]
            rw [Nat.add_right_comm p 1, Nat.add_assoc p]
            cases isalnum c <;> simp

/-- What `env_next` returns or is called with behind a line that it passes over. -/
def behindLine (t : EnvText) (eol : Nat) (e : BitVec 8) : (EnvText × Nat) ⊕ (EnvText × Nat) :=
  if e ≠ 0#8 then .inl (t, eol + 1) else .inr (t, eol)

theorem envNextLine_eq {eol : Nat} (hend : t.buf[eol]? = some e) :
    envNextLine t eol = some (behindLine t eol e) := by
  rw [envNextLine, hend]
  rfl

theorem envNextInvalid_line (h : LineAt t.buf p line e) :
    envNextInvalid t p = some (behindLine ⟨t.buf, t.printed ++ [line]⟩ (p + line.length) e) := by
  rw [envNextInvalid, envInvalidEol_line h, Option.bind_some]
  exact envNextLine_eq h.cell

theorem LineAt.equals {kv : List (BitVec 8) × List (BitVec 8)} (h : LineAt t.buf p line e)
    (hsplit : splitEnv line = some kv) : t.buf[p + kv.1.length]? = some EQUALS := by
  obtain ⟨rfl, -⟩ := splitEnv_append hsplit
  exact (holds_cons.mp (holds_append.mp h.holds).2).1

/-- The call stops at a line that sets a variable. -/
theorem envNextCall_variable (h : LineAt t.buf p line e) (hvar : IsVariable line) :
    envNextCall t p = some (.inr (t, p)) := by
  cases line with
  | nil => exact absurd hvar (by decide)
  | cons c cs =>
      obtain ⟨hc, kv, hsplit, hname⟩ := (isVariable_cons_iff c cs).mp hvar
      have hlt := h.tail.lt
      have hloop : nameLoop t.buf (t.buf.length - p) (p + 1) false =
          some (p + 1 + kv.1.length, false) := by
        rw [nameLoop_line h.tail (by omega), hsplit]
        simp [hname]
      simp [envNextCall, h.head, (h.ne (List.mem_cons_self ..)).1, hc, hloop, h.tail.equals hsplit]

/-- A line that starts like a name but sets no variable is invalid. -/
theorem envNextCall_badName {c : BitVec 8} {cs : List (BitVec 8)} (h : LineAt t.buf p (c :: cs) e)
    (hc : isalpha c = true) (hvar : ¬ IsVariable (c :: cs)) :
    envNextCall t p = envNextInvalid t p := by
  have hlt := h.tail.lt
  have hloop := nameLoop_line h.tail (by omega : cs.length < t.buf.length - p) false
  have hnul : c ≠ 0#8 := (h.ne (List.mem_cons_self ..)).1
  rw [isVariable_cons_iff] at hvar
  cases hsplit : splitEnv cs with
  | none =>
      have hequals : e ≠ EQUALS := by
        rintro rfl
        exact absurd h.stop (by decide)
      simp only [hsplit] at hloop
      simp [envNextCall, h.head, hnul, hc, hloop, h.tail.cell, hequals]
  | some kv =>
      have hbad : kv.1.all isalnum = false := by
        by_contra hall
        exact hvar ⟨hc, kv, hsplit, by simpa using hall⟩
      simp only [hsplit, hbad] at hloop
      simp [envNextCall, h.head, hnul, hc, hloop, h.tail.equals hsplit]

/-- The blanks at the start of a line end in the line or behind it. -/
theorem skip_blanks (h : LineAt t.buf p line e) :
    ∃ q c, skip isblank t.buf p = some q ∧ t.buf[q]? = some c ∧
      (c ∈ line ∨ c = e ∧ q = p + line.length) := by
  have hsplit : line.takeWhile isblank ++ line.dropWhile isblank = line :=
    List.takeWhile_append_dropWhile
  have hblanks : ∀ c ∈ line.takeWhile isblank, isblank c = true :=
    List.all_eq_true.mp List.all_takeWhile
  have hholds := h.holds
  rw [← hsplit] at hholds
  obtain ⟨hfirst, hrest⟩ := holds_append.mp hholds
  cases hdrop : line.dropWhile isblank with
  | nil =>
      have hall : line.takeWhile isblank = line := by
        rw [hdrop, List.append_nil] at hsplit; exact hsplit
      rw [hall] at hfirst hblanks
      have hstop : isblank e = false := by
        rcases h.end_cases with rfl | rfl <;> decide
      exact ⟨_, e, skip_stop hfirst hblanks h.cell hstop, h.cell, Or.inr ⟨rfl, rfl⟩⟩
  | cons c cs =>
      rw [hdrop] at hrest
      have hcell := (holds_cons.mp hrest).1
      have hstop : isblank c = false := by
        have := List.head_dropWhile_not isblank (by rw [hdrop]; simp : line.dropWhile isblank ≠ [])
        simpa [hdrop] using this
      refine ⟨_, c, skip_stop hfirst hblanks hcell hstop, hcell, Or.inl ?_⟩
      rw [← hsplit, hdrop]
      simp

/-- A line that does not start like a name is passed over. -/
theorem envNextCall_noName (h : LineAt t.buf p line e) {c : BitVec 8} (hcell : t.buf[p]? = some c)
    (hnul : c ≠ 0#8) (hc : isalpha c = false) :
    ∃ printed, envNextCall t p = some (behindLine ⟨t.buf, printed⟩ (p + line.length) e) := by
  obtain ⟨q, c', hskip, hcell', hwhere⟩ := skip_blanks h
  by_cases hnewline : c' = NEWLINE
  · -- a blank line
    subst hnewline
    rcases hwhere with hmem | ⟨rfl, rfl⟩
    · exact absurd rfl (h.ne hmem).2
    · refine ⟨t.printed, ?_⟩
      simp [envNextCall, hcell, hnul, hc, hskip, hcell', behindLine, show NEWLINE ≠ 0#8 by decide]
  · by_cases hhash : c' = HASH
    · refine ⟨t.printed, ?_⟩
      subst hhash
      simp only [envNextCall, hcell, hnul, hc, hskip, hcell', hnewline, envEol_line h,
        envNextLine_eq h.cell, Option.bind_eq_bind, Option.bind_some, if_false, if_true,
        Bool.false_eq_true]
    · refine ⟨t.printed ++ [line], ?_⟩
      simp only [envNextCall, hcell, hnul, hc, hskip, hcell', hnewline, hhash,
        envNextInvalid_line h, Option.bind_eq_bind, Option.bind_some, if_false, Bool.false_eq_true]

/-- The call passes over every line that sets no variable. -/
theorem envNextCall_other (h : LineAt t.buf p line e) (hvar : ¬ IsVariable line) :
    ∃ printed, envNextCall t p = some (behindLine ⟨t.buf, printed⟩ (p + line.length) e) := by
  cases line with
  | nil =>
      have hcell : t.buf[p]? = some e := h.cell
      rcases h.end_cases with rfl | rfl
      · refine ⟨t.printed, ?_⟩
        simp [envNextCall, hcell, behindLine]
      · exact envNextCall_noName h hcell (by decide) (by decide)
  | cons c cs =>
      cases hc : isalpha c with
      | true => exact ⟨_, (envNextCall_badName h hc hvar).trans (envNextInvalid_line h)⟩
      | false => exact envNextCall_noName h h.head (h.ne (List.mem_cons_self ..)).1 hc

end Line

/-! ### The loops end -/

section Ends

variable {t : EnvText} {env : Nat}

/-- A call of `env_next` leaves the size of the text alone and moves the pointer on. -/
def Moves (t : EnvText) (env : Nat) : (EnvText × Nat) ⊕ (EnvText × Nat) → Prop
  | .inl next => next.1.buf.length = t.buf.length ∧ env < next.2
  | .inr next => next.1.buf.length = t.buf.length ∧ env ≤ next.2

theorem envNextLine_moves {t' : EnvText} {eol : Nat} {r : (EnvText × Nat) ⊕ (EnvText × Nat)}
    (hbuf : t'.buf.length = t.buf.length) (hle : env ≤ eol) (h : envNextLine t' eol = some r) :
    Moves t env r := by
  obtain ⟨c, -, rfl⟩ := Option.map_eq_some_iff.mp h
  split
  · exact ⟨hbuf, Nat.lt_succ_of_le hle⟩
  · exact ⟨hbuf, hle⟩

theorem envNextInvalid_moves {r : (EnvText × Nat) ⊕ (EnvText × Nat)}
    (h : envNextInvalid t env = some r) :
    Moves t env r := by
  obtain ⟨next, hnext, hline⟩ := Option.bind_eq_some_iff.mp h
  simp only [envInvalidEol, Option.bind_eq_bind, Option.bind_eq_some_iff, Option.pure_def,
    Option.some.injEq] at hnext
  obtain ⟨eol, heol, eolOld, -, line, -, rfl⟩ := hnext
  refine envNextLine_moves ?_ (le_of_scan heol) hline
  rw [List.length_set, List.length_set]

theorem envNextCall_moves {r : (EnvText × Nat) ⊕ (EnvText × Nat)} (h : envNextCall t env = some r) :
    env < t.buf.length ∧ Moves t env r := by
  simp only [envNextCall, Option.bind_eq_bind, Option.bind_eq_some_iff] at h
  obtain ⟨c, hcell, h⟩ := h
  refine ⟨(List.getElem?_eq_some_iff.mp hcell).1, ?_⟩
  split at h
  · cases h
    exact ⟨rfl, Nat.le_refl _⟩
  · split at h
    · simp only [Option.bind_eq_some_iff] at h
      obtain ⟨name, -, p, -, h⟩ := h
      split at h
      · exact envNextInvalid_moves h
      · cases h
        exact ⟨rfl, Nat.le_refl _⟩
    · simp only [Option.bind_eq_some_iff] at h
      obtain ⟨p, hskip, c', -, h⟩ := h
      split at h
      · cases h
        exact ⟨rfl, Nat.lt_succ_of_le (le_of_scan hskip)⟩
      · split at h
        · simp only [Option.bind_eq_some_iff] at h
          obtain ⟨eol, heol, h⟩ := h
          exact envNextLine_moves rfl (le_of_scan heol) h
        · exact envNextInvalid_moves h

/-- **`env_next` ends on every text**, with a result or with an access outside of it. -/
theorem envNext_ends (t : EnvText) (env : Nat) : ∃ result, envNext t env = some result := by
  apply Loop.tryRun_ends fun s : EnvText × Nat => s.1.buf.length - s.2
  · intro s next hcall
    obtain ⟨hlt, hbuf, hmoves⟩ := envNextCall_moves hcall
    omega
  · exact Nat.lt_succ_of_le (Nat.sub_le _ _)

theorem le_of_envNext {next : EnvText × Nat} (h : envNext t env = some (some next)) :
    env ≤ next.2 := by
  refine Loop.tryRun_keeps (fun s : EnvText × Nat => env ≤ s.2) (fun s => env ≤ s.2) ?_ ?_
    (Nat.le_refl env) h
  · intro s next hle hcall
    obtain ⟨-, -, hmoves⟩ := envNextCall_moves hcall
    omega
  · intro s result hle hcall
    obtain ⟨-, -, hmoves⟩ := envNextCall_moves hcall
    exact Nat.le_trans hle hmoves

/-- **`setup_env` ends on every text.** -/
theorem setupEnv_ends (newline : Bool) (eof : Nat) (s : EnvSetup) :
    ∃ result, Loop.tryRun (setupEnvPass newline eof) (eof + 2) s = some result := by
  apply Loop.tryRun_ends fun s : EnvSetup => eof - s.env
  · intro s s' hpass
    rw [setupEnvPass] at hpass
    split at hpass
    · next hlt =>
        simp only [Option.bind_eq_bind, Option.bind_eq_some_iff] at hpass
        obtain ⟨next, hnext, c, -, hpass⟩ := hpass
        have hle : s.env ≤ next.2 := by
          cases newline with
          | true => exact le_of_envNext (Option.join_eq_some_iff.mp hnext)
          | false =>
              cases hnext
              exact Nat.le_refl _
        split at hpass
        · cases hpass
        · split at hpass
          · simp only [Option.bind_eq_some_iff] at hpass
            obtain ⟨stop, hstop, hpass⟩ := hpass
            have hstop' := le_of_scan hstop
            split at hpass
            · cases hpass
              dsimp only
              omega
            · cases hpass
          · cases hpass
    · cases hpass
  · omega

end Ends

end AcrnGuest
