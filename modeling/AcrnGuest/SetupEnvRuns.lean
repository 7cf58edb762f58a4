import AcrnGuest.SetupEnv

/-!
# The runs of `setup_env` (`lib/argv.c`)

The text is a sequence of pieces: its lines, or its strings if there is a NUL in it. Each
pass of the loop takes the next piece that is an entry, stores its address and ends it with
NUL. A run stores the entries in order, and it comes through exactly if `__environ` has
room for them and each of them ends inside the array.
-/

namespace AcrnGuest

open TextBuffer

abbrev Piece := List (BitVec 8)

def separator (newline : Bool) : BitVec 8 := if newline then NEWLINE else 0#8

def nextEntry (newline : Bool) : Nat → List Piece → Option (Nat × Piece × List Piece)
  | _, [] => none
  | p, piece :: more =>
      if newline then
        if IsVariable piece then some (p, piece, more)
          else nextEntry newline (p + piece.length + 1) more
      else if piece = [] then none else some (p, piece, more)

/-- The entries: the lines that set a variable, or the strings before the first empty one. -/
def envEntries (newline : Bool) : Nat → List Piece → List (Nat × Piece)
  | _, [] => []
  | p, piece :: more =>
      if newline then
        if IsVariable piece then (p, piece) :: envEntries newline (p + piece.length + 1) more
        else envEntries newline (p + piece.length + 1) more
      else if piece = [] then []
      else (p, piece) :: envEntries newline (p + piece.length + 1) more

section Entries

variable {newline : Bool} {buf : List (BitVec 8)} {eof p q : Nat} {pieces more : List Piece}
  {piece : Piece}

theorem envEntries_eq_nextEntry :
    envEntries newline p pieces =
      match nextEntry newline p pieces with
      | some (q, piece, more) => (q, piece) :: envEntries newline (q + piece.length + 1) more
      | none => [] := by
  induction pieces generalizing p with
  | nil => rfl
  | cons piece more ih =>
      rw [envEntries, nextEntry]
      split
      · split
        · rfl
        · exact ih
      · split
        · rfl
        · rfl

/-- The lines that set a variable. -/
theorem envEntries_true :
    envEntries true p pieces = (numbered p pieces).filter fun entry => IsVariable entry.2 := by
  induction pieces generalizing p with
  | nil => rfl
  | cons piece more ih =>
      by_cases hvar : IsVariable piece
      · simp [envEntries, numbered, hvar, ih]
      · simp [envEntries, numbered, hvar, ih]

/-- The next entry is the first piece, or in a text of lines one behind a line that sets no
variable. -/
theorem nextEntry_cons_cases {first : Piece} {rest : List Piece}
    (h : nextEntry newline p (first :: rest) = some (q, piece, more)) :
    (q = p ∧ piece = first ∧ more = rest ∧ first ≠ []) ∨
      nextEntry newline (p + first.length + 1) rest = some (q, piece, more) := by
  rw [nextEntry] at h
  split at h
  · split at h
    · next hvar =>
        cases h
        refine Or.inl ⟨rfl, rfl, rfl, ?_⟩
        rintro rfl
        exact absurd hvar (by decide)
    · exact Or.inr h
  · split at h
    · cases h
    · next hne =>
        cases h
        exact Or.inl ⟨rfl, rfl, rfl, hne⟩

theorem nextEntry_ne_nil (h : nextEntry newline p pieces = some (q, piece, more)) : piece ≠ [] := by
  induction pieces generalizing p with
  | nil => cases h
  | cons first rest ih =>
      rcases nextEntry_cons_cases h with ⟨-, rfl, -, hne⟩ | hrest
      · exact hne
      · exact ih hrest

/-- The next entry and the pieces behind it are the end of the pieces. -/
theorem nextEntry_lines {sep : BitVec 8} (hlines : Lines buf sep eof p pieces)
    (h : nextEntry newline p pieces = some (q, piece, more)) :
    Lines buf sep eof q (piece :: more) ∧ piece :: more <:+ pieces ∧ p ≤ q := by
  induction hlines with
  | past _ => cases h
  | @last p s hs hsep hend =>
      rcases nextEntry_cons_cases h with ⟨rfl, rfl, rfl, -⟩ | hrest
      · exact ⟨.last hs hsep hend, List.suffix_refl _, Nat.le_refl _⟩
      · cases hrest
  | @cons p s rest hs hsep hcell hlt hmore ih =>
      rcases nextEntry_cons_cases h with ⟨rfl, rfl, rfl, -⟩ | hrest
      · exact ⟨.cons hs hsep hcell hlt hmore, List.suffix_refl _, Nat.le_refl _⟩
      · obtain ⟨hfound, hsuffix, hle⟩ := ih hrest
        exact ⟨hfound, hsuffix.trans (List.suffix_cons ..), by omega⟩

theorem mem_envEntries_cons {first : Piece} {rest : List Piece} {entry : Nat × Piece}
    (h : entry ∈ envEntries newline p (first :: rest)) :
    entry = (p, first) ∨ entry ∈ envEntries newline (p + first.length + 1) rest := by
  rw [envEntries] at h
  split at h
  · split at h
    · exact List.mem_cons.mp h
    · exact Or.inr h
  · split at h
    · cases h
    · exact List.mem_cons.mp h

end Entries

/-! ### `env_next` -/

/-- `env_next` goes to the next line that sets a variable, or to the end of the text. -/
theorem run_envNext {buf : List (BitVec 8)} {eof p bound : Nat} {pieces : List Piece}
    (hlines : Lines buf NEWLINE eof p pieces) (hpieces : pieces ≠ [])
    (hchars : ∀ piece ∈ pieces, ∀ c ∈ piece, lineChar true c = true) (hnul : buf[eof]? = some 0#8)
    (hbound : pieces.length ≤ bound) (printed : List Piece) :
    ∃ printed', Loop.tryRun (fun s : EnvText × Nat => envNextCall s.1 s.2) bound
      (⟨buf, printed⟩, p) =
      some (some (⟨buf, printed'⟩, ((nextEntry true p pieces).map Prod.fst).getD eof)) := by
  induction hlines generalizing bound printed with
  | past _ => exact absurd rfl hpieces
  | @last p s hs hsep hend =>
      obtain ⟨bound, rfl⟩ := Nat.exists_eq_add_one_of_ne_zero (Nat.ne_of_gt hbound)
      have hline : LineAt buf p s 0#8 :=
        ⟨hs, hchars s (List.mem_singleton_self s), hend ▸ hnul, by decide⟩
      by_cases hvar : IsVariable s
      · refine ⟨printed, ?_⟩
        rw [Loop.tryRun_done (envNextCall_variable hline hvar)]
        simp [nextEntry, hvar]
      · obtain ⟨printed', hcall⟩ := envNextCall_other (t := ⟨buf, printed⟩) hline hvar
        refine ⟨printed', ?_⟩
        rw [Loop.tryRun_done hcall]
        simp [nextEntry, hvar, hend]
  | @cons p s rest hs hsep hcell hlt hmore ih =>
      obtain ⟨bound, rfl⟩ := Nat.exists_eq_add_one_of_ne_zero
        (Nat.ne_of_gt (Nat.zero_lt_of_lt hbound))
      have hline : LineAt buf p s NEWLINE :=
        ⟨hs, hchars s (List.mem_cons_self ..), hcell, by decide⟩
      by_cases hvar : IsVariable s
      · refine ⟨printed, ?_⟩
        rw [Loop.tryRun_done (envNextCall_variable hline hvar)]
        simp [nextEntry, hvar]
      · obtain ⟨printed₁, hcall⟩ := envNextCall_other (t := ⟨buf, printed⟩) hline hvar
        obtain ⟨printed', hrun⟩ :=
          ih (hmore.ne_nil hlt) (fun piece hpiece => hchars piece (List.mem_cons_of_mem s hpiece))
          (Nat.le_of_succ_le_succ hbound) printed₁
        refine ⟨printed', ?_⟩
        rw [Loop.tryRun_next hcall, hrun]
        simp [nextEntry, hvar]

/-! ### One pass -/

section Pass

variable {newline : Bool} {eof q : Nat} {s : EnvSetup} {pieces more : List Piece} {piece : Piece}

/-- The pieces that are left to the loop. -/
structure EnvRest (newline : Bool) (eof : Nat) (s : EnvSetup) (pieces : List Piece) : Prop where
  lines : Lines s.text.buf (separator newline) eof s.env pieces
  chars : ∀ piece ∈ pieces, ∀ c ∈ piece, lineChar newline c = true
  nul : newline = true → s.text.buf[eof]? = some 0#8

theorem lineChar_separator (newline : Bool) : lineChar newline (separator newline) = false := by
  cases newline <;> decide

theorem EnvRest.next (h : EnvRest newline eof s pieces) (hlt : s.env < eof) :
    ∃ printed, setupEnvNext newline s =
      some (⟨s.text.buf, printed⟩,
        if newline then ((nextEntry true s.env pieces).map Prod.fst).getD eof else s.env) := by
  cases newline with
  | false => exact ⟨s.text.printed, rfl⟩
  | true =>
      obtain ⟨hin, -⟩ := List.getElem?_eq_some_iff.mp (h.nul rfl)
      have hbound : pieces.length ≤ s.text.buf.length + 1 := by
        have := h.lines.length_le
        omega
      obtain ⟨printed, hrun⟩ :=
        run_envNext h.lines (h.lines.ne_nil (Nat.le_of_lt hlt)) h.chars (h.nul rfl) hbound
        s.text.printed
      refine ⟨printed, ?_⟩
      simp only [setupEnvNext, envNext, if_true]
      rw [hrun]
      rfl

def storeEntry (s : EnvSetup) (printed : List Piece) (q : Nat) (piece : Piece) : EnvSetup where
  text := ⟨s.text.buf.set (q + piece.length) 0#8, printed⟩
  environ := s.environ.set s.i (some q)
  i := s.i + 1
  env := q + piece.length + 1

/-- **A pass stores the next entry** if there is room for its address and its end. -/
theorem EnvRest.pass (h : EnvRest newline eof s pieces)
    (hnext : nextEntry newline s.env pieces = some (q, piece, more)) :
    ∃ printed, setupEnvPass newline eof s =
      if s.i < s.environ.length ∧ q + piece.length < s.text.buf.length then
        some (.inl (storeEntry s printed q piece))
      else none := by
  obtain ⟨hlines, hsuffix, hle⟩ := nextEntry_lines h.lines hnext
  have hpiece : ∀ c ∈ piece, lineChar newline c = true :=
    h.chars piece (hsuffix.mem (List.mem_cons_self ..))
  have hne := nextEntry_ne_nil hnext
  have hpos := List.length_pos_of_ne_nil hne
  -- the loop over the entry ends where the entry ends
  have hscan : Holds s.text.buf q piece ∧ q < eof ∧
      scan (lineChar newline) s.text.buf (eof - q) q = some (q + piece.length) := by
    cases hlines with
    | last hs hsep hend =>
        refine ⟨hs, by omega, ?_⟩
        rw [← hend, Nat.add_sub_cancel_left]
        exact scan_all hs hpiece
    | cons hs hsep hcell hlt hmore =>
        exact ⟨hs, by omega, scan_stop hs hpiece hcell (lineChar_separator newline) (by omega)⟩
  obtain ⟨hholds, hlt, hstop⟩ := hscan
  obtain ⟨printed, hpointer⟩ := h.next (Nat.lt_of_le_of_lt hle hlt)
  have hq : (if newline then ((nextEntry true s.env pieces).map Prod.fst).getD eof
      else s.env) = q := by
    cases newline with
    | true => simp [hnext]
    | false =>
        cases pieces with
        | nil => cases hnext
        | cons piece' more' =>
            simp only [nextEntry, Bool.false_eq_true, if_false] at hnext ⊢
            split at hnext
            · cases hnext
            · exact congrArg Prod.fst (Option.some.inj hnext)
  rw [hq] at hpointer
  refine ⟨printed, ?_⟩
  obtain ⟨c, cs, rfl⟩ := List.exists_cons_of_ne_nil hne
  have hcell : s.text.buf[q]? = some c := (holds_cons.mp hholds).1
  have hnul : c ≠ 0#8 := by
    rintro rfl
    have := hpiece 0#8 (List.mem_cons_self ..)
    simp [lineChar] at this
  have hgo : ¬ (c = 0#8 ∨ eof ≤ q) := by
    rintro (hc | hq')
    · exact hnul hc
    · omega
  rw [setupEnvPass, if_pos (Nat.lt_of_le_of_lt hle hlt), hpointer]
  simp only [Option.bind_eq_bind, Option.bind_some, hcell, if_neg hgo, hstop]
  by_cases hi : s.i < s.environ.length
  · simp only [hi, if_true, true_and]
    rfl
  · simp [hi]

/-- What is left after the pass. -/
theorem EnvRest.stored (h : EnvRest newline eof s pieces)
    (hnext : nextEntry newline s.env pieces = some (q, piece, more))
    (hin : q + piece.length < s.text.buf.length) (printed : List Piece) :
    EnvRest newline eof (storeEntry s printed q piece) more := by
  obtain ⟨hlines, hsuffix, -⟩ := nextEntry_lines h.lines hnext
  refine ⟨?_, fun piece' hpiece' =>
    h.chars piece' (hsuffix.mem (List.mem_cons_of_mem _ hpiece')), ?_⟩
  · cases hlines with
    | last _ _ hend => exact .past (Nat.lt_succ_of_le (Nat.le_of_eq hend.symm))
    | cons _ _ _ _ hmore => exact hmore.set (Nat.lt_succ_self _) 0#8
  · intro hnewline
    by_cases hsame : q + piece.length = eof
    · rw [← hsame]
      exact List.getElem?_set_self hin
    · exact (List.getElem?_set_ne hsame).trans (h.nul hnewline)

/-- Without a next entry the loop ends. -/
theorem EnvRest.pass_done (h : EnvRest newline eof s pieces)
    (hnext : nextEntry newline s.env pieces = none) :
    ∃ s', setupEnvPass newline eof s = some (.inr s') ∧ s'.environ = s.environ ∧
      s'.text.buf = s.text.buf := by
  by_cases hlt : s.env < eof
  · obtain ⟨printed, hpointer⟩ := h.next hlt
    have hnul : ∃ p, (if newline then ((nextEntry true s.env pieces).map Prod.fst).getD eof
        else s.env) = p ∧
        s.text.buf[p]? = some 0#8 := by
      cases newline with
      | true =>
          refine ⟨eof, ?_, h.nul rfl⟩
          simp [hnext]
      | false =>
          refine ⟨s.env, rfl, ?_⟩
          obtain ⟨piece, more, rfl⟩ :=
            List.exists_cons_of_ne_nil (h.lines.ne_nil (Nat.le_of_lt hlt))
          have hempty : piece = [] := by simpa [nextEntry] using hnext
          subst hempty
          cases h.lines with
          | last _ _ hend => exact absurd hend (Nat.ne_of_lt hlt)
          | cons _ _ hcell _ _ => exact hcell
    obtain ⟨p, hp, hcell⟩ := hnul
    rw [hp] at hpointer
    refine ⟨{ s with text := ⟨s.text.buf, printed⟩, env := p }, ?_, rfl, rfl⟩
    rw [setupEnvPass, if_pos hlt, hpointer]
    simp [hcell]
  · exact ⟨s, if_neg hlt, rfl, rfl⟩

end Pass

/-! ### The whole run -/

section Run

variable {newline : Bool} {eof bound q : Nat} {s s' : EnvSetup} {pieces : List Piece}
  {piece : Piece} {entries : List (Nat × Piece)}

/-- There is room for the addresses and for the ends of the entries. -/
def Fits (s : EnvSetup) (entries : List (Nat × Piece)) : Prop :=
  s.i + entries.length ≤ s.environ.length ∧ ∀ entry ∈ entries,
    entry.1 + entry.2.length < s.text.buf.length

theorem fits_cons (printed : List Piece) :
    Fits s ((q, piece) :: entries) ↔
      (s.i < s.environ.length ∧ q + piece.length < s.text.buf.length) ∧
        Fits (storeEntry s printed q piece) entries := by
  simp only [Fits, storeEntry, List.length_cons, List.length_set, List.forall_mem_cons]
  constructor
  · rintro ⟨hroom, hfirst, hrest⟩
    exact ⟨⟨by omega, hfirst⟩, by omega, hrest⟩
  · rintro ⟨⟨-, hfirst⟩, hroom, hrest⟩
    exact ⟨by omega, hfirst, hrest⟩

/-- The run stored the entries: their addresses are in `__environ`, and each is ended by NUL. -/
structure EnvStored (s : EnvSetup) (entries : List (Nat × Piece)) (s' : EnvSetup) : Prop where
  environ : s'.environ =
    s.environ.take s.i ++ entries.map (fun entry => some entry.1) ++
      s.environ.drop (s.i + entries.length)
  ended : ∀ entry ∈ entries, Holds s'.text.buf entry.1 (entry.2 ++ [0#8])
  before : ∀ k, k < s.env → s'.text.buf[k]? = s.text.buf[k]?

theorem EnvStored.cons {printed : List Piece} (hi : s.i < s.environ.length)
    (hholds : Holds s.text.buf q piece) (hin : q + piece.length < s.text.buf.length)
    (hle : s.env ≤ q) (h : EnvStored (storeEntry s printed q piece) entries s') :
    EnvStored s ((q, piece) :: entries) s' where
  environ := by
    rw [h.environ]
    simp only [storeEntry, List.map_cons, List.length_cons]
    rw [List.take_add_one, List.take_set_of_le (Nat.le_refl _), List.getElem?_set_self hi,
      List.drop_set_of_lt (by omega), Nat.add_right_comm s.i 1, Nat.add_assoc s.i]
    simp
  ended := by
    intro entry hentry
    rcases List.mem_cons.mp hentry with rfl | hrest
    · -- the later passes write behind this entry
      have hstored : Holds (storeEntry s printed q piece).text.buf q (piece ++ [0#8]) :=
        holds_append.mpr ⟨hholds.set (Or.inr (Nat.le_refl _)),
          holds_singleton.mpr (List.getElem?_set_self hin)⟩
      intro k hk
      rw [h.before (q + k)]
      · exact hstored k hk
      · rw [List.length_append, List.length_singleton] at hk
        exact Nat.lt_of_lt_of_le (Nat.add_lt_add_left hk q) (Nat.le_refl _)
    · exact h.ended entry hrest
  before := by
    intro k hk
    rw [h.before k (Nat.lt_succ_of_le (by omega))]
    exact List.getElem?_set_ne (by omega)

/-- **The run stores the entries exactly if they fit**, and leaves the arrays otherwise. -/
theorem EnvRest.run (h : EnvRest newline eof s pieces) (hi : s.i ≤ s.environ.length)
    (hbound : pieces.length < bound) :
    (Fits s (envEntries newline s.env pieces) →
      ∃ s', Loop.tryRun (setupEnvPass newline eof) bound s = some (some s') ∧
        EnvStored s (envEntries newline s.env pieces) s') ∧
    (¬ Fits s (envEntries newline s.env pieces) →
      Loop.tryRun (setupEnvPass newline eof) bound s = some none) := by
  induction bound generalizing s pieces with
  | zero => exact absurd hbound (Nat.not_lt_zero _)
  | succ bound ih =>
      rw [envEntries_eq_nextEntry]
      cases hnext : nextEntry newline s.env pieces with
      | none =>
          obtain ⟨s', hpass, henviron, hbuf⟩ := h.pass_done hnext
          refine ⟨fun _ => ⟨s', Loop.tryRun_done hpass bound, ?_, by simp, fun k _ => by rw [hbuf]⟩,
            ?_⟩
          · simp [henviron]
          · intro hfits
            exact absurd ⟨by simpa using hi, by simp⟩ hfits
      | some next =>
          obtain ⟨q, piece, more⟩ := next
          obtain ⟨printed, hpass⟩ := h.pass hnext
          obtain ⟨hlines, hsuffix, hle⟩ := nextEntry_lines h.lines hnext
          have hshorter : more.length < bound := by
            have := hsuffix.length_le
            rw [List.length_cons] at this
            omega
          dsimp only
          rw [fits_cons printed]
          by_cases hroom : s.i < s.environ.length ∧ q + piece.length < s.text.buf.length
          · rw [if_pos hroom] at hpass
            have hi' : (storeEntry s printed q piece).i ≤
                (storeEntry s printed q piece).environ.length := by
              simp only [storeEntry, List.length_set]
              exact hroom.1
            obtain ⟨hfit, hunfit⟩ := ih (h.stored hnext hroom.2 printed) hi' hshorter
            rw [Loop.tryRun_next hpass]
            constructor
            · rintro ⟨-, hfits⟩
              obtain ⟨s', hrun, hstored⟩ := hfit hfits
              exact ⟨s', hrun, hstored.cons hroom.1 hlines.holds_head hroom.2 hle⟩
            · intro hfits
              exact hunfit fun hrest => hfits ⟨hroom, hrest⟩
          · rw [if_neg hroom] at hpass
            rw [Loop.tryRun_fail hpass]
            exact ⟨fun hfits => absurd hfits.1 hroom, fun _ => rfl⟩

end Run

/-! ### The text -/

section Text

variable {newline : Bool} {buf text : List (BitVec 8)} {eof p : Nat} {pieces : List Piece}
  {environ : List (Option Nat)}

theorem envEntries_end_le {sep : BitVec 8} (hlines : Lines buf sep eof p pieces) :
    ∀ entry ∈ envEntries newline p pieces, entry.1 + entry.2.length ≤ eof := by
  induction hlines with
  | past _ => simp [envEntries]
  | last hs hsep hend =>
      intro entry hentry
      rcases mem_envEntries_cons hentry with rfl | hrest
      · exact Nat.le_of_eq hend
      · cases hrest
  | cons hs hsep hcell hlt hmore ih =>
      intro entry hentry
      rcases mem_envEntries_cons hentry with rfl | hrest
      · exact Nat.le_of_lt hlt
      · exact ih entry hrest

def isLines (text : List (BitVec 8)) : Bool := 0#8 ∉ text

def envPieces (text : List (BitVec 8)) : List Piece := text.splitOn (separator (isLines text))

/-- The first loop of `setup_env` tells the two kinds of texts apart. -/
theorem skip_text (h : Holds buf 0 text) (hend : 0#8 ∈ text ∨ buf[text.length]? = some 0#8) :
    ∃ p, skip (· ≠ 0#8) buf 0 = some p ∧ (decide (p = text.length)) = isLines text := by
  by_cases hmem : 0#8 ∈ text
  · obtain ⟨s, rest, rfl, hs⟩ := List.eq_append_cons_of_mem hmem
    obtain ⟨hfirst, hrest⟩ := holds_append.mp h
    refine ⟨0 + s.length, skip_stop hfirst ?_ (holds_cons.mp hrest).1 (by decide), ?_⟩
    · intro c hc
      exact decide_eq_true (ne_of_mem_of_not_mem hc hs)
    · simp [isLines]
  · have hcell : buf[0 + text.length]? = some 0#8 := by
      rw [Nat.zero_add]
      exact hend.resolve_left hmem
    refine ⟨0 + text.length, skip_stop h ?_ hcell (by decide), ?_⟩
    · intro c hc
      exact decide_eq_true (ne_of_mem_of_not_mem hc hmem)
    · simp [isLines, hmem]

theorem envRest_start (h : Holds buf 0 text) (hend : 0#8 ∈ text ∨ buf[text.length]? = some 0#8) :
    EnvRest (isLines text) text.length ⟨⟨buf, []⟩, environ, 0, 0⟩ (envPieces text) where
  lines := by
    have hlines := lines_splitOn (separator (isLines text)) h
    rwa [Nat.zero_add] at hlines
  chars := by
    intro piece hpiece c hc
    obtain ⟨htext, hsep⟩ := mem_splitOn hpiece hc
    by_cases hmem : 0#8 ∈ text
    · have hmode : isLines text = false := by simp [isLines, hmem]
      rw [hmode] at hsep ⊢
      simpa [lineChar, separator] using hsep
    · have hmode : isLines text = true := by simp [isLines, hmem]
      rw [hmode] at hsep ⊢
      exact lineChar_true_iff.mpr ⟨ne_of_mem_of_not_mem htext hmem, hsep⟩
  nul := by
    intro hmode
    apply hend.resolve_left
    simpa [isLines] using hmode

def textEntries (text : List (BitVec 8)) : List (Nat × Piece) :=
  envEntries (isLines text) 0 (envPieces text)

theorem textEntries_end_le (text : List (BitVec 8)) :
    ∀ entry ∈ textEntries text, entry.1 + entry.2.length ≤ text.length := by
  have hlines := lines_splitOn (separator (isLines text)) (holds_of_append [] [] text)
  rw [List.nil_append, List.append_nil, List.length_nil, Nat.zero_add] at hlines
  exact envEntries_end_le hlines

/-- **`setup_env` stores the entries of the text exactly if they fit.** -/
theorem setupEnv_spec (environ : List (Option Nat)) (h : Holds buf 0 text)
    (hend : 0#8 ∈ text ∨ buf[text.length]? = some 0#8) :
    let start : EnvSetup := ⟨⟨buf, []⟩, environ, 0, 0⟩
    (Fits start (textEntries text) →
      ∃ s', setupEnv buf text.length environ = some s' ∧ EnvStored start (textEntries text) s') ∧
    (¬ Fits start (textEntries text) → setupEnv buf text.length environ = none) := by
  intro start
  obtain ⟨p, hskip, hmode⟩ := skip_text h hend
  have hrest : EnvRest (isLines text) text.length start (envPieces text) := envRest_start h hend
  have hbound : (envPieces text).length < text.length + 2 := Nat.lt_succ_of_le hrest.lines.length_le
  obtain ⟨hfit, hunfit⟩ := hrest.run (Nat.zero_le _) hbound
  have hsetup : setupEnv buf text.length environ =
      (Loop.tryRun (setupEnvPass (isLines text) text.length) (text.length + 2) start).join := by
    rw [setupEnv, hskip, ← hmode]
    rfl
  rw [hsetup]
  constructor
  · intro hfits
    obtain ⟨s', hrun, hstored⟩ := hfit hfits
    exact ⟨s', by rw [hrun]; rfl, hstored⟩
  · intro hfits
    rw [hunfit hfits]
    rfl

end Text

end AcrnGuest
