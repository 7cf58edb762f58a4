import AcrnGuest.SetupEnvRuns

/-!
# The environment of a test (`lib/x86/setup.c`, `lib/argv.c`)

`setup_libcflat` copies the initial ramdisk to the array `env` and passes it to `setup_env`.
For a text of lines followed by NUL the result is the list of its variables.

The size is limited to that of the array, and not to one less: a ramdisk that fills the
array leaves no room for a NUL behind the text. The number of entries is not limited.
-/

namespace AcrnGuest

open TextBuffer

/-! ### The source -/

def ENV_SIZE : Nat := 16384

def ENVIRON_ENTRIES : Nat := 200

def nullEnviron : List (Option Nat) := List.replicate ENVIRON_ENTRIES none

/-- `setup_libcflat`: what `__environ` holds afterwards. `initrd` is the ramdisk, or the null
pointer. -/
def setupLibcflat (initrd : Option (List (BitVec 8))) : Option (List (Option Nat)) :=
  match initrd with
  | none => some nullEnviron
  | some contents =>
      let size := min contents.length ENV_SIZE
      let env := contents.take size ++ (List.replicate ENV_SIZE 0#8).drop size
      (setupEnv env size nullEnviron).map EnvSetup.environ

/-! ### The variables of a text -/

def envVariables (text : List (BitVec 8)) : List (Nat × Piece) :=
  (numbered 0 (text.splitOn NEWLINE)).filter fun line => IsVariable line.2

section Variables

variable {text : List (BitVec 8)} {environ : List (Option Nat)}

theorem textEntries_eq_envVariables (hnul : 0#8 ∉ text) : textEntries text = envVariables text := by
  have hmode : isLines text = true := by simp [isLines, hnul]
  rw [textEntries, envPieces, hmode, envEntries_true]
  rfl

theorem EnvStored.environ_eq {buf : List (BitVec 8)} {entries : List (Nat × Piece)} {s' : EnvSetup}
    (h : EnvStored ⟨⟨buf, []⟩, nullEnviron, 0, 0⟩ entries s') :
    s'.environ = entries.map (fun entry => some entry.1) ++ List.replicate
      (ENVIRON_ENTRIES - entries.length) none := by
  rw [h.environ]
  simp [nullEnviron, List.drop_replicate]

/-- **`setup_env` lists the variables of the text**, in order and each ended by NUL. -/
theorem setupEnv_lists_variables (text rest : List (BitVec 8)) (hnul : 0#8 ∉ text)
    (hcount : (envVariables text).length ≤ 199) :
    ∃ s, setupEnv (text ++ 0#8 :: rest) text.length nullEnviron = some s ∧
      s.environ = (envVariables text).map (fun line => some line.1) ++
        List.replicate (ENVIRON_ENTRIES - (envVariables text).length) none ∧
      ∀ line ∈ envVariables text, Holds s.text.buf line.1 (line.2 ++ [0#8]) := by
  have htext : Holds (text ++ 0#8 :: rest) 0 text := holds_of_append [] (0#8 :: rest) text
  have hend : (text ++ 0#8 :: rest)[text.length]? = some 0#8 := by simp
  obtain ⟨hfit, -⟩ := setupEnv_spec nullEnviron htext (Or.inr hend)
  have hends := textEntries_end_le text
  rw [textEntries_eq_envVariables hnul] at hfit hends
  obtain ⟨s, hrun, hstored⟩ := hfit (by
    refine ⟨?_, fun entry hentry => ?_⟩
    · dsimp only [nullEnviron, ENVIRON_ENTRIES]
      rw [List.length_replicate]
      omega
    · have := hends entry hentry
      dsimp only
      rw [List.length_append, List.length_cons]
      omega)
  exact ⟨s, hrun, hstored.environ_eq, hstored.ended⟩

/-- The lines `A=1`, an empty one, `#c`, `1=2` and `_b=x`, the last one without its end. -/
def fiveLines : List (BitVec 8) :=
  [65#8, 61#8, 49#8, 10#8, 10#8, 35#8, 99#8, 10#8, 49#8, 61#8, 50#8, 10#8, 95#8, 98#8, 61#8, 120#8]

theorem setupEnv_lists_fiveLines :
    ∃ s, setupEnv (fiveLines ++ [0#8]) 16 nullEnviron = some s ∧
      s.environ = [some 0, some 12] ++ List.replicate 198 none ∧
      Holds s.text.buf 0 [65#8, 61#8, 49#8, 0#8] ∧
        Holds s.text.buf 12 [95#8, 98#8, 61#8, 120#8, 0#8] := by
  have hvariables : envVariables fiveLines =
      [(0, [65#8, 61#8, 49#8]), (12, [95#8, 98#8, 61#8, 120#8])] := by decide
  obtain ⟨s, hrun, henviron, hended⟩ :=
    setupEnv_lists_variables fiveLines [] (by decide) (by rw [hvariables]; decide)
  rw [hvariables] at henviron hended
  exact ⟨s, hrun, henviron, hended _ (List.mem_cons_self ..),
    hended _ (List.mem_cons_of_mem _ (List.mem_cons_self ..))⟩

end Variables

/-! ### The arrays -/

section Arrays

variable {contents : List (BitVec 8)}

/-- `__environ` is set up inside the arrays and ended by NULL. -/
def EnvironSafe (initrd : Option (List (BitVec 8))) : Prop :=
  ∃ environ, setupLibcflat initrd = some environ ∧ ∃ n : Nat, environ[n]? = some none

def envArray (text : List (BitVec 8)) : List (BitVec 8) :=
  text ++ List.replicate (ENV_SIZE - text.length) 0#8

theorem setupLibcflat_eq (contents : List (BitVec 8)) :
    setupLibcflat (some contents) =
      (setupEnv (envArray (contents.take ENV_SIZE)) (contents.take ENV_SIZE).length nullEnviron).map
        EnvSetup.environ := by
  have htake : contents.take (min contents.length ENV_SIZE) = contents.take ENV_SIZE := by
    rcases Nat.le_total contents.length ENV_SIZE with hle | hle
    · rw [Nat.min_eq_left hle, List.take_length, List.take_of_length_le hle]
    · rw [Nat.min_eq_right hle]
  rw [setupLibcflat, htake, envArray, List.drop_replicate, List.length_take, Nat.min_comm]

theorem exists_null_iff (entries : List (Nat × Piece)) :
    (∃ n : Nat, (entries.map (fun entry => some entry.1) ++
      List.replicate (ENVIRON_ENTRIES - entries.length) (none : Option Nat))[n]? = some none) ↔
      entries.length < ENVIRON_ENTRIES := by
  rw [← List.mem_iff_getElem?, List.mem_append, List.mem_replicate, Nat.sub_ne_zero_iff_lt]
  constructor
  · rintro (hmem | ⟨hlt, -⟩)
    · obtain ⟨entry, -, heq⟩ := List.mem_map.mp hmem
      cases heq
    · exact hlt
  · intro hlt
    exact Or.inr ⟨hlt, rfl⟩

variable {text : List (BitVec 8)}

/-- A text without NUL that fills the array is read beyond its end. -/
theorem setupEnv_envArray_eq_none (hlength : text.length = ENV_SIZE) (hnul : 0#8 ∉ text) :
    setupEnv (envArray text) text.length nullEnviron = none := by
  have hfull : envArray text = text := by
    rw [envArray, hlength, Nat.sub_self, List.replicate_zero, List.append_nil]
  have hskip : skip (· ≠ 0#8) text 0 = none := by
    refine skip_eq_none (fun c hc => ?_) (Nat.zero_le _)
    have hne : c ≠ 0#8 := by
      rintro rfl
      exact hnul hc
    simp [hne]
  rw [setupEnv, hfull, hskip]
  rfl

theorem fits_envArray_iff (hlength : text.length ≤ ENV_SIZE) :
    Fits ⟨⟨envArray text, []⟩, nullEnviron, 0, 0⟩ (textEntries text) ↔
      (textEntries text).length ≤ 200 ∧ ∀ entry ∈ textEntries text,
        entry.1 + entry.2.length < ENV_SIZE := by
  have hbuf : (envArray text).length = ENV_SIZE := by
    rw [envArray, List.length_append, List.length_replicate]
    omega
  rw [Fits, hbuf, Nat.zero_add]
  rfl

/-- If the first loop finds a NUL, what remains is the room for the entries and for a NULL behind
them. -/
theorem setupEnv_envArray_iff (hlength : text.length ≤ ENV_SIZE)
    (hfind : text.length < ENV_SIZE ∨ 0#8 ∈ text) :
    (∃ s, setupEnv (envArray text) text.length nullEnviron = some s ∧ ∃ n : Nat,
      s.environ[n]? = some none) ↔
      (∀ entry ∈ textEntries text, entry.1 + entry.2.length < ENV_SIZE) ∧
        (textEntries text).length ≤ 199 := by
  have hholds : Holds (envArray text) 0 text := holds_of_append [] _ text
  have hend : 0#8 ∈ text ∨ (envArray text)[text.length]? = some 0#8 := by
    refine hfind.symm.imp_right fun hlt => ?_
    rw [envArray, List.getElem?_append_right (Nat.le_refl _), Nat.sub_self, List.getElem?_replicate,
      if_pos (by omega)]
  obtain ⟨hfit, hunfit⟩ := setupEnv_spec nullEnviron hholds hend
  rw [fits_envArray_iff hlength] at hfit hunfit
  constructor
  · rintro ⟨s, hrun, hnull⟩
    by_cases hfits : (textEntries text).length ≤ 200 ∧
        ∀ entry ∈ textEntries text, entry.1 + entry.2.length < ENV_SIZE
    · obtain ⟨s', hrun', hstored⟩ := hfit hfits
      obtain rfl := Option.some.inj (hrun.symm.trans hrun')
      rw [hstored.environ_eq, exists_null_iff] at hnull
      exact ⟨hfits.2, Nat.le_of_lt_succ hnull⟩
    · rw [hunfit hfits] at hrun
      cases hrun
  · rintro ⟨hends, hcount⟩
    obtain ⟨s, hrun, hstored⟩ := hfit ⟨Nat.le_succ_of_le hcount, hends⟩
    refine ⟨s, hrun, ?_⟩
    rw [hstored.environ_eq, exists_null_iff]
    exact Nat.lt_succ_of_le hcount

theorem environSafe_some_iff (contents : List (BitVec 8)) :
    EnvironSafe (some contents) ↔
      ∃ s, setupEnv (envArray (contents.take ENV_SIZE))
        (contents.take ENV_SIZE).length nullEnviron = some s ∧
        ∃ n : Nat, s.environ[n]? = some none := by
  rw [EnvironSafe, setupLibcflat_eq]
  constructor
  · rintro ⟨environ, hrun, hnull⟩
    obtain ⟨s, hs, rfl⟩ := Option.map_eq_some_iff.mp hrun
    exact ⟨s, hs, hnull⟩
  · rintro ⟨s, hs, hnull⟩
    exact ⟨s.environ, Option.map_eq_some_iff.mpr ⟨s, hs, rfl⟩, hnull⟩

/-- **The arrays are kept** exactly if the first loop finds a NUL in the array, each entry ends
inside of it and there are at most 199 entries. -/
theorem environSafe_iff (initrd : Option (List (BitVec 8))) :
    EnvironSafe initrd ↔
      ∀ contents, initrd = some contents →
        (contents.length < ENV_SIZE ∨ 0#8 ∈ contents.take ENV_SIZE) ∧
        (∀ entry ∈ textEntries (contents.take ENV_SIZE), entry.1 + entry.2.length < ENV_SIZE) ∧
        (textEntries (contents.take ENV_SIZE)).length ≤ 199 := by
  cases initrd with
  | none =>
      refine iff_of_true ⟨nullEnviron, rfl, 0, rfl⟩ ?_
      rintro contents ⟨⟩
  | some contents =>
      have hlength : (contents.take ENV_SIZE).length = min ENV_SIZE contents.length :=
        List.length_take
      have hshort : contents.length < ENV_SIZE ↔
          (contents.take ENV_SIZE).length < ENV_SIZE := by omega
      simp only [Option.some.injEq, forall_eq']
      rw [environSafe_some_iff, hshort]
      by_cases hfind : (contents.take ENV_SIZE).length < ENV_SIZE ∨ 0#8 ∈ contents.take ENV_SIZE
      · rw [setupEnv_envArray_iff (by omega) hfind]
        exact (and_iff_right hfind).symm
      · push Not at hfind
        rw [setupEnv_envArray_eq_none (by omega) hfind.2]
        refine iff_of_false ?_ fun hright => ?_
        · rintro ⟨s, ⟨⟩, -⟩
        · rcases hright.1 with hlt | hmem
          · omega
          · exact hfind.2 hmem

def manyStrings : List (BitVec 8) := (List.replicate 200 [65#8, 0#8]).flatten

/-- **The slips**: a ramdisk that fills the array with letters is read beyond the end of the array,
and 200 short strings leave no room for the NULL. -/
theorem environ_not_safe :
    (setupLibcflat (some (List.replicate ENV_SIZE 65#8)) = none ∧
      ¬ EnvironSafe (some (List.replicate ENV_SIZE 65#8))) ∧
    ¬ EnvironSafe (some manyStrings) := by
  have htake : (List.replicate ENV_SIZE 65#8).take ENV_SIZE = List.replicate ENV_SIZE 65#8 := by
    rw [List.take_replicate, Nat.min_self]
  have hnone : setupLibcflat (some (List.replicate ENV_SIZE 65#8)) = none := by
    rw [setupLibcflat_eq, htake, setupEnv_envArray_eq_none List.length_replicate]
    · rfl
    · intro hmem
      exact absurd (List.eq_of_mem_replicate hmem) (by decide)
  refine ⟨⟨hnone, ?_⟩, ?_⟩
  · rintro ⟨environ, henviron, -⟩
    rw [hnone] at henviron
    cases henviron
  · have hlength : manyStrings.length < ENV_SIZE := by decide +kernel
    rw [environSafe_some_iff, List.take_of_length_le (Nat.le_of_lt hlength),
      setupEnv_envArray_iff (Nat.le_of_lt hlength) (Or.inl hlength)]
    rintro ⟨-, hcount⟩
    exact absurd hcount (by decide +kernel)

end Arrays

end AcrnGuest
