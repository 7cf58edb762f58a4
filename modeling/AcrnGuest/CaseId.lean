import AcrnGuest.StringCopies

/-!
# The id of a test case (`lib/x86/misc.c`)

`get_case_id` copies the only argument of a test into a buffer of `MAX_CASE_ID_LEN`
characters. A longer argument is reported and the buffer is emptied, but the function goes
on and copies the argument all the same.
-/

namespace AcrnGuest

def MAX_CASE_ID_LEN : Nat := 201

def CASE_ID_TOO_LONG : CString :=
  ⟨"Error:input case-id is too much longer than %d\n\r".toList.map ch, by decide⟩

/-- `get_case_id`: the memory afterwards and the calls of `printf`. `av` is `none` for the null
pointer. There is no result if an assertion fails or if `av[0]` is not in the array. -/
def getCaseId (mem : Nat → BitVec 8) (ac : BitVec 32) (av : Option (List Nat)) (caseId : Nat) :
    Option ((Nat → BitVec 8) × List (CString × List VaArg)) := do
  if caseId = 0 then none
  else
    let av ← av
    if ac = 1#32 then
      let arg ← av.head?
      let length ← strlen mem arg
      let (mem, printed) :=
        if length > MAX_CASE_ID_LEN - 1 then
          (Function.update mem caseId 0#8,
            [(CASE_ID_TOO_LONG, [.word (BitVec.ofNat 32 MAX_CASE_ID_LEN)])])
        else (mem, [])
      let mem ← strcpy mem caseId arg
      some (mem, printed)
    else some (Function.update mem caseId 0#8, [])

/-- If there is a single argument, it is the string `s`, apart from the buffer for the id. -/
structure SingleArg (mem : Nat → BitVec 8) (av : List Nat) (caseId : Nat)
    (s : List (BitVec 8)) (arg : Nat) :
    Prop where
  head : av.head? = some arg
  text : StringAt mem arg s
  ends : s.length < LOOP_BOUND
  apart : arg + s.length < caseId ∨ caseId + MAX_CASE_ID_LEN ≤ arg

/-- The buffer holds the string `s`, and nothing was written behind it. -/
structure CaseIdStored (mem mem' : Nat → BitVec 8) (caseId : Nat) (s : List (BitVec 8)) : Prop where
  text : StringAt mem' caseId s
  outside : ∀ i, i < caseId ∨ caseId + MAX_CASE_ID_LEN ≤ i → mem' i = mem i

def caseIdOf (ac : BitVec 32) (s : List (BitVec 8)) : List (BitVec 8) :=
  if ac = 1#32 ∧ s.length < MAX_CASE_ID_LEN then s else []

section CaseId

variable {mem mem' : Nat → BitVec 8} {ac : BitVec 32} {av : List Nat} {caseId arg : Nat}
  {s : List (BitVec 8)}

theorem getCaseId_single (hcaseId : caseId ≠ 0) (h : SingleArg mem av caseId s arg) :
    ∃ printed, getCaseId mem 1#32 (some av) caseId =
      some (writeText mem caseId (s ++ [0#8]), printed) := by
  have hapart : caseId < arg ∨ arg + s.length < caseId := by
    have hrange := h.apart
    unfold MAX_CASE_ID_LEN at hrange
    omega
  have hcall : getCaseId mem 1#32 (some av) caseId =
      if s.length > MAX_CASE_ID_LEN - 1 then
        (strcpy (Function.update mem caseId 0#8) caseId arg).map
          (·, [(CASE_ID_TOO_LONG, [.word (BitVec.ofNat 32 MAX_CASE_ID_LEN)])])
      else (strcpy mem caseId arg).map (·, []) := by
    simp only [getCaseId, if_neg hcaseId, Option.bind_eq_bind, Option.bind_some, if_true, h.head,
      strlen_eq h.text h.ends]
    split
    · cases strcpy (Function.update mem caseId 0#8) caseId arg <;> rfl
    · cases strcpy mem caseId arg <;> rfl
  rw [hcall]
  split
  · rw [strcpy_eq (h.text.update (by omega) 0#8) h.ends hapart, writeText_update (by simp)]
    exact ⟨_, rfl⟩
  · rw [strcpy_eq h.text h.ends hapart]
    exact ⟨_, rfl⟩

theorem getCaseId_other (hcaseId : caseId ≠ 0) (hac : ac ≠ 1#32) (av : List Nat) :
    getCaseId mem ac (some av) caseId = some (Function.update mem caseId 0#8, []) := by
  simp only [getCaseId, if_neg hcaseId, Option.bind_eq_bind, Option.bind_some, if_neg hac]

theorem caseIdStored_nil (mem : Nat → BitVec 8) (caseId : Nat) :
    CaseIdStored mem (Function.update mem caseId 0#8) caseId [] where
  text :=
    { nonzero := List.not_mem_nil
      chars := fun i hi => absurd hi (Nat.not_lt_zero i)
      nul := Function.update_self _ _ _ }
  outside i hi := by
    apply Function.update_of_ne
    unfold MAX_CASE_ID_LEN at hi
    omega

theorem caseIdStored_writeText (hs : 0#8 ∉ s) (hlength : s.length < MAX_CASE_ID_LEN) :
    CaseIdStored mem (writeText mem caseId (s ++ [0#8])) caseId s where
  text := stringAt_writeText _ _ hs
  outside i hi := by
    apply writeText_of_outside
    rw [List.length_append, List.length_singleton]
    omega

/-- **A long argument is not refused.** The buffer gets the single argument if it fits and the empty
string otherwise, exactly if there is not a single argument that does not fit. -/
theorem getCaseId_stores_iff (hcaseId : caseId ≠ 0)
    (harg : ac = 1#32 → SingleArg mem av caseId s arg) :
    (∃ mem' printed, getCaseId mem ac (some av) caseId = some (mem', printed) ∧
        CaseIdStored mem mem' caseId (caseIdOf ac s)) ↔
      ¬ (ac = 1#32 ∧ MAX_CASE_ID_LEN ≤ s.length) := by
  by_cases hac : ac = 1#32
  · subst hac
    have hsingle := harg rfl
    obtain ⟨printed, hcall⟩ := getCaseId_single hcaseId hsingle
    rw [hcall]
    by_cases hlength : s.length < MAX_CASE_ID_LEN
    · have hid : caseIdOf 1#32 s = s := if_pos ⟨rfl, hlength⟩
      refine iff_of_true ⟨_, printed, rfl, ?_⟩ fun hlong => absurd hlength (Nat.not_lt.mpr hlong.2)
      rw [hid]
      exact caseIdStored_writeText hsingle.text.nonzero hlength
    · have hid : caseIdOf 1#32 s = [] := if_neg fun h => hlength h.2
      refine iff_of_false ?_ (not_not.mpr ⟨rfl, Nat.le_of_not_lt hlength⟩)
      rintro ⟨mem', printed', hresult, hstored⟩
      obtain ⟨rfl, -⟩ := Prod.mk.inj (Option.some.inj hresult)
      rw [hid] at hstored
      -- the buffer holds the long argument, which is not empty
      have hempty := (stringAt_writeText _ _ hsingle.text.nonzero).eq hstored.text
      rw [hempty] at hlength
      exact hlength (by decide)
  · have hid : caseIdOf ac s = [] := if_neg fun h => hac h.1
    refine iff_of_true ⟨_, _, getCaseId_other hcaseId hac av, ?_⟩ fun h => hac h.1
    rw [hid]
    exact caseIdStored_nil mem caseId

end CaseId

def argMem (s : List (BitVec 8)) : Nat → BitVec 8 := writeText (fun _ => 0#8) 0x1000 (s ++ [0#8])

theorem singleArg_argMem {s : List (BitVec 8)} (hs : 0#8 ∉ s) (hlength : s.length < LOOP_BOUND) :
    SingleArg (argMem s) [0x1000] 0x100 s 0x1000 where
  head := rfl
  text := stringAt_writeText _ _ hs
  ends := hlength
  apart := Or.inr (by decide)

/-- The id `42`. -/
theorem getCaseId_stores_short :
    ∃ mem' printed, getCaseId (argMem [ch '4', ch '2']) 1#32 (some [0x1000]) 0x100 =
      some (mem', printed) ∧
      CaseIdStored (argMem [ch '4', ch '2']) mem' 0x100 (caseIdOf 1#32 [ch '4', ch '2']) :=
  (getCaseId_stores_iff (by decide) fun _ => singleArg_argMem (by decide) (by decide)).mpr
  (by decide)

/-- An argument of 201 characters is copied with its NUL behind the 201 characters of the buffer. -/
theorem getCaseId_of_long :
    ∃ s mem' printed, s.length = 201 ∧ getCaseId (argMem s) 1#32 (some [0x1000]) 0x100 =
      some (mem', printed) ∧
      StringAt mem' 0x100 s ∧ ¬ CaseIdStored (argMem s) mem' 0x100 (caseIdOf 1#32 s) := by
  have hs : 0#8 ∉ List.replicate 201 (ch 'a') :=
    fun hmem => absurd (List.eq_of_mem_replicate hmem) (by decide)
  have hlength : (List.replicate 201 (ch 'a')).length = 201 := List.length_replicate
  obtain ⟨printed, hcall⟩ := getCaseId_single (by decide : 0x100 ≠ 0)
    (singleArg_argMem hs (by rw [hlength]; decide))
  have htext := stringAt_writeText (argMem (List.replicate 201 (ch 'a'))) 0x100 hs
  refine ⟨_, _, printed, hlength, hcall, htext, fun hstored => ?_⟩
  have hempty := htext.eq hstored.text
  rw [caseIdOf, if_neg fun h => absurd h.2 (by rw [hlength]; decide)] at hempty
  exact absurd hempty (by decide)

end AcrnGuest
