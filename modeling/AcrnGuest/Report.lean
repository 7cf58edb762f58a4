import AcrnGuest.CStrings

/-!
# Test result reporting (`lib/report.c`)

The prefixes of the test in progress are kept in one buffer of 256 characters, each with
a delimiter behind it; popping one searches the buffer for the last delimiter but one.
The buffer is shown to implement a stack of texts. The second part of the file counts
the results of the tests and sums them up in an exit code.
-/

namespace AcrnGuest

open Delimited

/-! ### The prefixes -/

/-- Why a call does not return: an assertion fails, or it does what C leaves undefined. -/
inductive Fault
  | assertion
  | undefined
deriving DecidableEq

def assertMsg (condition : Bool) : Except Fault Unit :=
  if condition then .ok () else .error .assertion

def orUndefined {α : Type} : Option α → Except Fault α
  | some a => .ok a
  | none => .error .undefined

@[simp] theorem ok_bind {α β : Type} (a : α) (f : α → Except Fault β) :
    (Except.ok a >>= f) = f a := rfl

@[simp] theorem error_bind {α β : Type} (e : Fault) (f : α → Except Fault β) :
    (Except.error e >>= f) = .error e := rfl

@[simp] theorem orUndefined_some {α : Type} (a : α) : orUndefined (some a) = .ok a := rfl

def PREFIXES_SIZE : BitVec 32 := 256#32

def PREFIX_DELIMITER : CString := ⟨[ch ':', ch ' '], by decide⟩

def storeFrom (mem : Nat → BitVec 8) (start : Nat) (buf : Nat → BitVec 8) (i : Nat) : BitVec 8 :=
  if i < start then mem i else buf (i - start)

/-- `len += vsnprintf(&prefixes[len], sizeof(prefixes) - len, fmt, va)`. -/
def printPrefixes (prefixes : Nat → BitVec 8) (len : BitVec 32) (fmt : CString) (va : List VaArg) :
    Except Fault ((Nat → BitVec 8) × BitVec 32) := do
  let (buf, added) ← orUndefined
    (vsnprintf (fun i => prefixes (len.toNat + i)) (PREFIXES_SIZE - len) fmt va)
  return (storeFrom prefixes len.toNat buf, len + added)

def reportPrefixPushf (prefixes : Nat → BitVec 8) (fmt : CString) (va : List VaArg) :
    Except Fault (Nat → BitVec 8) := do
  let len := BitVec.ofNat 32 (← orUndefined (strlen prefixes 0))
  assertMsg (len < PREFIXES_SIZE)
  let start := len.toNat
  let (prefixes, len) ← printPrefixes prefixes len fmt va
  assertMsg (len < PREFIXES_SIZE)
  assertMsg (← orUndefined (strstr prefixes start PREFIX_DELIMITER)).isNone
  let (prefixes, len) ← printPrefixes prefixes len PREFIX_DELIMITER []
  assertMsg (len < PREFIXES_SIZE)
  return prefixes

def reportPrefixPush (prefixes : Nat → BitVec 8) (text : CString) : Except Fault (Nat → BitVec 8) :=
  reportPrefixPushf prefixes ⟨[ch '%', ch 's'], by decide⟩ [.str text]

/-- `strstr(p, PREFIX_DELIMITER) + 2`, which is read at once. -/
def behindDelimiter (prefixes : Nat → BitVec 8) (p : Nat) : Option Nat :=
  (strstr prefixes p PREFIX_DELIMITER).join.map (· + 2)

/-- One iteration of the loop in `report_prefix_pop`; it breaks with `p`. -/
def popStep (prefixes : Nat → BitVec 8) : Nat × Nat → (Nat × Nat) ⊕ Option Nat
  | (p, q) =>
      if prefixes q ≠ 0#8 then
        match behindDelimiter prefixes q with
        | some next => .inl (q, next)
        | none => .inr none
      else .inr (some p)

def reportPrefixPop (prefixes : Nat → BitVec 8) : Except Fault (Nat → BitVec 8) := do
  if prefixes 0 = 0#8 then
    return prefixes
  let q ← orUndefined (behindDelimiter prefixes 0)
  let p ← orUndefined (Loop.run (popStep prefixes) LOOP_BOUND (0, q)).join
  return Function.update prefixes p 0#8

def noPrefixes : Nat → BitVec 8 := fun _ => 0#8

inductive PrefixCall
  | push (text : CString)
  | pushf (fmt : CString) (va : List VaArg)
  | pop

def PrefixCall.run (prefixes : Nat → BitVec 8) : PrefixCall → Except Fault (Nat → BitVec 8)
  | .push text => reportPrefixPush prefixes text
  | .pushf fmt va => reportPrefixPushf prefixes fmt va
  | .pop => reportPrefixPop prefixes

/-! ### The stack of prefixes -/

/-- The calls on a stack of texts, the oldest one first. -/
def PrefixCall.apply (stack : List (List (BitVec 8))) : PrefixCall → List (List (BitVec 8))
  | .push text => stack ++ [text.chars]
  | .pushf fmt va => stack ++ (formatOutput va fmt.chars).toList
  | .pop => stack.dropLast

/-- The arguments of a push match its format and give a text without a NUL. -/
def PrefixCall.Plain : PrefixCall → Prop
  | .push text => text.chars.length < 2 ^ 31
  | .pushf fmt va =>
      ∃ out, formatOutput va fmt.chars = some out ∧ 0#8 ∉ out ∧ out.length < 2 ^ 31
  | .pop => True

/-- The buffer holds the texts of the stack, each with the delimiter behind it. -/
structure HoldsStack (prefixes : Nat → BitVec 8) (stack : List (List (BitVec 8))) : Prop where
  string : StringAt prefixes 0 (joined PREFIX_DELIMITER.chars stack)
  length_lt : (joined PREFIX_DELIMITER.chars stack).length < 256
  undelimited : ∀ text ∈ stack, findText PREFIX_DELIMITER.chars text = none

variable {prefixes : Nat → BitVec 8} {s out : List (BitVec 8)}

/-- Printing behind a string in the buffer appends the text to it, if it fits. -/
theorem StringAt.printed (h : StringAt prefixes 0 s) (hout : 0#8 ∉ out) {size : Nat}
    (hsize : out.length < size) (buf : Nat → BitVec 8) :
    StringAt (storeFrom prefixes s.length (printed out size buf)) 0 (s ++ out) := by
  have hmin : min (size - 1) out.length = out.length := by omega
  constructor
  · intro hzero
    exact (List.mem_append.mp hzero).elim h.nonzero hout
  · intro i hi
    rw [List.length_append] at hi
    rw [Nat.zero_add, storeFrom]
    split
    · next hlow =>
        rw [List.getD_append _ _ _ _ hlow, ← h.chars i hlow, Nat.zero_add]
    · next hlow =>
        rw [List.getD_append_right _ _ _ _ (by omega), AcrnGuest.printed, hmin, if_pos (by omega)]
  · rw [Nat.zero_add, List.length_append, storeFrom, if_neg (by omega), Nat.add_sub_cancel_left,
      AcrnGuest.printed, hmin, if_neg (by omega), if_pos rfl]

theorem printPrefixes_eq {fmt : CString} {va : List VaArg} (prefixes : Nat → BitVec 8)
    (hs : s.length < 256) (hmatch : formatOutput va fmt.chars = some out)
    (hout : out.length < 2 ^ 31) :
    printPrefixes prefixes (BitVec.ofNat 32 s.length) fmt va =
      .ok (storeFrom prefixes s.length
          (printed out (256 - s.length) fun i => prefixes (s.length + i)),
        BitVec.ofNat 32 (s.length + out.length)) := by
  have hlen : (BitVec.ofNat 32 s.length).toNat = s.length := by
    rw [BitVec.toNat_ofNat]
    omega
  have hsize : (PREFIXES_SIZE - BitVec.ofNat 32 s.length).toInt = 256 - s.length := by
    exact toInt_sub_length (by decide) (by omega)
  rw [printPrefixes, vsnprintf_eq hmatch hout (by omega), hsize, hlen, BitVec.ofNat_add]
  have hnat : (256 - s.length : Int).toNat = 256 - s.length := by omega
  rw [hnat]
  rfl

/-- The length of the prefixes is checked without an overflow. -/
theorem assertMsg_length {n : Nat} (hn : n < 2 ^ 32) :
    assertMsg (BitVec.ofNat 32 n < PREFIXES_SIZE)
      = if n < 256 then .ok () else .error .assertion := by
  have hlt : BitVec.ofNat 32 n < PREFIXES_SIZE ↔ n < 256 := by
    rw [BitVec.lt_def, BitVec.toNat_ofNat, Nat.mod_eq_of_lt hn]
    rfl
  simp only [assertMsg, hlt, decide_eq_true_eq]

theorem formatOutput_delimiter :
    formatOutput [] PREFIX_DELIMITER.chars = some PREFIX_DELIMITER.chars := by
  simp +decide [formatOutput, PREFIX_DELIMITER]

theorem formatOutput_string (text : CString) :
    formatOutput [.str text] [ch '%', ch 's'] = some text.chars := by
  simp +decide [formatOutput, morefmt, Directive.output, padded, noProps]

/-- A push of a text that is too long or contains the delimiter fails an assertion; any other one
    appends the text and the delimiter. -/
theorem reportPrefixPushf_cases {fmt : CString} {va : List VaArg} (h : StringAt prefixes 0 s)
    (hs : s.length < 256) (hmatch : formatOutput va fmt.chars = some out) (hnul : 0#8 ∉ out)
    (hout : out.length < 2 ^ 31) :
    ((findText PREFIX_DELIMITER.chars out ≠ none ∨
        256 ≤ (s ++ out ++ PREFIX_DELIMITER.chars).length) ∧
        reportPrefixPushf prefixes fmt va = .error .assertion) ∨
      ∃ prefixes', reportPrefixPushf prefixes fmt va = .ok prefixes' ∧
        findText PREFIX_DELIMITER.chars out = none ∧
        (s ++ out ++ PREFIX_DELIMITER.chars).length < 256 ∧
        StringAt prefixes' 0 (s ++ out ++ PREFIX_DELIMITER.chars) := by
  have hbound : 256 < LOOP_BOUND := by decide
  have hstart : (BitVec.ofNat 32 s.length).toNat = s.length := by
    rw [BitVec.toNat_ofNat]
    omega
  unfold reportPrefixPushf
  rw [strlen_eq h (by omega)]
  simp only [orUndefined_some, ok_bind, printPrefixes_eq prefixes hs hmatch hout, hstart,
    assertMsg_length (by omega : s.length < 2 ^ 32), if_pos hs,
    assertMsg_length (by omega : s.length + out.length < 2 ^ 32)]
  by_cases hlen : s.length + out.length < 256
  · have hprinted := h.printed hnul (by omega : out.length < 256 - s.length)
      fun i => prefixes (s.length + i)
    have htext := hprinted.tail
    have hshort : out.length < LOOP_BOUND := by omega
    have hdelim : PREFIX_DELIMITER.chars.length = 2 := rfl
    rw [Nat.zero_add] at htext
    rw [← List.length_append] at hlen ⊢
    generalize storeFrom prefixes s.length _ = prefixes₁ at *
    simp only [if_pos hlen, ok_bind, orUndefined_some,
      strstr_eq htext hshort PREFIX_DELIMITER (by decide),
      printPrefixes_eq prefixes₁ hlen formatOutput_delimiter (by decide)]
    cases hfind : findText PREFIX_DELIMITER.chars out with
    | some i => exact Or.inl ⟨Or.inl (Option.some_ne_none i), rfl⟩
    | none =>
        rw [assertMsg_length
          (by omega : (s ++ out).length + PREFIX_DELIMITER.chars.length < 2 ^ 32),
          ← List.length_append]
        by_cases hfit : (s ++ out ++ PREFIX_DELIMITER.chars).length < 256
        · rw [if_pos hfit]
          refine Or.inr ⟨_, rfl, rfl, hfit, ?_⟩
          rw [List.length_append] at hfit
          exact hprinted.printed PREFIX_DELIMITER.nul (by omega) _
        · rw [if_neg hfit]
          exact Or.inl ⟨Or.inr (Nat.not_lt.mp hfit), rfl⟩
  · rw [if_neg hlen]
    refine Or.inl ⟨Or.inr ?_, rfl⟩
    simp only [List.length_append]
    omega

/-! ### Popping -/

variable {text : List (BitVec 8)} {stack texts : List (List (BitVec 8))} {p : Nat}

theorem behindDelimiter_eq (h : StringAt prefixes p (joined PREFIX_DELIMITER.chars (text :: texts)))
    (hlength : (joined PREFIX_DELIMITER.chars (text :: texts)).length < LOOP_BOUND)
    (htext : findText PREFIX_DELIMITER.chars text = none) :
    behindDelimiter prefixes p = some (p + (text ++ PREFIX_DELIMITER.chars).length) := by
  rw [behindDelimiter, strstr_eq h hlength PREFIX_DELIMITER (by decide), joined_cons,
    PREFIX_DELIMITER, findText_delimited (by decide) htext, List.length_append]
  rfl

/-- From the text at `p` on, the loop goes to the last one. -/
theorem run_popStep {bound : Nat} (hbound : texts.length < bound)
    (h : StringAt prefixes p (joined PREFIX_DELIMITER.chars (text :: texts)))
    (hlength : (joined PREFIX_DELIMITER.chars (text :: texts)).length < LOOP_BOUND)
    (htexts : ∀ t ∈ texts, findText PREFIX_DELIMITER.chars t = none) :
    Loop.run (popStep prefixes) bound (p, p + (text ++ PREFIX_DELIMITER.chars).length)
      = some (some (p + (joined PREFIX_DELIMITER.chars (text :: texts).dropLast).length)) := by
  induction texts generalizing p text bound with
  | nil =>
      obtain ⟨bound, rfl⟩ := Nat.exists_eq_succ_of_ne_zero (Nat.ne_zero_of_lt hbound)
      refine Loop.run_succ_inr ?_ bound
      have hend : prefixes (p + (text ++ PREFIX_DELIMITER.chars).length) = 0#8 := h.tail.nul
      rw [popStep, if_neg (not_not_intro hend)]
      rfl
  | cons next texts ih =>
      obtain ⟨bound, rfl⟩ := Nat.exists_eq_succ_of_ne_zero (Nat.ne_zero_of_lt hbound)
      have htail : StringAt prefixes (p + (text ++ PREFIX_DELIMITER.chars).length)
          (joined PREFIX_DELIMITER.chars (next :: texts)) := h.tail
      have hshort : (joined PREFIX_DELIMITER.chars (next :: texts)).length < LOOP_BOUND := by
        rw [joined_cons, List.length_append] at hlength
        omega
      have hmore : prefixes (p + (text ++ PREFIX_DELIMITER.chars).length) ≠ 0#8 := by
        rw [Ne, htail.eq_zero_iff, joined_cons]
        simp [PREFIX_DELIMITER]
      have hstep : popStep prefixes (p, p + (text ++ PREFIX_DELIMITER.chars).length)
          = .inl (p + (text ++ PREFIX_DELIMITER.chars).length,
            p + (text ++ PREFIX_DELIMITER.chars).length
              + (next ++ PREFIX_DELIMITER.chars).length) := by
        rw [popStep, if_pos hmore, behindDelimiter_eq htail hshort (htexts next List.mem_cons_self)]
      rw [Loop.run_succ_inl hstep, ih (by rw [List.length_cons] at hbound; omega) htail hshort
        fun t ht => htexts t (List.mem_cons_of_mem next ht), List.dropLast_cons_cons, joined_cons]
      simp only [List.length_append, Nat.add_assoc]

/-- A NUL in front of the last text leaves the ones before it. -/
theorem StringAt.cut (h : StringAt prefixes 0 (s ++ out)) :
    StringAt (Function.update prefixes s.length 0#8) 0 s where
  nonzero hzero := h.nonzero (List.mem_append_left out hzero)
  chars i hi := by
    rw [Function.update_of_ne (by omega), h.chars i (by rw [List.length_append]; omega),
      List.getD_append _ _ _ _ hi]
  nul := by rw [Nat.zero_add, Function.update_self]

theorem reportPrefixPop_eq (h : HoldsStack prefixes stack) :
    ∃ prefixes', reportPrefixPop prefixes = .ok prefixes' ∧
      StringAt prefixes' 0 (joined PREFIX_DELIMITER.chars stack.dropLast) := by
  have hbound : 256 < LOOP_BOUND := by decide
  cases stack with
  | nil =>
      refine ⟨prefixes, ?_, h.string⟩
      rw [reportPrefixPop, if_pos (h.string.eq_zero_iff.mpr rfl)]
      rfl
  | cons text texts =>
      have hmore : prefixes 0 ≠ 0#8 := by
        rw [Ne, h.string.eq_zero_iff, joined_cons]
        simp [PREFIX_DELIMITER]
      have hlength : (joined PREFIX_DELIMITER.chars (text :: texts)).length < LOOP_BOUND := by
        have := h.length_lt
        omega
      have hcount : texts.length < LOOP_BOUND := by
        have hle := length_le_length_joined (by decide : PREFIX_DELIMITER.chars ≠ [])
          (text :: texts)
        rw [List.length_cons] at hle
        omega
      refine ⟨Function.update prefixes
        (joined PREFIX_DELIMITER.chars (text :: texts).dropLast).length 0#8, ?_, ?_⟩
      · have hfirst := behindDelimiter_eq h.string hlength (h.undelimited text List.mem_cons_self)
        have hlast := run_popStep hcount h.string hlength
          fun t ht => h.undelimited t (List.mem_cons_of_mem text ht)
        rw [Nat.zero_add] at hfirst hlast
        rw [reportPrefixPop, if_neg hmore, hfirst, orUndefined_some, ok_bind, hlast, Nat.zero_add]
        rfl
      · have hstring := h.string
        rw [joined_dropLast _ (List.cons_ne_nil text texts)] at hstring
        exact hstring.cut

/-! ### Every sequence of calls -/

theorem HoldsStack.empty (h : prefixes 0 = 0#8) : HoldsStack prefixes [] :=
  ⟨⟨List.not_mem_nil, fun i hi => absurd hi (Nat.not_lt_zero i), h⟩, by decide,
    fun _ ht => absurd ht List.not_mem_nil⟩

theorem HoldsStack.pushf (h : HoldsStack prefixes stack) {fmt : CString} {va : List VaArg}
    (hmatch : formatOutput va fmt.chars = some out) (hnul : 0#8 ∉ out)
    (hout : out.length < 2 ^ 31) :
    ((findText PREFIX_DELIMITER.chars out ≠ none ∨
        256 ≤ (joined PREFIX_DELIMITER.chars (stack ++ [out])).length) ∧
        reportPrefixPushf prefixes fmt va = .error .assertion) ∨
      ∃ prefixes', reportPrefixPushf prefixes fmt va = .ok prefixes' ∧
        HoldsStack prefixes' (stack ++ [out]) := by
  have hjoined : joined PREFIX_DELIMITER.chars (stack ++ [out])
      = joined PREFIX_DELIMITER.chars stack ++ out ++ PREFIX_DELIMITER.chars := by
    rw [joined_append, joined_cons, joined_nil, List.append_nil, List.append_assoc]
  rw [hjoined]
  rcases reportPrefixPushf_cases h.string h.length_lt hmatch hnul hout with
    hfail | ⟨prefixes', hrun, hfind, hlength, hstring⟩
  · exact Or.inl hfail
  · refine Or.inr ⟨prefixes', hrun, ?_⟩
    constructor
    · rwa [hjoined]
    · rwa [hjoined]
    · intro text htext
      rcases List.mem_append.mp htext with hold | hnew
      · exact h.undelimited text hold
      · rwa [List.mem_singleton.mp hnew]

/-- A text that fits and does not contain the delimiter is pushed. -/
theorem HoldsStack.push (h : HoldsStack prefixes stack) (text : CString)
    (hfind : findText PREFIX_DELIMITER.chars text.chars = none)
    (hfits : (joined PREFIX_DELIMITER.chars (stack ++ [text.chars])).length < 256) :
    ∃ prefixes', reportPrefixPush prefixes text = .ok prefixes' ∧
      HoldsStack prefixes' (stack ++ [text.chars]) := by
  have hshort : text.chars.length < 2 ^ 31 := by
    rw [joined_append, joined_cons] at hfits
    simp only [List.length_append] at hfits
    omega
  refine (h.pushf (formatOutput_string text) text.nul hshort).resolve_left ?_
  rintro ⟨hdelim | hlong, -⟩
  · exact hdelim hfind
  · omega

theorem HoldsStack.pop (h : HoldsStack prefixes stack) :
    ∃ prefixes', reportPrefixPop prefixes = .ok prefixes' ∧
      HoldsStack prefixes' stack.dropLast := by
  obtain ⟨prefixes', hrun, hstring⟩ := reportPrefixPop_eq h
  refine ⟨prefixes', hrun, hstring, ?_, fun text htext => h.undelimited text
    (List.dropLast_subset stack htext)⟩
  have hlength := h.length_lt
  cases stack with
  | nil => exact hlength
  | cons text texts =>
      rw [joined_dropLast _ (List.cons_ne_nil text texts), List.length_append] at hlength
      omega

/-- One call fails an assertion or does to the buffer what it does to the stack. -/
theorem HoldsStack.call (h : HoldsStack prefixes stack) {call : PrefixCall} (hplain : call.Plain) :
    call.run prefixes = .error .assertion ∨
      ∃ prefixes', call.run prefixes = .ok prefixes' ∧ HoldsStack prefixes' (call.apply stack) := by
  cases call with
  | push text =>
      exact (h.pushf (formatOutput_string text) text.nul hplain).imp_left And.right
  | pushf fmt va =>
      obtain ⟨out, hmatch, hnul, hout⟩ := hplain
      rw [PrefixCall.apply, hmatch]
      exact (h.pushf hmatch hnul hout).imp_left And.right
  | pop => exact Or.inr h.pop

theorem HoldsStack.calls {calls : List PrefixCall} (h : HoldsStack prefixes stack)
    (hplain : ∀ call ∈ calls, call.Plain) :
    calls.foldlM PrefixCall.run prefixes = .error .assertion ∨
      ∃ prefixes', calls.foldlM PrefixCall.run prefixes = .ok prefixes' ∧
        HoldsStack prefixes' (calls.foldl PrefixCall.apply stack) := by
  induction calls generalizing prefixes stack with
  | nil => exact Or.inr ⟨prefixes, rfl, h⟩
  | cons call calls ih =>
      rw [List.foldlM_cons, List.foldl_cons]
      rcases h.call (hplain call List.mem_cons_self) with hfail | ⟨prefixes₁, hrun, h₁⟩
      · exact Or.inl (by rw [hfail, error_bind])
      · rw [hrun, ok_bind]
        exact ih h₁ fun c hc => hplain c (List.mem_cons_of_mem call hc)

/-- Every sequence of calls whose texts have no NUL and in which no assertion fails leaves in the
    buffer the texts of the stack, the oldest one first, each with the delimiter behind it. -/
theorem prefixes_hold_stack {calls : List PrefixCall} (hplain : ∀ call ∈ calls, call.Plain)
    {prefixes : Nat → BitVec 8} (hinit : ∀ i, i < 256 → prefixes i = 0#8)
    (hassert : calls.foldlM PrefixCall.run prefixes ≠ .error .assertion) :
    ∃ prefixes', calls.foldlM PrefixCall.run prefixes = .ok prefixes' ∧
      StringAt prefixes' 0
        (joined PREFIX_DELIMITER.chars (calls.foldl PrefixCall.apply [])) := by
  obtain ⟨prefixes', hrun, hstack⟩ :=
    ((HoldsStack.empty (hinit 0 (by decide))).calls hplain).resolve_left hassert
  exact ⟨prefixes', hrun, hstack.string⟩

/-- Two pushes and a pop, with a text that ends in `:` and an empty one. -/
theorem prefixes_hold_stack_colon :
    ∃ prefixes', [PrefixCall.push ⟨[ch ':'], by decide⟩, .push ⟨[], by decide⟩, .pop].foldlM
        PrefixCall.run noPrefixes = .ok prefixes' ∧
      StringAt prefixes' 0 [ch ':', ch ':', ch ' '] := by
  refine prefixes_hold_stack ?_ (fun i hi => rfl) ?_
  · simp [PrefixCall.Plain]
  · obtain ⟨prefixes₁, hrun₁, h₁⟩ :=
      (HoldsStack.empty rfl : HoldsStack noPrefixes []).push ⟨[ch ':'], by decide⟩ (by decide)
        (by decide)
    obtain ⟨prefixes₂, hrun₂, h₂⟩ := h₁.push ⟨[], by decide⟩ (by decide) (by decide)
    obtain ⟨prefixes₃, hrun₃, -⟩ := h₂.pop
    simp only [List.foldlM_cons, List.foldlM_nil, PrefixCall.run, hrun₁, hrun₂, hrun₃, ok_bind]
    exact nofun

/-- A NUL in a formatted text hides it and the delimiter behind it: `report_prefix_pushf("%c", 0)`
    is overwritten by the next push. -/
theorem nul_text_overwritten :
    ∃ prefixes', [PrefixCall.pushf ⟨[ch '%', ch 'c'], by decide⟩ [.word 0#32],
        .push ⟨[ch 'a'], by decide⟩].foldlM PrefixCall.run noPrefixes = .ok prefixes' ∧
      StringAt prefixes' 0 [ch 'a', ch ':', ch ' '] ∧
      joined PREFIX_DELIMITER.chars ([PrefixCall.pushf ⟨[ch '%', ch 'c'], by decide⟩ [.word 0#32],
        .push ⟨[ch 'a'], by decide⟩].foldl PrefixCall.apply [])
        = [0#8, ch ':', ch ' ', ch 'a', ch ':', ch ' '] := by
  have hmatch : formatOutput [.word 0#32] (⟨[ch '%', ch 'c'], by decide⟩ : CString).chars
      = some [0#8] := by
    simp +decide [formatOutput, morefmt, Directive.output]
  obtain ⟨prefixes₁, hrun₁, hzero⟩ : ∃ prefixes₁, reportPrefixPushf noPrefixes
      ⟨[ch '%', ch 'c'], by decide⟩ [.word 0#32] = .ok prefixes₁ ∧ prefixes₁ 0 = 0#8 := by
    have hfirst : HoldsStack noPrefixes [] := HoldsStack.empty rfl
    have hlength : strlen noPrefixes 0 = some 0 := strlen_eq hfirst.string (by decide)
    obtain ⟨prefixes₀, hzero₀, hprint⟩ : ∃ prefixes₀, prefixes₀ 0 = 0#8 ∧
        printPrefixes noPrefixes 0#32 ⟨[ch '%', ch 'c'], by decide⟩ [.word 0#32]
          = .ok (prefixes₀, 1#32) :=
      ⟨_, rfl, printPrefixes_eq (s := []) noPrefixes (by decide) hmatch (by decide)⟩
    have hsearch : strstr prefixes₀ 0 PREFIX_DELIMITER = some none :=
      strstr_eq (HoldsStack.empty hzero₀).string (by decide) PREFIX_DELIMITER (by decide)
    obtain ⟨prefixes₁, hzero₁, hdelim⟩ : ∃ prefixes₁, prefixes₁ 0 = 0#8 ∧
        printPrefixes prefixes₀ 1#32 PREFIX_DELIMITER [] = .ok (prefixes₁, 3#32) :=
      ⟨_, hzero₀, printPrefixes_eq (s := [0#8]) prefixes₀ (by decide) formatOutput_delimiter
        (by decide)⟩
    refine ⟨prefixes₁, ?_, hzero₁⟩
    simp only [reportPrefixPushf, hlength, orUndefined_some, ok_bind, hprint, hdelim,
      BitVec.toNat_ofNat, Nat.zero_mod, hsearch]
    rfl
  obtain ⟨prefixes₂, hrun₂, h₂⟩ :=
    (HoldsStack.empty hzero).push ⟨[ch 'a'], by decide⟩ (by decide) (by decide)
  refine ⟨prefixes₂, ?_, h₂.string, ?_⟩
  · simp only [List.foldlM_cons, List.foldlM_nil, PrefixCall.run, hrun₁, hrun₂, ok_bind]
    rfl
  · simp only [List.foldl_cons, List.foldl_nil, PrefixCall.apply, hmatch]
    rfl

/-! ### The results of the tests -/

structure Tally where
  tests : BitVec 32
  failures : BitVec 32
  xfailures : BitVec 32
  skipped : BitVec 32

def vaReport (t : Tally) (pass xfail skip : Bool) : Tally :=
  let t := { t with tests := t.tests + 1#32 }
  if skip then { t with skipped := t.skipped + 1#32 }
  else if xfail && !pass then { t with xfailures := t.xfailures + 1#32 }
  else if xfail || !pass then { t with failures := t.failures + 1#32 }
  else t

inductive ReportCall
  | report (pass : Bool)
  | reportXfail (xfail pass : Bool)
  | reportSkip
  | reportPass

def ReportCall.run (t : Tally) : ReportCall → Tally
  | .report pass => vaReport t pass false false
  | .reportXfail xfail pass => vaReport t pass xfail false
  | .reportSkip => vaReport t false false true
  | .reportPass => { t with tests := t.tests + 1#32 }

/-- The exit code; `77 >> 1` says that every test was skipped. -/
def reportSummary (t : Tally) : Nat :=
  if t.tests = t.skipped then 77 >>> 1
  else if 0 < t.failures then 1
  else 0

def ReportCall.isSkip : ReportCall → Bool
  | .reportSkip => true
  | _ => false

/-- A failure that was not expected, or a pass where a failure was. -/
def ReportCall.isUnexpected : ReportCall → Bool
  | .report pass => !pass
  | .reportXfail xfail pass => xfail == pass
  | _ => false

def ReportCall.isExpectedFailure : ReportCall → Bool
  | .reportXfail xfail pass => xfail && !pass
  | _ => false

/-- Each counter is the number of the calls of its class. -/
def Tally.of (calls : List ReportCall) : Tally where
  tests := BitVec.ofNat 32 calls.length
  failures := BitVec.ofNat 32 (calls.countP ReportCall.isUnexpected)
  xfailures := BitVec.ofNat 32 (calls.countP ReportCall.isExpectedFailure)
  skipped := BitVec.ofNat 32 (calls.countP ReportCall.isSkip)

theorem ReportCall.run_of (calls : List ReportCall) (call : ReportCall) :
    call.run (Tally.of calls) = Tally.of (calls ++ [call]) := by
  unfold Tally.of
  simp only [List.length_append, List.countP_append, List.length_singleton, List.countP_singleton,
    BitVec.ofNat_add]
  cases call with
  | report pass => cases pass <;> simp [run, vaReport, isSkip, isUnexpected, isExpectedFailure]
  | reportXfail xfail pass =>
      cases xfail <;> cases pass <;> simp [run, vaReport, isSkip, isUnexpected, isExpectedFailure]
  | reportSkip => simp [run, vaReport, isSkip, isUnexpected, isExpectedFailure]
  | reportPass => simp [run, isSkip, isUnexpected, isExpectedFailure]

theorem tally_of_calls (calls : List ReportCall) :
    calls.foldl ReportCall.run ⟨0#32, 0#32, 0#32, 0#32⟩ = Tally.of calls := by
  induction calls using List.reverseRecOn with
  | nil => rfl
  | append_singleton calls call ih =>
      rw [List.foldl_append, ih]
      exact call.run_of calls

/-- No call belongs to two of the classes. -/
theorem countP_classes_le (calls : List ReportCall) :
    calls.countP ReportCall.isUnexpected + calls.countP ReportCall.isExpectedFailure
      + calls.countP ReportCall.isSkip ≤ calls.length := by
  induction calls with
  | nil => exact Nat.le_refl 0
  | cons call calls ih =>
      simp only [List.countP_cons, List.length_cons]
      have hone : (if call.isUnexpected then 1 else 0) + (if call.isExpectedFailure then 1 else 0)
          + (if call.isSkip then 1 else 0) ≤ 1 := by
        cases call with
        | report pass => cases pass <;> decide
        | reportXfail xfail pass => cases xfail <;> cases pass <;> decide
        | reportSkip => decide
        | reportPass => decide
      omega

/-- After fewer than `2 ^ 32` calls the classes add up to at most the number of tests, and the exit
    code tells whether all calls were skips, and if not, whether one was unexpected. -/
theorem reportSummary_of_calls {calls : List ReportCall}
    (hcalls : calls.length < 2 ^ 32) {t : Tally}
    (ht : t = calls.foldl ReportCall.run ⟨0#32, 0#32, 0#32, 0#32⟩) :
    t.failures.toNat + t.xfailures.toNat + t.skipped.toNat ≤ t.tests.toNat ∧
    reportSummary t =
      if ∀ call ∈ calls, call.isSkip = true then 38
      else if ∃ call ∈ calls, call.isUnexpected = true then 1
      else 0 := by
  have hle := countP_classes_le calls
  have hmod : ∀ n, n ≤ calls.length → (BitVec.ofNat 32 n).toNat = n := by
    intro n hn
    rw [BitVec.toNat_ofNat]
    omega
  obtain rfl : t = Tally.of calls := ht.trans (tally_of_calls calls)
  constructor
  · simp only [Tally.of]
    rw [hmod _ (by omega), hmod _ (by omega), hmod _ (by omega), hmod _ le_rfl]
    exact hle
  · have hskip : (Tally.of calls).tests = (Tally.of calls).skipped ↔
        ∀ call ∈ calls, call.isSkip = true := by
      rw [← BitVec.toNat_inj, Tally.of, hmod _ le_rfl, hmod _ (by omega), eq_comm,
        List.countP_eq_length]
    have hfailed : 0 < (Tally.of calls).failures ↔ ∃ call ∈ calls, call.isUnexpected = true := by
      rw [BitVec.lt_def, Tally.of, hmod _ (by omega)]
      exact List.countP_pos_iff
    unfold reportSummary
    simp only [hskip, hfailed]
    rfl

/-- A skip, an expected failure and a pass. -/
theorem reportSummary_of_three_calls :
    reportSummary ([ReportCall.reportSkip, .reportXfail true false, .report true].foldl
      ReportCall.run ⟨0#32, 0#32, 0#32, 0#32⟩) = 0 :=
  (reportSummary_of_calls
    (by decide : [ReportCall.reportSkip, .reportXfail true false, .report true].length < 2 ^ 32)
    rfl).2

end AcrnGuest
