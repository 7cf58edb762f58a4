import AcrnGuest.StringCopies

/-!
# Numbers in a text (`lib/printf.c`, `lib/string.c`)

What `print_unsigned` sends to the stream is laid out as padding, prefix and digits. What
`print_int` prints is read back by `atol`, unless the padding with zeros puts them in front of
the sign: `atol` then stops at the sign and returns 0. The least `long` cannot be printed.
-/

namespace AcrnGuest

/-! ### The layout of an unsigned number -/

def hexMark (alternate : Bool) (base n : Nat) : List (BitVec 8) :=
  if alternate ∧ base = 16 ∧ n ≠ 0 then [ch '0', ch 'x'] else []

/-- A prefix and digits in a field of `width` characters: zeros go between them, blanks in front. -/
def laidOut (width : Nat) (pad : BitVec 8) (mark digits : List (BitVec 8)) : List (BitVec 8) :=
  let fill := List.replicate (width - (mark ++ digits).length) pad
  if pad = ch '0' then mark ++ fill ++ digits else fill ++ mark ++ digits

theorem length_laidOut (width : Nat) (pad : BitVec 8) (mark digits : List (BitVec 8)) :
    (laidOut width pad mark digits).length = max width (mark ++ digits).length := by
  unfold laidOut
  split
  · simp only [List.length_append, List.length_replicate]
    omega
  · simp only [List.length_append, List.length_replicate]
    omega

theorem padded_of_nonneg (props : Strprops) (hwidth : 0 ≤ props.npad.toInt) (s : List (BitVec 8)) :
    padded s props = List.replicate (props.npad.toInt.toNat - s.length) props.pad ++ s := by
  have hleft : (props.npad.toInt - s.length).toNat = props.npad.toInt.toNat - s.length := by omega
  have hright : (-props.npad.toInt - s.length).toNat = 0 := by omega
  rw [padded, hleft, hright, List.replicate_zero, List.append_nil]

theorem toInt_ofInt_32 {v : Int} (hlow : -2147483648 ≤ v) (hhigh : v < 2147483648) :
    (BitVec.ofInt 32 v).toInt = v := by
  rw [BitVec.toInt_ofInt]
  exact Int.bmod_eq_of_le hlow hhigh

theorem npad_behind_mark {npad : BitVec 32} (hwidth : 0 ≤ npad.toInt) :
    0 ≤ (if 0 < npad.toInt then BitVec.ofInt 32 (max (npad.toInt - 2) 0) else npad).toInt ∧
      (if 0 < npad.toInt then BitVec.ofInt 32 (max (npad.toInt - 2) 0) else npad).toInt.toNat =
        npad.toInt.toNat - 2 := by
  have hlt : npad.toInt < 2147483648 := BitVec.toInt_lt
  split
  · rw [toInt_ofInt_32 (by omega) (by omega)]
    omega
  · omega

theorem unsignedOutput_eq_laidOut {props : Strprops} (hwidth : 0 ≤ props.npad.toInt)
    (base n : Nat) :
    unsignedOutput base n props =
      laidOut props.npad.toInt.toNat props.pad (hexMark props.alternate base n)
        (numeral base n) := by
  have hplain : laidOut props.npad.toInt.toNat props.pad [] (numeral base n) =
      padded (numeral base n) props := by
    rw [padded_of_nonneg props hwidth, laidOut, List.nil_append, List.nil_append,
      List.append_nil, ite_self]
  unfold unsignedOutput hexMark
  by_cases hmark : props.alternate ∧ base = 16 ∧ n ≠ 0
  · have hcond : (props.alternate && decide (base = 16) && decide (n ≠ 0)) = true := by
      simp only [hmark.1, hmark.2.1, hmark.2.2, decide_true, Bool.and_true, ne_eq,
        not_false_eq_true]
    rw [if_pos hcond, if_pos hmark, laidOut]
    by_cases hpad : props.pad = ch '0'
    · -- the zeros fill what the prefix leaves of the width
      obtain ⟨hnonneg, htoNat⟩ := npad_behind_mark hwidth
      generalize (if 0 < props.npad.toInt then BitVec.ofInt 32 (max (props.npad.toInt - 2) 0)
        else props.npad) = npad
        at hnonneg htoNat ⊢
      rw [if_pos hpad, if_pos hpad,
        padded_of_nonneg ⟨props.pad, npad, props.alternate⟩ hnonneg, htoNat]
      simp only [List.length_append, List.length_cons, List.length_nil]
      rw [Nat.sub_sub, List.append_assoc]
    · rw [if_neg hpad, if_neg hpad, padded_of_nonneg props hwidth, List.append_assoc]
  · have hcond : ¬ (props.alternate && decide (base = 16) && decide (n ≠ 0)) = true := by
      simpa [and_assoc] using hmark
    rw [if_neg hcond, if_neg hmark, hplain]

/-- **What `print_unsigned` emits**: as many characters as the wider of the field and the number,
with the prefix `0x` exactly for the alternate form of a hexadecimal number other than 0, behind
blanks and before zeros. All of them are counted, those that fit are stored one behind the other,
and no other character of the buffer changes. -/
theorem printUnsigned_emits (ps : Pstream) (n : BitVec 64) {base : Nat}
    (hbase : base = 10 ∨ base = 16) (props : Strprops) (hwidth : 0 ≤ props.npad.toInt) :
    let mark := hexMark props.alternate base n.toNat
    let text := laidOut props.npad.toInt.toNat props.pad mark (numeral base n.toNat)
    ∃ out, printUnsigned ps n base props = some out ∧
      text.length = max props.npad.toInt.toNat (mark ++ numeral base n.toNat).length ∧
      out.added = ps.added + BitVec.ofNat 32 text.length ∧
      out.buffer = ps.buffer + min ps.remain.toNat text.length ∧
      ∀ i, out.mem i =
        if ps.buffer ≤ i ∧ i < ps.buffer + min ps.remain.toNat text.length then
          text.getD (i - ps.buffer) 0#8
        else ps.mem i := by
  intro mark text
  have hten : 10 ≤ base := by omega
  have hprint : printUnsigned ps n base props = some (text.foldl addchar ps) := by
    rw [printUnsigned_eq ps n hten, unsignedOutput_eq_laidOut hwidth]
  obtain ⟨hbuffer, hmem⟩ := foldl_addchar_mem text ps
  exact ⟨_, hprint, length_laidOut _ _ _ _, foldl_addchar_added text ps, hbuffer, hmem⟩

/-- `%#06x` of 255 is `0x00ff`. -/
theorem printUnsigned_emits_hex : ∃ out,
    printUnsigned ⟨fun _ => 0#8, 0, 9#32, 0#32⟩ 255#64 16 ⟨ch '0', 6#32, true⟩ = some out ∧
      out.added = 6#32 ∧
      (List.range 7).map out.mem = [ch '0', ch 'x', ch '0', ch '0', ch 'f', ch 'f', 0#8] := by
  obtain ⟨out, hprint, -, hadded, -, hmem⟩ := printUnsigned_emits ⟨fun _ => 0#8, 0, 9#32, 0#32⟩
    255#64 (Or.inr rfl) ⟨ch '0', 6#32, true⟩ (by decide)
  refine ⟨out, hprint, hadded.trans (by decide), ?_⟩
  rw [funext hmem]
  decide

/-! ### Reading a number back -/

theorem isDigit_digit : ∀ d, d < 10 → isDigit (digits.getD d 0#8) = true := by decide

theorem digit_sub : ∀ d, d < 10 → (digits.getD d 0#8 - ch '0').setWidth 64 =
    BitVec.ofNat 64 d := by decide

/-- The digits of a number, from the lowest one on, are read from the highest one on. -/
theorem atolLoop_digits {ds : List Nat} (hds : ∀ d ∈ ds, d < 10) (acc : BitVec 64)
    (rest : List (BitVec 8)) :
    atolLoop acc ((ds.map (digits.getD · 0#8)).reverse ++ rest) =
      atolLoop (acc * BitVec.ofNat 64 (10 ^ ds.length) + BitVec.ofNat 64
        (Nat.ofDigits 10 ds)) rest := by
  induction ds generalizing rest with
  | nil => simp
  | cons d ds ih =>
      have hd : d < 10 := hds d (List.mem_cons_self ..)
      have hstep : ∀ a : BitVec 64, atolLoop a (digits.getD d 0#8 :: rest) =
          atolLoop (a * 10#64 + BitVec.ofNat 64 d) rest := by
        intro a
        rw [atolLoop, if_pos (isDigit_digit d hd), digit_sub d hd]
      rw [List.map_cons, List.reverse_cons, List.append_assoc, List.singleton_append,
        ih (fun e he => hds e (List.mem_cons_of_mem d he)), hstep]
      congr 1
      rw [List.length_cons, Nat.ofDigits_cons, Nat.pow_succ, BitVec.ofNat_add, BitVec.ofNat_mul,
        BitVec.ofNat_mul, BitVec.add_mul, BitVec.mul_assoc, BitVec.add_assoc,
        BitVec.mul_comm (BitVec.ofNat 64 (Nat.ofDigits 10 ds)),
        BitVec.add_comm (BitVec.ofNat 64 10 * _)]

theorem isDigit_of_mem_numeral {n : Nat} {c : BitVec 8} (hc : c ∈ numeral 10 n) :
    isDigit c = true := by
  unfold numeral at hc
  split at hc
  · rw [List.mem_singleton.mp hc]
    decide
  · obtain ⟨d, hd, rfl⟩ := List.mem_map.mp (List.mem_reverse.mp hc)
    exact isDigit_digit d (Nat.digits_lt_base (by decide) hd)

theorem numeral_ne_nil (base n : Nat) : numeral base n ≠ [] := by
  unfold numeral
  split
  · exact List.cons_ne_nil _ _
  · next hn =>
      rw [ne_eq, List.reverse_eq_nil_iff, List.map_eq_nil_iff, Nat.digits_eq_nil_iff_eq_zero]
      exact hn

theorem atolLoop_numeral (n : Nat) (rest : List (BitVec 8)) :
    atolLoop 0#64 (numeral 10 n ++ rest) = atolLoop (BitVec.ofNat 64 n) rest := by
  unfold numeral
  split
  · next hn =>
      rw [hn, List.singleton_append, atolLoop, if_pos (by decide)]
      rfl
  · rw [atolLoop_digits (fun d hd => Nat.digits_lt_base (by decide) hd), Nat.ofDigits_digits,
      BitVec.zero_mul, BitVec.zero_add]

theorem atolLoop_stop (acc : BitVec 64) {rest : List (BitVec 8)}
    (hrest : ∀ c ∈ rest.head?, isDigit c = false) :
    atolLoop acc rest = acc := by
  cases rest with
  | nil => rfl
  | cons c rest =>
      have hc := hrest c rfl
      rw [atolLoop, if_neg (by rw [hc]; exact Bool.false_ne_true)]

theorem atolLoop_zeros (k : Nat) (rest : List (BitVec 8)) :
    atolLoop 0#64 (List.replicate k (ch '0') ++ rest) = atolLoop 0#64 rest := by
  induction k with
  | zero => rfl
  | succ k ih =>
      rw [List.replicate_succ, List.cons_append, atolLoop, if_pos (by decide), ← ih]
      rfl

theorem atol_blanks (k : Nat) (s : List (BitVec 8)) :
    atol (List.replicate k (ch ' ') ++ s) = atol s := by
  unfold atol
  congr 1
  induction k with
  | zero => rfl
  | succ k ih =>
      rw [List.replicate_succ, List.cons_append, List.dropWhile_cons_of_pos (by decide)]
      exact ih

/-- Where no blank and no sign comes first, the loop starts at once. -/
theorem atol_of_digit {c : BitVec 8} (hc : isDigit c = true) (s : List (BitVec 8)) :
    atol (c :: s) = atolLoop 0#64 (c :: s) := by
  have hother : ∀ d : BitVec 8, isDigit d = false → c ≠ d := by
    rintro d hd rfl
    exact Bool.false_ne_true (hd.symm.trans hc)
  have hskip : (c :: s).dropWhile (fun c => decide (c = ch ' ') || decide (c = ch '\t')) =
      c :: s := by
    apply List.dropWhile_cons_of_neg
    simp [hother (ch ' ') (by decide), hother (ch '\t') (by decide)]
  unfold atol
  rw [hskip]
  dsimp only
  rw [if_neg (hother _ (by decide)), if_neg (hother _ (by decide))]

theorem atol_of_digits {s : List (BitVec 8)} (hs : s ≠ []) (hdigits : ∀ c ∈ s, isDigit c = true)
    (rest : List (BitVec 8)) : atol (s ++ rest) = atolLoop 0#64 (s ++ rest) := by
  obtain ⟨c, s, rfl⟩ := List.exists_cons_of_ne_nil hs
  exact atol_of_digit (hdigits c (List.mem_cons_self ..)) _

/-- `atol` reads what `print_int` prints. -/
theorem atol_signed (v : Int) {rest : List (BitVec 8)}
    (hrest : ∀ c ∈ rest.head?, isDigit c = false) :
    atol (signed v ++ rest) = BitVec.ofInt 64 v := by
  unfold signed
  split
  · next hneg =>
      have hcall : atol (ch '-' :: numeral 10 v.natAbs ++ rest) =
          -atolLoop 0#64 (numeral 10 v.natAbs ++ rest) := rfl
      rw [hcall, atolLoop_numeral, atolLoop_stop _ hrest, ← BitVec.ofInt_natCast,
        ← BitVec.ofInt_neg]
      congr 1
      omega
  · next hneg =>
      rw [atol_of_digits (numeral_ne_nil 10 _) (fun c => isDigit_of_mem_numeral), atolLoop_numeral,
        atolLoop_stop _ hrest, ← BitVec.ofInt_natCast]
      congr 1
      omega

/-- Zeros before the digits do not change the number. -/
theorem atol_zeros_numeral (k n : Nat) :
    atol (List.replicate k (ch '0') ++ numeral 10 n) = BitVec.ofNat 64 n := by
  have hdigits : ∀ c ∈ List.replicate k (ch '0') ++ numeral 10 n, isDigit c = true := by
    intro c hc
    rcases List.mem_append.mp hc with hzero | hdigit
    · rw [List.eq_of_mem_replicate hzero]
      decide
    · exact isDigit_of_mem_numeral hdigit
  have hcall := atol_of_digits (fun hnil =>
    numeral_ne_nil 10 n (List.append_eq_nil_iff.mp hnil).2) hdigits []
  have hread := atolLoop_numeral n []
  rw [List.append_nil] at hcall hread
  rw [hcall, atolLoop_zeros, hread]
  rfl

/-- Zeros before a sign hide the number. -/
theorem atol_zeros_sign {k : Nat} (hk : 0 < k) (s : List (BitVec 8)) :
    atol (List.replicate k (ch '0') ++ ch '-' :: s) = 0#64 := by
  obtain ⟨k, rfl⟩ := Nat.exists_eq_add_one_of_ne_zero (Nat.ne_of_gt hk)
  rw [atol_of_digits (by simp) (fun c hc => by rw [List.eq_of_mem_replicate hc]; decide),
    atolLoop_zeros]
  rfl

/-! ### The directive `%ld` -/

def snprintf (buf : Nat → BitVec 8) (size : BitVec 32) (fmt : CString) (va : List VaArg) :
    Option ((Nat → BitVec 8) × BitVec 32) := vsnprintf buf size fmt va

def widthText (width : Int) : List (BitVec 8) := if width = 0 then [] else signed width

/-- The format `%ld` with a width and with or without the flag `0`. -/
def ldFormat (zero : Bool) (width : Int) : List (BitVec 8) :=
  ch '%' :: ((if zero then [ch '0'] else []) ++ (widthText width ++ [ch 'l', ch 'd']))

theorem zero_notMem_numeral {base : Nat} (hlow : 2 ≤ base) (hhigh : base ≤ 16) (n : Nat) :
    0#8 ∉ numeral base n := by
  have hdigit : ∀ d, d < 16 → digits.getD d 0#8 ≠ 0#8 := by decide
  unfold numeral
  split
  · decide
  · intro hmem
    obtain ⟨d, hd, hzero⟩ := List.mem_map.mp (List.mem_reverse.mp hmem)
    exact hdigit d ((Nat.digits_lt_base hlow hd).trans_le hhigh) hzero

theorem zero_notMem_signed (v : Int) : 0#8 ∉ signed v := by
  unfold signed
  split
  · intro hmem
    rcases List.mem_cons.mp hmem with hzero | hrest
    · exact absurd hzero (by decide)
    · exact zero_notMem_numeral (by decide) (by decide) _ hrest
  · exact zero_notMem_numeral (by decide) (by decide) _

theorem zero_notMem_ldFormat (zero : Bool) (width : Int) : 0#8 ∉ ldFormat zero width := by
  have hwidth : 0#8 ∉ widthText width := by
    unfold widthText
    split
    · exact List.not_mem_nil
    · exact zero_notMem_signed width
  unfold ldFormat
  intro hmem
  rcases List.mem_cons.mp hmem with hzero | hmem
  · exact absurd hzero (by decide)
  · rcases List.mem_append.mp hmem with hflag | hmem
    · revert hflag
      cases zero <;> decide
    · rcases List.mem_append.mp hmem with htext | hend
      · exact hwidth htext
      · exact absurd hend (by decide)

theorem numeral_head {n : Nat} (hn : n ≠ 0) :
    ∃ c s, numeral 10 n = c :: s ∧ isDigit c = true ∧ c ≠ ch '0' := by
  obtain ⟨c, s, hcons⟩ := List.exists_cons_of_ne_nil (numeral_ne_nil 10 n)
  refine ⟨c, s, hcons, isDigit_of_mem_numeral (hcons ▸ List.mem_cons_self ..), ?_⟩
  have hne : Nat.digits 10 n ≠ [] := Nat.digits_ne_nil_iff_ne_zero.mpr hn
  have hlast := Nat.getLast_digit_ne_zero 10 hn
  have hlt := Nat.digits_lt_base (by decide : 1 < 10) (List.getLast_mem hne)
  have hhead : c = digits.getD ((Nat.digits 10 n).getLast hne) 0#8 := by
    have hfirst := congrArg List.head? hcons
    rw [numeral, if_neg hn, List.head?_reverse, List.getLast?_map,
      List.getLast?_eq_getLast_of_ne_nil hne, Option.map_some, List.head?_cons] at hfirst
    exact (Option.some.inj hfirst).symm
  rw [hhead]
  exact (by decide : ∀ d, d < 10 → d ≠ 0 → digits.getD d 0#8 ≠ ch '0') _ hlt hlast

theorem dropWhile_numeral (n : Nat) {rest : List (BitVec 8)}
    (hrest : ∀ c ∈ rest.head?, isDigit c = false) :
    (numeral 10 n ++ rest).dropWhile isDigit = rest := by
  rw [List.dropWhile_append_of_pos fun c => isDigit_of_mem_numeral]
  cases rest with
  | nil => rfl
  | cons c rest =>
      have hc := hrest c rfl
      exact List.dropWhile_cons_of_neg (by rw [hc]; exact Bool.false_ne_true)

theorem fmtnum_widthText (width : Int) :
    fmtnum (widthText width ++ [ch 'l', ch 'd']) = (BitVec.ofInt 32 width, [ch 'l', ch 'd']) := by
  have hrest : ∀ c ∈ [ch 'l', ch 'd'].head?, isDigit c = false := by decide
  unfold widthText
  split
  · next hzero =>
      rw [hzero]
      decide
  · next hne =>
      have hnum := atol_signed width hrest
      have hvalue : (BitVec.ofInt 64 width).setWidth 32 = BitVec.ofInt 32 width := by
        apply BitVec.eq_of_toNat_eq
        rw [BitVec.toNat_setWidth, BitVec.toNat_ofInt, BitVec.toNat_ofInt]
        omega
      unfold fmtnum
      rw [hnum, hvalue]
      refine Prod.ext rfl ?_
      have hdrop := dropWhile_numeral width.natAbs hrest
      by_cases hneg : width < 0
      · rw [signed, if_pos hneg]
        dsimp only [List.cons_append]
        rw [if_pos rfl]
        exact hdrop
      · obtain ⟨c, s, hcons, hc, -⟩ := numeral_head (n := width.natAbs) (by omega)
        have hsign : c ≠ ch '-' := by
          rintro rfl
          exact absurd hc (by decide)
        rw [signed, if_neg hneg]
        rw [hcons] at hdrop ⊢
        dsimp only [List.cons_append] at hdrop ⊢
        rw [if_neg hsign]
        exact hdrop

theorem morefmt_ldFormat (zero : Bool) (width : Int) :
    morefmt noProps 0#32 ((if zero then [ch '0'] else []) ++
      (widthText width ++ [ch 'l', ch 'd'])) =
      (.int 1#32 ⟨if zero then ch '0' else ch ' ', BitVec.ofInt 32 width, false⟩, []) := by
  have hld : ∀ props, morefmt props 0#32 [ch 'l', ch 'd'] = (.int 1#32 props, []) := fun props =>
    (morefmt_long ..).trans (morefmt_int ..)
  have hnum := fmtnum_widthText width
  cases zero with
  | true =>
      simp only [if_true, List.singleton_append]
      rw [morefmt, if_neg (by decide), if_neg (by decide), if_neg (by decide), if_pos rfl, hnum]
      exact hld _
  | false =>
      simp only [Bool.false_eq_true, if_false, List.nil_append]
      by_cases hzero : width = 0
      · rw [hzero]
        exact hld noProps
      · -- the first character is a sign or a digit other than 0
        obtain ⟨c, s, hcons, hfirst⟩ : ∃ c s, widthText width ++ [ch 'l', ch 'd'] = c :: s ∧
            ((isDigit c = true ∧ c ≠ ch '0') ∨ c = ch '-') := by
          rw [widthText, if_neg hzero, signed]
          split
          · exact ⟨_, _, rfl, Or.inr rfl⟩
          · obtain ⟨c, s, hcons, hc⟩ := numeral_head (n := width.natAbs) (by omega)
            exact ⟨c, s ++ [ch 'l', ch 'd'], by rw [hcons]; rfl, Or.inl hc⟩
        have hother : ∀ d, isDigit d = false → d ≠ ch '-' → c ≠ d := by
          rintro d hd hsign rfl
          rcases hfirst with hdigit | hminus
          · exact Bool.false_ne_true (hd.symm.trans hdigit.1)
          · exact hsign hminus
        have hcase : isDigit c = true ∨ c = ch '-' := hfirst.imp And.left id
        have hnotzero : c ≠ ch '0' := by
          rcases hfirst with hdigit | hminus
          · exact hdigit.2
          · rw [hminus]
            decide
        rw [hcons] at hnum ⊢
        rw [morefmt, if_neg (hother _ (by decide) (by decide)),
          if_neg (hother _ (by decide) (by decide)), if_neg (hother _ (by decide) (by decide)),
          if_neg hnotzero, dif_pos hcase]
        dsimp only
        rw [hnum]
        exact hld _

section LongDirective

variable {zero : Bool} {width : Int} {n : BitVec 64} {size : BitVec 32} {buf : Nat → BitVec 8}

def ldProps (zero : Bool) (width : Int) : Strprops :=
  ⟨if zero then ch '0' else ch ' ', BitVec.ofInt 32 width, false⟩

theorem formatOutput_ldFormat (hn : n ≠ BitVec.intMin 64) (zero : Bool) (width : Int) :
    formatOutput [.long n] (ldFormat zero width) =
      some (padded (signed n.toInt) (ldProps zero width)) := by
  have hdirective : (Directive.int 1#32 (ldProps zero width)).output [.long n] =
      some (padded (signed n.toInt) (ldProps zero width), []) := by
    rw [Directive.output, if_neg]
    rintro (hzero | hmin)
    · exact absurd hzero (by decide)
    · exact hn hmin
  rw [ldFormat, formatOutput, if_pos rfl]
  simp only [morefmt_ldFormat, ← ldProps.eq_def, hdirective]
  rw [formatOutput, Option.map_some, List.append_nil]

/-- The least `long` is not printed. -/
theorem snprintf_intMin (zero : Bool) (width : Int) :
    snprintf buf size ⟨ldFormat zero width, zero_notMem_ldFormat zero width⟩
      [.long (BitVec.intMin 64)] = none := by
  have hdirective : ∀ s, (Directive.int 1#32 (ldProps zero width)).print s
      [.long (BitVec.intMin 64)] = none := by
    intro s
    rw [Directive.print, if_neg (by decide), printInt, if_pos (Or.inl rfl)]
    rfl
  have hloop : ∀ s, vsnprintfLoop s [.long (BitVec.intMin 64)] (ldFormat zero width) = none := by
    intro s
    rw [ldFormat, vsnprintfLoop, if_pos rfl]
    simp only [morefmt_ldFormat, ← ldProps.eq_def, hdirective]
  rw [snprintf, vsnprintf, hloop]
  rfl

theorem toInt_width (zero : Bool) (hlow : -1000 ≤ width) (hhigh : width ≤ 1000) :
    (ldProps zero width).npad.toInt = width := by
  change (BitVec.ofInt 32 width).toInt = width
  exact toInt_ofInt_32 (by omega) (by omega)

theorem length_signed_le (n : BitVec 64) : (signed n.toInt).length ≤ 21 := by
  have habs : n.toInt.natAbs < 2 ^ 64 := by
    rw [BitVec.toInt_eq_toNat_cond]
    omega
  have hnumeral := length_numeral (le_refl 10) habs
  unfold signed
  split
  · exact Nat.succ_le_succ hnumeral
  · omega

/-- A printed number is read back unless zeros stand before its sign. -/
theorem atol_padded_iff (hlow : -1000 ≤ width) (hhigh : width ≤ 1000) :
    atol (padded (signed n.toInt) (ldProps zero width)) = n ↔
      ¬ (zero = true ∧ n.toInt < 0 ∧ ((signed n.toInt).length : Int) < width) := by
  have hnpad := toInt_width zero hlow hhigh
  have hread : ∀ k, atol (signed n.toInt ++ List.replicate k (ch ' ')) = n := by
    intro k
    rw [atol_signed, BitVec.ofInt_toInt]
    cases k with
    | zero => exact nofun
    | succ k =>
        intro c hc
        rw [← Option.some.inj hc]
        decide
  unfold padded
  rw [hnpad]
  by_cases hleft : ((signed n.toInt).length : Int) < width
  · rw [show (-width - (signed n.toInt).length).toNat = 0 by omega]
    have hfill : 0 < (width - (signed n.toInt).length).toNat := by omega
    generalize (width - (signed n.toInt).length).toNat = k at hfill ⊢
    cases zero with
    | false =>
        refine iff_of_true ?_ fun h => Bool.false_ne_true h.1
        rw [List.append_assoc]
        exact (atol_blanks k _).trans (hread 0)
    | true =>
        rw [List.replicate_zero, List.append_nil]
        by_cases hneg : n.toInt < 0
        · refine iff_of_false ?_ (not_not.mpr ⟨rfl, hneg, hleft⟩)
          rw [signed, if_pos hneg]
          intro hzero
          rw [← (atol_zeros_sign hfill _).symm.trans hzero] at hneg
          exact absurd hneg (by decide)
        · refine iff_of_true ?_ fun h => hneg h.2.1
          have habs : n.toInt.natAbs = n.toNat := by
            rw [BitVec.toInt_eq_toNat_cond] at hneg ⊢
            omega
          rw [signed, if_neg hneg, habs]
          exact (atol_zeros_numeral k n.toNat).trans
            (by rw [BitVec.ofNat_toNat, BitVec.setWidth_eq])
  · refine iff_of_true ?_ fun h => hleft h.2.2
    rw [show (width - (signed n.toInt).length).toNat =
      0 by omega, List.replicate_zero, List.nil_append]
    exact hread _

theorem length_padded_signed (n : BitVec 64) (zero : Bool) (hlow : -1000 ≤ width)
    (hhigh : width ≤ 1000) :
    (padded (signed n.toInt) (ldProps zero width)).length ≤ 1000 := by
  have hnpad := toInt_width zero hlow hhigh
  have hsigned := length_signed_le n
  simp only [padded, List.length_append, List.length_replicate, hnpad]
  omega

theorem zero_notMem_padded (n : BitVec 64) (zero : Bool) (width : Int) :
    0#8 ∉ padded (signed n.toInt) (ldProps zero width) := by
  have hpad : (if zero then ch '0' else ch ' ') ≠ 0#8 := by cases zero <;> decide
  unfold padded
  intro hmem
  rcases List.mem_append.mp hmem with hmem | hright
  · rcases List.mem_append.mp hmem with hleft | htext
    · exact hpad (List.eq_of_mem_replicate hleft).symm
    · exact zero_notMem_signed _ htext
  · exact absurd (List.eq_of_mem_replicate hright) (by decide)

/-- The buffer holds the part of the output that leaves room for the NUL. -/
theorem stringAt_printed_take {out : List (BitVec 8)} (hout : 0#8 ∉ out) (size : Nat)
    (buf : Nat → BitVec 8) :
    StringAt (printed out size buf) 0 (out.take (size - 1)) where
  nonzero hmem := hout (List.mem_of_mem_take hmem)
  chars i hi := by
    rw [List.length_take] at hi
    rw [Nat.zero_add, printed, if_pos hi, List.getD_eq_getElem?_getD, List.getD_eq_getElem?_getD,
      List.getElem?_take_of_lt (by omega)]
  nul := by
    rw [Nat.zero_add, List.length_take, printed, if_neg (Nat.lt_irrefl _), if_pos rfl]

theorem stringAt_printed {out : List (BitVec 8)} {size : Nat} (hout : 0#8 ∉ out)
    (hsize : out.length < size) (buf : Nat → BitVec 8) : StringAt (printed out size buf) 0 out := by
  have hstring := stringAt_printed_take hout size buf
  rwa [List.take_of_length_le (by omega)] at hstring

/-- **A `long` is read back from `%ld`**, for every width and with or without the flag `0`, exactly
if it is not the least one and if it does not get zeros before its sign. -/
theorem snprintf_atol_iff (n : BitVec 64) (zero : Bool) {width : Int} (hlow : -1000 ≤ width)
    (hhigh : width ≤ 1000) {size : BitVec 32} (hsize : 1001 ≤ size.toInt) (buf : Nat → BitVec 8) :
    (∃ buf' added text,
        snprintf buf size ⟨ldFormat zero width, zero_notMem_ldFormat zero width⟩ [.long n] =
          some (buf', added) ∧
          StringAt buf' 0 text ∧ atol text = n) ↔
      n ≠ BitVec.intMin 64 ∧
        ¬ (zero = true ∧ n.toInt < 0 ∧ ((signed n.toInt).length : Int) < width) := by
  by_cases hmin : n = BitVec.intMin 64
  · rw [hmin]
    refine iff_of_false ?_ fun h => h.1 rfl
    rintro ⟨buf', added, text, hcall, -⟩
    rw [snprintf_intMin] at hcall
    cases hcall
  · have hlength := length_padded_signed n zero hlow hhigh
    have hstring := stringAt_printed (zero_notMem_padded n zero width)
      (by omega : _ < size.toInt.toNat) buf
    have hcall : snprintf buf size ⟨ldFormat zero width, zero_notMem_ldFormat zero width⟩
        [.long n] = _ :=
      vsnprintf_eq (formatOutput_ldFormat hmin zero width) (by omega) (by omega) buf
    rw [hcall, and_iff_right hmin, ← atol_padded_iff hlow hhigh]
    constructor
    · rintro ⟨buf', added, text, hresult, htext, hread⟩
      obtain ⟨rfl, -⟩ := Prod.mk.inj (Option.some.inj hresult)
      rwa [hstring.eq htext]
    · intro hread
      exact ⟨_, _, _, rfl, hstring, hread⟩

/-- `%8ld` of -5. -/
theorem snprintf_atol_blanks :
    ∃ buf' added text,
      snprintf (fun _ => 0#8) 2000#32 ⟨ldFormat false 8, zero_notMem_ldFormat false 8⟩
        [.long (-5#64)] =
          some (buf', added) ∧ StringAt buf' 0 text ∧ atol text = -5#64 :=
  (snprintf_atol_iff (-5#64) false (by decide) (by decide) (by decide) (fun _ => 0#8)).mpr
    ⟨by decide, fun h => Bool.false_ne_true h.1⟩

/-- `%08ld` of -5 is `000000-5`, which `atol` reads as 0. -/
theorem snprintf_atol_zeros :
    ∃ buf' added,
      snprintf (fun _ => 0#8) 2000#32 ⟨ldFormat true 8, zero_notMem_ldFormat true 8⟩
        [.long (-5#64)] =
          some (buf', added) ∧
        StringAt buf' 0 [ch '0', ch '0', ch '0', ch '0', ch '0', ch '0', ch '-', ch '5'] ∧
        atol [ch '0', ch '0', ch '0', ch '0', ch '0', ch '0', ch '-', ch '5'] = 0#64 := by
  have hout : padded (signed (-5#64).toInt) (ldProps true 8) =
      [ch '0', ch '0', ch '0', ch '0', ch '0', ch '0', ch '-', ch '5'] := by decide
  have hstring := stringAt_printed (zero_notMem_padded (-5#64) true 8)
    (by decide : _ < 2000) fun _ => 0#8
  have hcall : snprintf (fun _ => 0#8) 2000#32 ⟨ldFormat true 8, zero_notMem_ldFormat true 8⟩
      [.long (-5#64)] = _ :=
    vsnprintf_eq (formatOutput_ldFormat (by decide) true 8) (by decide) (by decide) fun _ => 0#8
  rw [hout] at hstring
  exact ⟨_, _, hcall, hstring, by decide⟩

end LongDirective

end AcrnGuest
