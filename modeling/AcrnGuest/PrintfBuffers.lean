import AcrnGuest.Printf

/-!
# The number printers of both builds (`lib/printf.c`)

`print_int` and `print_unsigned` take a `long long` and write its digits to a local buffer that is
sized by `long`. They are given here for both sizes of `long`; the functions of `Printf` are those
of the 64-bit build. There every number fits. In the 32-bit build the buffers of 14 and 15
characters are too small for long numbers.
-/

namespace AcrnGuest

/-! ### The source -/

/-- What the library is built for. -/
inductive Arch
  | i386
  | x86_64
  deriving DecidableEq

def Arch.sizeofLong : Arch → Nat
  | .i386 => 4
  | .x86_64 => 8

def Arch.intBufSize (arch : Arch) : Nat := arch.sizeofLong * 3 + 2

def Arch.unsignedBufSize (arch : Arch) : Nat := arch.sizeofLong * 3 + 3

/-- There is no result if `-n` is undefined or the local buffer overflows. -/
def printIntOn (arch : Arch) (ps : Pstream) (n : BitVec 64) (base : Nat) (props : Strprops) :
    Option Pstream :=
  if n = BitVec.intMin 64 ∨ arch.intBufSize < (intBuf n base).length + 1 then none
  else some (printStr ps (intBuf n base) props)

/-- There is no result if the local buffer overflows. -/
def printUnsignedOn (arch : Arch) (ps : Pstream) (n : BitVec 64) (base : Nat) (props : Strprops) :
    Option Pstream :=
  let buf := digitsLoop base 64 n.toNat
  let (ps, buf, props) :=
    if buf = [] then (ps, [ch '0'], props)
    else if props.alternate && base = 16 then
      if props.pad = ch '0' then
        let npad :=
          if 0 < props.npad.toInt then
            if 0 < (props.npad - 2#32).toInt then props.npad - 2#32 else 0#32
          else props.npad
        (addchar (addchar ps (ch '0')) (ch 'x'), buf, { props with npad := npad })
      else (ps, buf ++ [ch 'x', ch '0'], props)
    else (ps, buf, props)
  if arch.unsignedBufSize < buf.length + 1 then none
  else some (printStr ps (reverseBuf buf) props)

/-- A directive with `nlong` times `l` takes an argument of 32 bits. -/
def Arch.takesWord (arch : Arch) (nlong : BitVec 32) : Bool :=
  nlong = 0#32 || (arch = .i386 && nlong = 1#32)

/-- The action of a directive; in the 32-bit build a `long` and a pointer are words as well. -/
def Directive.printOn (arch : Arch) (s : Pstream) :
    Directive → List VaArg → Option (Pstream × List VaArg)
  | .literal c, va => some (addchar s c, va)
  | .char, .word v :: va => some (addchar s (v.setWidth 8), va)
  | .stop, va => some (s, va)
  | .int nlong props, .word v :: va =>
      if arch.takesWord nlong then (printIntOn arch s (v.signExtend 64) 10 props).map (·, va)
        else none
  | .int nlong props, .long v :: va =>
      if arch.takesWord nlong then none else (printIntOn arch s v 10 props).map (·, va)
  | .unsigned nlong base props, .word v :: va =>
      if arch.takesWord nlong then (printUnsignedOn arch s (v.setWidth 64) base.val props).map
        (·, va) else none
  | .unsigned nlong base props, .long v :: va =>
      if arch.takesWord nlong then none else (printUnsignedOn arch s v base.val props).map (·, va)
  | .pointer props, .word v :: va =>
      if arch = .i386 then (printUnsignedOn arch s (v.setWidth 64) 16 props).map (·, va) else none
  | .pointer props, .long v :: va =>
      if arch = .i386 then none else (printUnsignedOn arch s v 16 props).map (·, va)
  | .str props, .str v :: va => some (printStr s v.chars props, va)
  | _, _ => none

/-- The loop of `vsnprintf`. The widths in the format are read modulo `2 ^ 32` in both builds. -/
def vsnprintfLoopOn (arch : Arch) (s : Pstream) (va : List VaArg) : List (BitVec 8) → Option Pstream
  | [] => some s
  | f :: fmt =>
      if f = ch '%' then
        have := length_morefmt_le noProps 0#32 fmt
        match (morefmt noProps 0#32 fmt).1.printOn arch s va with
        | none => none
        | some (s, va) => vsnprintfLoopOn arch s va (morefmt noProps 0#32 fmt).2
      else vsnprintfLoopOn arch (addchar s f) va fmt
termination_by fmt => fmt.length
decreasing_by all_goals simp only [List.length_cons]; omega

def vsnprintfOn (arch : Arch) (buf : Nat → BitVec 8) (size : BitVec 32) (fmt : CString)
    (va : List VaArg) :
    Option ((Nat → BitVec 8) × BitVec 32) :=
  (vsnprintfLoopOn arch ⟨buf, 0, size - 1#32, 0#32⟩ va fmt.chars).map fun s =>
    (Function.update s.mem s.buffer 0#8, s.added)

/-! ### The 64-bit build -/

theorem printIntOn_x86_64 : printIntOn .x86_64 = printInt := rfl

theorem printUnsignedOn_x86_64 : printUnsignedOn .x86_64 = printUnsigned := rfl

theorem Directive.printOn_x86_64 (s : Pstream) (d : Directive) (va : List VaArg) :
    d.printOn .x86_64 s va = d.print s va := by
  unfold Directive.printOn Directive.print
  rw [printIntOn_x86_64, printUnsignedOn_x86_64]
  cases d <;> cases va with
  | nil => rfl
  | cons a va => cases a <;> simp [Arch.takesWord]

/-- `vsnprintf` is the function of the 64-bit build. -/
theorem vsnprintfOn_x86_64 (buf : Nat → BitVec 8) (size : BitVec 32) (fmt : CString)
    (va : List VaArg) :
    vsnprintfOn .x86_64 buf size fmt va = vsnprintf buf size fmt va := by
  have hloop : ∀ (s : Pstream) (fmt : List (BitVec 8)),
      vsnprintfLoopOn .x86_64 s va fmt = vsnprintfLoop s va fmt := by
    intro s fmt
    fun_induction vsnprintfLoop s va fmt with
    | case1 s va => rw [vsnprintfLoopOn]
    | case2 s va fmt _ hprint => rw [vsnprintfLoopOn, if_pos rfl, Directive.printOn_x86_64, hprint]
    | case3 s va fmt _ s' va' hprint ih =>
        rw [vsnprintfLoopOn, if_pos rfl, Directive.printOn_x86_64, hprint]
        exact ih
    | case4 s va f fmt hf ih =>
        rw [vsnprintfLoopOn, if_neg hf]
        exact ih
  rw [vsnprintfOn, vsnprintf, hloop]

/-! ### The characters in the local buffers -/

/-- The steps of `while (n)` in `print_int`, where the division truncates towards zero. -/
def signedSteps (base : Nat) : Nat → Int → Nat
  | 0, _ => 0
  | fuel + 1, n => if n = 0 then 0 else signedSteps base fuel (n.tdiv base) + 1

/-- The characters `print_int` writes to its local buffer. The negation wraps, so that the least
`long long` is still negative in the loop. -/
def intLocalChars (n : BitVec 64) (base : Nat) : Nat :=
  let s := n.toInt < 0
  let n := if s then -n else n
  let chars := signedSteps base 64 n.toInt
  let chars := if s then chars + 1 else chars
  let chars := if chars = 0 then 1 else chars
  chars + 1

/-- The characters that `print_unsigned` writes to its local buffer before the NUL. -/
def unsignedLocal (n : BitVec 64) (base : Nat) (props : Strprops) : List (BitVec 8) :=
  let buf := digitsLoop base 64 n.toNat
  if buf = [] then [ch '0']
  else if props.alternate && base = 16 && props.pad ≠ ch '0' then buf ++ [ch 'x', ch '0']
  else buf

/-- The directives of a `long long`. -/
inductive LongLong
  | lld
  | llu
  | llx

def LongLong.letters : LongLong → List (BitVec 8)
  | .lld => [ch 'l', ch 'l', ch 'd']
  | .llu => [ch 'l', ch 'l', ch 'u']
  | .llx => [ch 'l', ch 'l', ch 'x']

def LongLong.directive (props : Strprops) : LongLong → Directive
  | .lld => .int 2#32 props
  | .llu => .unsigned 2#32 .decimal props
  | .llx => .unsigned 2#32 .hex props

/-- How many characters a directive puts in the local buffer, with the NUL. -/
def LongLong.localChars (n : BitVec 64) (props : Strprops) : LongLong → Nat
  | .lld => intLocalChars n 10
  | .llu => (unsignedLocal n 10 props).length + 1
  | .llx => (unsignedLocal n 16 props).length + 1

def LongLong.bufSize (arch : Arch) : LongLong → Nat
  | .lld => arch.intBufSize
  | .llu => arch.unsignedBufSize
  | .llx => arch.unsignedBufSize

/-- The numbers for which the buffers of the 32-bit build are large enough. -/
def LongLong.Short (n : BitVec 64) (props : Strprops) : LongLong → Prop
  | .lld => -10 ^ 12 < n.toInt ∧ n.toInt < 10 ^ 13
  | .llu => n.toNat < 10 ^ 14
  | .llx => n.toNat < if props.alternate ∧ props.pad ≠ ch '0' then 16 ^ 12 else 16 ^ 14

theorem LongLong.morefmt_letters (k : LongLong) (props : Strprops) (fmt : List (BitVec 8)) :
    morefmt props 0#32 (k.letters ++ fmt) = (k.directive props, fmt) := by
  cases k with
  | lld => exact (morefmt_long ..).trans ((morefmt_long ..).trans (morefmt_int ..))
  | llu => exact (morefmt_long ..).trans ((morefmt_long ..).trans (morefmt_unsigned ..))
  | llx => exact (morefmt_long ..).trans ((morefmt_long ..).trans (morefmt_hex ..))

theorem signedSteps_eq {base : Nat} (hbase : 2 ≤ base) {fuel : Nat} {n : Int}
    (hn : n.natAbs < 2 ^ fuel) :
    signedSteps base fuel n = (Nat.digits base n.natAbs).length := by
  induction fuel generalizing n with
  | zero =>
      obtain rfl : n = 0 := by omega
      simp [signedSteps]
  | succ fuel ih =>
      rw [signedSteps]
      split
      · next hzero => simp [hzero]
      · next hne =>
          have habs : (n.tdiv base).natAbs = n.natAbs / base := Int.natAbs_tdiv n base
          have hdiv : n.natAbs / base ≤ n.natAbs / 2 := Nat.div_le_div_left hbase (by omega)
          rw [ih (by omega), habs, Nat.digits_def' hbase (by omega : 0 < n.natAbs),
            List.length_cons]

theorem length_digitsLoop_eq {base : Nat} (hbase : 2 ≤ base) (n : BitVec 64) :
    (digitsLoop base 64 n.toNat).length = (Nat.digits base n.toNat).length := by
  rw [digitsLoop_eq hbase n.isLt, List.length_map]

theorem intLocalChars_eq (n : BitVec 64) {base : Nat} (hbase : 2 ≤ base) :
    intLocalChars n base = (intBuf n base).length + 1 := by
  have hsteps : ∀ m : BitVec 64, m.toInt.natAbs = m.toNat →
      signedSteps base 64 m.toInt = (digitsLoop base 64 m.toNat).length := by
    intro m hm
    rw [signedSteps_eq hbase (by rw [hm]; exact m.isLt), length_digitsLoop_eq hbase, hm]
  unfold intLocalChars intBuf
  dsimp only
  rw [reverseBuf_eq, List.length_reverse]
  by_cases hneg : n.toInt < 0
  · have habs : (-n).toInt.natAbs = (-n).toNat := by
      rw [BitVec.toInt_eq_toNat_cond] at hneg ⊢
      rw [BitVec.toNat_neg]
      omega
    simp only [if_pos hneg]
    rw [if_neg (by omega), if_neg (by simp), List.length_append, hsteps _ habs]
    rfl
  · have habs : n.toInt.natAbs = n.toNat := by
      rw [BitVec.toInt_eq_toNat_cond] at hneg ⊢
      omega
    simp only [if_neg hneg]
    rw [hsteps n habs]
    by_cases hnil : digitsLoop base 64 n.toNat = []
    · rw [if_pos (by rw [hnil]; rfl), if_pos hnil]
      rfl
    · rw [if_neg (mt List.length_eq_zero_iff.mp hnil), if_neg hnil]

/-- A signed number is printed alike in both builds, if it can be negated and fits. -/
theorem printIntOn_eq (arch : Arch) (ps : Pstream) (n : BitVec 64) (props : Strprops) :
    printIntOn arch ps n 10 props =
      if n = BitVec.intMin 64 ∨ arch.intBufSize < intLocalChars n 10 then none
      else some ((padded (signed n.toInt) props).foldl addchar ps) := by
  have hlength := length_signed n
  rw [printIntOn, intLocalChars_eq n (by decide), intBuf_eq, printStr_eq _ _ (by omega)]

/-- The size of the local buffer only decides whether there is a result. -/
theorem exists_printUnsignedOn (ps : Pstream) (n : BitVec 64) (base : Nat) (props : Strprops) :
    ∃ ps', ∀ arch : Arch, printUnsignedOn arch ps n base props =
      if arch.unsignedBufSize < (unsignedLocal n base props).length + 1 then none
        else some ps' := by
  unfold printUnsignedOn unsignedLocal
  by_cases hnil : digitsLoop base 64 n.toNat = []
  · simp only [if_pos hnil]
    exact ⟨_, fun arch => rfl⟩
  · by_cases halt : (props.alternate && decide (base = 16)) = true
    · by_cases hpad : props.pad = ch '0'
      · simp only [if_neg hnil, halt, hpad, if_true, ne_eq, not_true, decide_false, Bool.and_false,
          Bool.false_eq_true, if_false]
        exact ⟨_, fun arch => rfl⟩
      · simp only [if_neg hnil, halt, hpad, if_true, if_false, ne_eq, not_false_iff, decide_true,
          Bool.and_true]
        exact ⟨_, fun arch => rfl⟩
    · simp only [if_neg hnil, halt, Bool.false_and, Bool.false_eq_true, if_false]
      exact ⟨_, fun arch => rfl⟩

/-- An unsigned number is printed alike in both builds, if it fits. -/
theorem printUnsignedOn_eq (arch : Arch) (ps : Pstream) (n : BitVec 64) {base : Nat}
    (hbase : 10 ≤ base) (props : Strprops) :
    printUnsignedOn arch ps n base props =
      if arch.unsignedBufSize < (unsignedLocal n base props).length + 1 then none
      else some ((unsignedOutput base n.toNat props).foldl addchar ps) := by
  obtain ⟨ps', hprint⟩ := exists_printUnsignedOn ps n base props
  have hfull := printUnsigned_eq ps n hbase props
  rw [← printUnsignedOn_x86_64, hprint] at hfull
  obtain ⟨-, hps'⟩ := Option.ite_none_left_eq_some.mp hfull
  rw [hprint, hps']

/-- A directive fails on a `long long` exactly if it puts more characters in the local buffer than
that holds, or cannot negate the number. -/
theorem LongLong.printOn_eq_none_iff (arch : Arch) (k : LongLong) (s : Pstream) (n : BitVec 64)
    (props : Strprops) (va : List VaArg) :
    (k.directive props).printOn arch s (.long n :: va) = none ↔
      k.bufSize arch < k.localChars n props ∨ (k matches .lld ∧ n = BitVec.intMin 64) := by
  have hword : arch.takesWord 2#32 = false := by cases arch <;> rfl
  cases k with
  | lld =>
      simp only [LongLong.directive, Directive.printOn, hword, Bool.false_eq_true, if_false,
        Option.map_eq_none_iff, printIntOn_eq, ite_eq_left_iff, reduceCtorEq, imp_false,
        not_not, true_and]
      exact or_comm
  | llu =>
      simp only [LongLong.directive, Directive.printOn, hword, Bool.false_eq_true, if_false,
        Option.map_eq_none_iff, printUnsignedOn_eq arch s n Base.decimal.property.1,
        ite_eq_left_iff, reduceCtorEq, imp_false, not_not, false_and, or_false]
      rfl
  | llx =>
      simp only [LongLong.directive, Directive.printOn, hword, Bool.false_eq_true, if_false,
        Option.map_eq_none_iff, printUnsignedOn_eq arch s n Base.hex.property.1, ite_eq_left_iff,
        reduceCtorEq, imp_false, not_not, false_and, or_false]
      rfl

/-! ### Which numbers fit -/

theorem length_digitsLoop_le_iff {base : Nat} (hbase : 2 ≤ base) (n : BitVec 64) (k : Nat) :
    (digitsLoop base 64 n.toNat).length ≤ k ↔ n.toNat < base ^ k := by
  rw [length_digitsLoop_eq hbase]
  exact Nat.digits_length_le_iff (by omega) n.toNat

def markRoom (base : Nat) (props : Strprops) : Nat :=
  if props.alternate ∧ base = 16 ∧ props.pad ≠ ch '0' then 2 else 0

theorem length_unsignedLocal_of_ne {n : BitVec 64} {base : Nat} (hbase : 2 ≤ base)
    (hn : n.toNat ≠ 0) (props : Strprops) :
    (unsignedLocal n base props).length =
      (digitsLoop base 64 n.toNat).length + markRoom base props := by
  have hnil := mt (digitsLoop_eq_nil hbase n.isLt).mp hn
  unfold unsignedLocal markRoom
  rw [if_neg hnil]
  by_cases hmark : props.alternate ∧ base = 16 ∧ props.pad ≠ ch '0'
  · rw [if_pos hmark, if_pos (by simpa [and_assoc] using hmark), List.length_append]
    rfl
  · rw [if_neg hmark, if_neg (by simpa [and_assoc] using hmark), Nat.add_zero]

/-- The digits have the room that the NUL and the prefix leave. -/
theorem unsignedLocal_fits_iff (n : BitVec 64) {base : Nat} (hbase : 2 ≤ base)
    (props : Strprops) (k : Nat) :
    (unsignedLocal n base props).length + 1 ≤ markRoom base props + (k + 1) + 1 ↔
      n.toNat < base ^ (k + 1) := by
  by_cases hzero : n.toNat = 0
  · have hone : (unsignedLocal n base props).length = 1 := by
      rw [unsignedLocal, if_pos ((digitsLoop_eq_nil hbase n.isLt).mpr hzero)]
      rfl
    rw [hone, hzero]
    exact iff_of_true (by omega) (Nat.pow_pos (by omega))
  · rw [length_unsignedLocal_of_ne hbase hzero, ← length_digitsLoop_le_iff hbase]
    omega

theorem length_numeral_le_iff {base : Nat} (hbase : 2 ≤ base) (n k : Nat) :
    (numeral base n).length ≤ k + 1 ↔ n < base ^ (k + 1) := by
  unfold numeral
  split
  · next hzero =>
      rw [hzero]
      exact iff_of_true (Nat.le_add_left 1 k) (Nat.pow_pos (by omega))
  · rw [List.length_reverse, List.length_map]
    exact Nat.digits_length_le_iff (by omega) n

/-- The sign of a negative number takes the room of a digit. -/
theorem intLocalChars_fits_iff (n : BitVec 64) (k : Nat) :
    intLocalChars n 10 ≤ k + 1 + 1 + 1 ↔
      -((10 ^ (k + 1) : Nat) : Int) < n.toInt ∧ n.toInt < (10 ^ (k + 1 + 1) : Nat) := by
  have hpos : 0 < 10 ^ (k + 1) := Nat.pow_pos (by decide)
  have hmore : 0 < 10 ^ (k + 1 + 1) := Nat.pow_pos (by decide)
  rw [intLocalChars_eq n (by decide), intBuf_eq, Nat.add_le_add_iff_right, signed]
  split
  · next hneg =>
      rw [List.length_cons, Nat.add_le_add_iff_right, length_numeral_le_iff (by decide)]
      generalize 10 ^ (k + 1) = low at *
      generalize 10 ^ (k + 1 + 1) = high at *
      omega
  · next hneg =>
      rw [length_numeral_le_iff (by decide)]
      generalize 10 ^ (k + 1) = low at *
      generalize 10 ^ (k + 1 + 1) = high at *
      omega

theorem markRoom_le (base : Nat) (props : Strprops) : markRoom base props ≤ 2 := by
  unfold markRoom
  split <;> decide

theorem unsignedLocal_x86_64 (n : BitVec 64) {base : Nat} (hbase : 10 ≤ base) (props : Strprops) :
    (unsignedLocal n base props).length + 1 ≤ Arch.x86_64.unsignedBufSize := by
  have hroom := markRoom_le base props
  have hpow : 10 ^ 20 ≤ base ^ 20 := Nat.pow_le_pow_left hbase 20
  have hn : n.toNat < base ^ (19 + 1) := n.isLt.trans_le (le_trans (by decide) hpow)
  have hfits := (unsignedLocal_fits_iff n (by omega) props 19).mpr hn
  have hsize : Arch.x86_64.unsignedBufSize = 27 := rfl
  omega

/-- **The local buffers**: with a `long` of 8 bytes every number fits, with one of 4 bytes exactly
the short ones. -/
theorem localChars_le_bufSize_iff (arch : Arch) (k : LongLong) (n : BitVec 64) (props : Strprops) :
    k.localChars n props ≤ k.bufSize arch ↔ arch = .x86_64 ∨ k.Short n props := by
  cases arch with
  | x86_64 =>
      refine iff_of_true ?_ (Or.inl rfl)
      cases k with
      | lld =>
          have hlow := BitVec.le_toInt n
          have hhigh := BitVec.toInt_lt (x := n)
          exact (intLocalChars_fits_iff n 23).mpr ⟨by omega, by omega⟩
      | llu => exact unsignedLocal_x86_64 n (by decide) props
      | llx => exact unsignedLocal_x86_64 n (by decide) props
  | i386 =>
      rw [or_iff_right (by decide)]
      cases k with
      | lld => exact intLocalChars_fits_iff n 11
      | llu =>
          have hroom : markRoom 10 props = 0 := if_neg fun h => absurd h.2.1 (by decide)
          have hfits := unsignedLocal_fits_iff n (by decide : 2 ≤ 10) props 13
          rwa [hroom] at hfits
      | llx =>
          unfold LongLong.Short
          by_cases hmark : props.alternate ∧ props.pad ≠ ch '0'
          · have hroom : markRoom 16 props = 2 := if_pos ⟨hmark.1, rfl, hmark.2⟩
            have hfits := unsignedLocal_fits_iff n (by decide : 2 ≤ 16) props 11
            rw [hroom] at hfits
            rw [if_pos hmark]
            exact hfits
          · have hroom : markRoom 16 props = 0 := if_neg fun h => hmark ⟨h.1, h.2.2⟩
            have hfits := unsignedLocal_fits_iff n (by decide : 2 ≤ 16) props 13
            rw [hroom] at hfits
            rw [if_neg hmark]
            exact hfits

/-- The greatest `long long` has 19 decimal and 16 hexadecimal digits. No buffer of the 32-bit build
holds them. -/
theorem localChars_of_greatest :
    LongLong.lld.bufSize .i386 < LongLong.lld.localChars (BitVec.intMax 64) noProps ∧
      LongLong.llu.bufSize .i386 < LongLong.llu.localChars (BitVec.intMax 64) noProps ∧
      LongLong.llx.bufSize .i386 < LongLong.llx.localChars (BitVec.intMax 64) noProps := by decide

end AcrnGuest
