import AcrnGuest.Loop
import Mathlib.Data.Nat.Digits.Lemmas

/-!
# Formatted output into a buffer (`lib/printf.c`)

`vsnprintf` walks over the format string and sends every character of its output
through `addchar`, which stores it while there is room and counts it in any case.
`formatOutput` is the output itself, without a buffer. The main result says that the
code stores as much of it as fits, a NUL behind it and nothing else, and returns its
whole length.

Strings are lists of characters that are not NUL. The arguments are given by the
width in which `va_arg` takes them.
-/

namespace AcrnGuest

/-! ### The source -/

def ch (c : Char) : BitVec 8 := BitVec.ofNat 8 c.toNat

/-- A C string, without its NUL. -/
structure CString where
  chars : List (BitVec 8)
  nul : 0#8 ∉ chars

/-- An argument behind the format: `int` and `unsigned`, `long`, `long long` and pointers,
    and strings. -/
inductive VaArg
  | word (v : BitVec 32)
  | long (v : BitVec 64)
  | str (s : CString)

/-- The stream with the caller's buffer; `buffer` is the index of the next character. -/
structure Pstream where
  mem : Nat → BitVec 8
  buffer : Nat
  remain : BitVec 32
  added : BitVec 32

structure Strprops where
  pad : BitVec 8
  npad : BitVec 32
  alternate : Bool

def addchar (p : Pstream) (c : BitVec 8) : Pstream :=
  if p.remain = 0#32 then { p with added := p.added + 1#32 }
  else
    { mem := Function.update p.mem p.buffer c, buffer := p.buffer + 1, remain := p.remain - 1#32,
      added := p.added + 1#32 }

def addPad (p : Pstream) (pad : BitVec 8) (n : Int) : Pstream :=
  Loop.up (fun _ p => addchar p pad) n.toNat p

def printStr (p : Pstream) (s : List (BitVec 8)) (props : Strprops) : Pstream :=
  let strlen := BitVec.ofNat 32 s.length
  if 0 < props.npad.toInt then
    let npad := props.npad - strlen
    let p := s.foldl addchar (addPad p props.pad npad.toInt)
    -- the loop has counted a positive `npad` down to zero
    if npad.toInt < 0 then addPad p (ch ' ') (-(npad + strlen).toInt) else p
  else
    let p := s.foldl addchar p
    if props.npad.toInt < 0 then addPad p (ch ' ') (-(props.npad + strlen).toInt) else p

def digits : List (BitVec 8) := "0123456789abcdef".toList.map ch

/-- The loop `while (n)`, which pushes the digits of `n` from the lowest one on; a number
    below `2 ^ fuel` has at most `fuel` of them. -/
def digitsLoop (base : Nat) : Nat → Nat → List (BitVec 8)
  | 0, _ => []
  | fuel + 1, n =>
      if n = 0 then [] else digits.getD (n % base) 0#8 :: digitsLoop base fuel (n / base)

/-- The local buffer of `print_int`, `sizeof(long) * 3 + 2` characters with the NUL. -/
def PRINT_INT_BUF : Nat := 26

/-- The local buffer of `print_unsigned`, `sizeof(long) * 3 + 3` characters with the NUL. -/
def PRINT_UNSIGNED_BUF : Nat := 27

/-- One turn of the loop at the end of `print_int` and `print_unsigned`: `buf[i]` and `p[-1-i]`
    change places. -/
def swapEnds (i : Nat) (buf : List (BitVec 8)) : List (BitVec 8) :=
  let tmp := buf.getD i 0#8
  (buf.set i (buf.getD (buf.length - 1 - i) 0#8)).set (buf.length - 1 - i) tmp

def reverseBuf (buf : List (BitVec 8)) : List (BitVec 8) :=
  Loop.up swapEnds (buf.length / 2) buf

/-- What `print_int` leaves in its local buffer. -/
def intBuf (n : BitVec 64) (base : Nat) : List (BitVec 8) :=
  let buf :=
    if n.toInt < 0 then digitsLoop base 64 (-n).toNat ++ [ch '-'] else digitsLoop base 64 n.toNat
  reverseBuf (if buf = [] then [ch '0'] else buf)

/-- There is no result if `-n` is undefined or the local buffer overflows. -/
def printInt (ps : Pstream) (n : BitVec 64) (base : Nat) (props : Strprops) : Option Pstream :=
  if n = BitVec.intMin 64 ∨ PRINT_INT_BUF < (intBuf n base).length + 1 then none
  else some (printStr ps (intBuf n base) props)

/-- There is no result if the local buffer overflows. -/
def printUnsigned (ps : Pstream) (n : BitVec 64) (base : Nat) (props : Strprops) :
    Option Pstream :=
  let buf := digitsLoop base 64 n.toNat
  let (ps, buf, props) :=
    if buf = [] then (ps, [ch '0'], props)
    else if props.alternate && base = 16 then
      if props.pad = ch '0' then
        let npad :=
          if 0 < props.npad.toInt then
            if 0 < (props.npad - 2#32).toInt then props.npad - 2#32 else 0#32
          else props.npad
        (addchar (addchar ps (ch '0')) (ch 'x'), buf, { props with npad := npad })
      else (ps, buf ++ [ch 'x', ch '0'], props)
    else (ps, buf, props)
  if PRINT_UNSIGNED_BUF < buf.length + 1 then none
  else some (printStr ps (reverseBuf buf) props)

def isDigit (c : BitVec 8) : Bool := ch '0' ≤ c && c ≤ ch '9'

/-- The digits loop of `atol`; the sum is kept in 64 bits. -/
def atolLoop (acc : BitVec 64) : List (BitVec 8) → BitVec 64
  | [] => acc
  | c :: s => if isDigit c then atolLoop (acc * 10#64 + (c - ch '0').setWidth 64) s else acc

def atol (s : List (BitVec 8)) : BitVec 64 :=
  match s.dropWhile fun c => c = ch ' ' || c = ch '\t' with
  | [] => 0#64
  | c :: s =>
      if c = ch '-' then -atolLoop 0#64 s
      else if c = ch '+' then atolLoop 0#64 s
      else atolLoop 0#64 (c :: s)

/-- The number at the start of the format, and the format behind it. -/
def fmtnum (fmt : List (BitVec 8)) : BitVec 32 × List (BitVec 8) :=
  let f := match fmt with
    | c :: f => if c = ch '-' then f else c :: f
    | [] => []
  ((atol fmt).setWidth 32, f.dropWhile isDigit)

def Base : Type := { base : Nat // 10 ≤ base ∧ base ≤ 16 }

def Base.decimal : Base := ⟨10, by decide⟩

def Base.hex : Base := ⟨16, by decide⟩

/-- What the format asks for behind a `%`, with its flags. -/
inductive Directive
  | literal (c : BitVec 8)
  | char
  | stop
  | int (nlong : BitVec 32) (props : Strprops)
  | unsigned (nlong : BitVec 32) (base : Base) (props : Strprops)
  | pointer (props : Strprops)
  | str (props : Strprops)

theorem length_fmtnum_le (fmt : List (BitVec 8)) : (fmtnum fmt).2.length ≤ fmt.length := by
  unfold fmtnum
  cases fmt with
  | nil => rfl
  | cons c f =>
      dsimp only
      split
      · exact (List.dropWhile_suffix _).length_le.trans (Nat.le_succ _)
      · exact (List.dropWhile_suffix _).length_le

/-- Of a digit or a sign at least the first character is consumed. -/
theorem length_fmtnum_lt {c : BitVec 8} (hc : isDigit c = true ∨ c = ch '-') (f : List (BitVec 8)) :
    (fmtnum (c :: f)).2.length < (c :: f).length := by
  unfold fmtnum
  dsimp only
  split
  · exact Nat.lt_succ_of_le (List.dropWhile_suffix _).length_le
  · next hne =>
      rw [List.dropWhile_cons_of_pos (hc.resolve_right hne)]
      exact Nat.lt_succ_of_le (List.dropWhile_suffix _).length_le

/-- The loop at the label `morefmt`. -/
def morefmt (props : Strprops) (nlong : BitVec 32) : List (BitVec 8) → Directive × List (BitVec 8)
  | [] => (.stop, [])
  | f :: fmt =>
      if f = ch '%' then (.literal f, fmt)
      else if f = ch 'c' then (.char, fmt)
      else if f = ch '#' then morefmt { props with alternate := true } nlong fmt
      else if f = ch '0' then
        have := length_fmtnum_le fmt
        morefmt { props with pad := ch '0', npad := (fmtnum fmt).1 } nlong (fmtnum fmt).2
      else if h : isDigit f = true ∨ f = ch '-' then
        have := length_fmtnum_lt h fmt
        morefmt { props with npad := (fmtnum (f :: fmt)).1 } nlong (fmtnum (f :: fmt)).2
      else if f = ch 'l' then morefmt props (nlong + 1#32) fmt
      else if f = ch 't' || f = ch 'z' then morefmt props 1#32 fmt
      else if f = ch 'd' then (.int nlong props, fmt)
      else if f = ch 'u' then (.unsigned nlong .decimal props, fmt)
      else if f = ch 'x' then (.unsigned nlong .hex props, fmt)
      else if f = ch 'p' then (.pointer { props with alternate := true }, fmt)
      else if f = ch 's' then (.str props, fmt)
      else (.literal f, fmt)
termination_by fmt => fmt.length
decreasing_by all_goals simp only [List.length_cons] at *; omega

/-- The action of a directive on the arguments and the stream; `none` if the next argument
    does not match. -/
def Directive.print (s : Pstream) : Directive → List VaArg → Option (Pstream × List VaArg)
  | .literal c, va => some (addchar s c, va)
  | .char, .word v :: va => some (addchar s (v.setWidth 8), va)
  | .stop, va => some (s, va)
  | .int nlong props, .word v :: va =>
      if nlong = 0#32 then (printInt s (v.signExtend 64) 10 props).map (·, va) else none
  | .int nlong props, .long v :: va =>
      if nlong = 0#32 then none else (printInt s v 10 props).map (·, va)
  | .unsigned nlong base props, .word v :: va =>
      if nlong = 0#32 then (printUnsigned s (v.setWidth 64) base.val props).map (·, va) else none
  | .unsigned nlong base props, .long v :: va =>
      if nlong = 0#32 then none else (printUnsigned s v base.val props).map (·, va)
  | .pointer props, .long v :: va => (printUnsigned s v 16 props).map (·, va)
  | .str props, .str v :: va => some (printStr s v.chars props, va)
  | _, _ => none

def noProps : Strprops := ⟨ch ' ', 0#32, false⟩

theorem length_morefmt_le (props : Strprops) (nlong : BitVec 32) (fmt : List (BitVec 8)) :
    (morefmt props nlong fmt).2.length ≤ fmt.length := by
  fun_induction morefmt props nlong fmt <;>
    simp only [List.length_cons, List.length_nil] at * <;> omega

/-- The loop of `vsnprintf`. -/
def vsnprintfLoop (s : Pstream) (va : List VaArg) : List (BitVec 8) → Option Pstream
  | [] => some s
  | f :: fmt =>
      if f = ch '%' then
        have := length_morefmt_le noProps 0#32 fmt
        match (morefmt noProps 0#32 fmt).1.print s va with
        | none => none
        | some (s, va) => vsnprintfLoop s va (morefmt noProps 0#32 fmt).2
      else vsnprintfLoop (addchar s f) va fmt
termination_by fmt => fmt.length
decreasing_by all_goals simp only [List.length_cons]; omega

/-- The buffer afterwards and the returned number. -/
def vsnprintf (buf : Nat → BitVec 8) (size : BitVec 32) (fmt : CString) (va : List VaArg) :
    Option ((Nat → BitVec 8) × BitVec 32) :=
  (vsnprintfLoop ⟨buf, 0, size - 1#32, 0#32⟩ va fmt.chars).map fun s =>
    (Function.update s.mem s.buffer 0#8, s.added)

/-! ### The output of a format -/

/-- A text between its padding: to the left for a positive width and to the right, always with
    blanks, for a negative one. -/
def padded (s : List (BitVec 8)) (props : Strprops) : List (BitVec 8) :=
  List.replicate (props.npad.toInt - s.length).toNat props.pad ++ s ++
    List.replicate (-props.npad.toInt - s.length).toNat (ch ' ')

def numeral (base n : Nat) : List (BitVec 8) :=
  if n = 0 then [ch '0'] else ((Nat.digits base n).map (digits.getD · 0#8)).reverse

def signed (v : Int) : List (BitVec 8) :=
  if v < 0 then ch '-' :: numeral 10 v.natAbs else numeral 10 v.natAbs

/-- With `#` a number other than zero gets `0x` in front: before a padding with zeros, which is
    then shorter by two, or behind a padding with blanks. -/
def unsignedOutput (base : Nat) (n : Nat) (props : Strprops) : List (BitVec 8) :=
  if props.alternate && base = 16 && n ≠ 0 then
    if props.pad = ch '0' then
      [ch '0', ch 'x'] ++ padded (numeral base n)
        { props with
          npad := if 0 < props.npad.toInt then BitVec.ofInt 32 (max (props.npad.toInt - 2) 0)
            else props.npad }
    else padded ([ch '0', ch 'x'] ++ numeral base n) props
  else padded (numeral base n) props

/-- The output of a directive and the arguments it leaves. There is none if the next argument
    does not match or is the least `long long`. -/
def Directive.output : Directive → List VaArg → Option (List (BitVec 8) × List VaArg)
  | .literal c, va => some ([c], va)
  | .char, .word v :: va => some ([v.setWidth 8], va)
  | .stop, va => some ([], va)
  | .int nlong props, .word v :: va =>
      if nlong = 0#32 then some (padded (signed v.toInt) props, va) else none
  | .int nlong props, .long v :: va =>
      if nlong = 0#32 ∨ v = BitVec.intMin 64 then none
      else some (padded (signed v.toInt) props, va)
  | .unsigned nlong base props, .word v :: va =>
      if nlong = 0#32 then some (unsignedOutput base.val v.toNat props, va) else none
  | .unsigned nlong base props, .long v :: va =>
      if nlong = 0#32 then none else some (unsignedOutput base.val v.toNat props, va)
  | .pointer props, .long v :: va => some (unsignedOutput 16 v.toNat props, va)
  | .str props, .str v :: va => some (padded v.chars props, va)
  | _, _ => none

/-- The untruncated output of a format, if the arguments match it. -/
def formatOutput (va : List VaArg) : List (BitVec 8) → Option (List (BitVec 8))
  | [] => some []
  | f :: fmt =>
      if f = ch '%' then
        have := length_morefmt_le noProps 0#32 fmt
        match (morefmt noProps 0#32 fmt).1.output va with
        | none => none
        | some (out, va) => (formatOutput va (morefmt noProps 0#32 fmt).2).map (out ++ ·)
      else (formatOutput va fmt).map (f :: ·)
termination_by fmt => fmt.length
decreasing_by all_goals simp only [List.length_cons]; omega

/-! ### The stream -/

theorem addPad_eq (p : Pstream) (pad : BitVec 8) (n : Int) :
    addPad p pad n = (List.replicate n.toNat pad).foldl addchar p := by
  unfold addPad
  induction n.toNat with
  | zero => rfl
  | succ n ih => rw [List.replicate_succ', List.foldl_append, ← ih]; rfl

theorem addchar_of_full {p : Pstream} (h : p.remain = 0#32) (c : BitVec 8) :
    addchar p c = { p with added := p.added + 1#32 } := if_pos h

theorem addchar_of_room {p : Pstream} (h : p.remain ≠ 0#32) (c : BitVec 8) :
    addchar p c =
      { mem := Function.update p.mem p.buffer c, buffer := p.buffer + 1, remain := p.remain - 1#32,
        added := p.added + 1#32 } := if_neg h

theorem foldl_addchar_added (l : List (BitVec 8)) (p : Pstream) :
    (l.foldl addchar p).added = p.added + BitVec.ofNat 32 l.length := by
  induction l generalizing p with
  | nil => exact (BitVec.add_zero _).symm
  | cons c l ih =>
      have hstep : (addchar p c).added = p.added + 1#32 := by
        unfold addchar
        split <;> rfl
      rw [List.foldl_cons, ih, hstep, List.length_cons, BitVec.ofNat_add, BitVec.add_assoc,
        BitVec.add_comm 1#32]

/-- Of a text sent to the stream the part that fits is stored, and nothing else changes. -/
theorem foldl_addchar_mem (l : List (BitVec 8)) (p : Pstream) :
    (l.foldl addchar p).buffer = p.buffer + min p.remain.toNat l.length ∧
    ∀ i, (l.foldl addchar p).mem i =
      if p.buffer ≤ i ∧ i < p.buffer + min p.remain.toNat l.length then l.getD (i - p.buffer) 0#8
      else p.mem i := by
  induction l generalizing p with
  | nil => exact ⟨by simp, fun i => by rw [if_neg (by simp)]; rfl⟩
  | cons c l ih =>
      obtain ⟨hbuffer, hmem⟩ := ih (addchar p c)
      rw [List.foldl_cons, List.length_cons]
      by_cases hremain : p.remain = 0#32
      · have hzero : p.remain.toNat = 0 := by rw [hremain]; rfl
        rw [addchar_of_full hremain] at hbuffer hmem ⊢
        dsimp only at hbuffer hmem
        refine ⟨by omega, fun i => ?_⟩
        rw [hmem i, if_neg (by omega), if_neg (by omega)]
      · have hroom : (p.remain - 1#32).toNat + 1 = p.remain.toNat := by bv_omega
        rw [addchar_of_room hremain] at hbuffer hmem ⊢
        dsimp only at hbuffer hmem
        refine ⟨by omega, fun i => ?_⟩
        rw [hmem i]
        rcases Nat.lt_trichotomy i p.buffer with hi | rfl | hi
        · rw [if_neg (by omega), if_neg (by omega), Function.update_of_ne (by omega)]
        · rw [if_neg (by omega), if_pos (by omega), Function.update_self, Nat.sub_self]
          rfl
        · have hnext : i - p.buffer = i - (p.buffer + 1) + 1 := by omega
          rw [Function.update_of_ne (by omega), hnext, List.getD_cons_succ]
          exact if_congr (by omega) rfl rfl

/-! ### The directives -/

section Letters

variable (props : Strprops) (nlong : BitVec 32) (fmt : List (BitVec 8))

theorem morefmt_percent : morefmt props nlong (ch '%' :: fmt) = (.literal (ch '%'), fmt) := by
  rw [morefmt]
  rfl

theorem morefmt_long : morefmt props nlong (ch 'l' :: fmt) = morefmt props (nlong + 1#32) fmt := by
  rw [morefmt]
  rfl

theorem morefmt_int : morefmt props nlong (ch 'd' :: fmt) = (.int nlong props, fmt) := by
  rw [morefmt]
  rfl

theorem morefmt_unsigned :
    morefmt props nlong (ch 'u' :: fmt) = (.unsigned nlong .decimal props, fmt) := by
  rw [morefmt]
  rfl

theorem morefmt_hex : morefmt props nlong (ch 'x' :: fmt) = (.unsigned nlong .hex props, fmt) := by
  rw [morefmt]
  rfl

theorem morefmt_str : morefmt props nlong (ch 's' :: fmt) = (.str props, fmt) := by
  rw [morefmt]
  rfl

end Letters

theorem toInt_add_length {x : BitVec 32} {n : Nat} (hx : x.toInt < 0) (hn : n < 2 ^ 31) :
    (x + BitVec.ofNat 32 n).toInt = x.toInt + n := by
  simp only [BitVec.toInt_eq_toNat_cond, BitVec.toNat_add, BitVec.toNat_ofNat] at hx ⊢
  omega

theorem toInt_sub_length {x : BitVec 32} {n : Nat} (hx : 0 < x.toInt) (hn : n < 2 ^ 31) :
    (x - BitVec.ofNat 32 n).toInt = x.toInt - n := by
  simp only [BitVec.toInt_eq_toNat_cond, BitVec.toNat_sub, BitVec.toNat_ofNat] at hx ⊢
  omega

theorem printStr_eq (p : Pstream) {s : List (BitVec 8)} (props : Strprops)
    (hs : s.length < 2 ^ 31) : printStr p s props = (padded s props).foldl addchar p := by
  have hnone : ∀ (c : BitVec 8) {n : Int}, n ≤ 0 → List.replicate n.toNat c = [] := by
    intro c n hn
    rw [Int.toNat_of_nonpos hn]
    rfl
  unfold printStr padded
  dsimp only
  split
  · next hpos =>
      have hsub := toInt_sub_length hpos hs
      rw [hnone (ch ' ') (by omega), List.append_nil, List.foldl_append]
      simp only [addPad_eq, hsub]
      split
      · -- the width is smaller than the text: the second loop finds it positive again
        rw [BitVec.sub_add_cancel, hnone (ch ' ') (by omega)]
        rfl
      · rfl
  · next hnonpos =>
      rw [hnone props.pad (by omega), List.nil_append, List.foldl_append]
      split
      · next hneg =>
          rw [addPad_eq, toInt_add_length hneg hs]
          congr 2
          omega
      · rw [hnone (ch ' ') (by omega)]
        rfl

theorem digitsLoop_eq {base : Nat} (hbase : 2 ≤ base) {fuel n : Nat} (hn : n < 2 ^ fuel) :
    digitsLoop base fuel n = (Nat.digits base n).map (digits.getD · 0#8) := by
  induction fuel generalizing n with
  | zero =>
      obtain rfl : n = 0 := by omega
      simp [digitsLoop]
  | succ fuel ih =>
      rw [digitsLoop]
      split
      · next hzero => simp [hzero]
      · next hpos =>
          have hdiv : n / base < 2 ^ fuel := by
            have hle : n / base ≤ n / 2 := Nat.div_le_div_left hbase (by omega)
            omega
          rw [ih hdiv, Nat.digits_def' hbase (Nat.pos_of_ne_zero hpos), List.map_cons]

/-- A number of 64 bits has at most twenty digits. -/
theorem length_digitsLoop {base : Nat} (hbase : 10 ≤ base) {n : Nat} (hn : n < 2 ^ 64) :
    (digitsLoop base 64 n).length ≤ 20 := by
  rw [digitsLoop_eq (by omega) hn, List.length_map]
  have hpow : 10 ^ 20 ≤ base ^ 20 := Nat.pow_le_pow_left hbase 20
  exact (Nat.digits_length_le_iff (by omega) n).mpr (by omega)

theorem digitsLoop_eq_nil {base : Nat} (hbase : 2 ≤ base) {n : Nat} (hn : n < 2 ^ 64) :
    digitsLoop base 64 n = [] ↔ n = 0 := by
  rw [digitsLoop_eq hbase hn, List.map_eq_nil_iff, Nat.digits_eq_nil_iff_eq_zero]

theorem numeral_eq_reverse {base : Nat} (hbase : 2 ≤ base) {n : Nat} (hn : n < 2 ^ 64)
    (hpos : n ≠ 0) : numeral base n = (digitsLoop base 64 n).reverse := by
  rw [numeral, if_neg hpos, digitsLoop_eq hbase hn]

theorem length_numeral {base : Nat} (hbase : 10 ≤ base) {n : Nat} (hn : n < 2 ^ 64) :
    (numeral base n).length ≤ 20 := by
  by_cases hzero : n = 0
  · rw [numeral, if_pos hzero]
    decide
  · rw [numeral_eq_reverse (by omega) hn hzero, List.length_reverse]
    exact length_digitsLoop hbase hn

theorem length_swapEnds (i : Nat) (buf : List (BitVec 8)) :
    (swapEnds i buf).length = buf.length := by
  rw [swapEnds, List.length_set, List.length_set]

/-- After `k` turns the first and the last `k` characters have changed places. -/
theorem up_swapEnds (buf : List (BitVec 8)) {k : Nat} (hk : 2 * k ≤ buf.length) :
    (Loop.up swapEnds k buf).length = buf.length ∧
    ∀ i < buf.length, (Loop.up swapEnds k buf)[i]? =
      if i < k ∨ buf.length ≤ i + k then buf[buf.length - 1 - i]? else buf[i]? := by
  induction k with
  | zero => exact ⟨rfl, fun i hi => (if_neg (by omega)).symm⟩
  | succ k ih =>
      obtain ⟨hlength, hchars⟩ := ih (by omega)
      refine ⟨(length_swapEnds k _).trans hlength, fun i hi => ?_⟩
      -- the two characters of this turn are still where they were at the start
      have hkept : ∀ j < buf.length, k ≤ j → j + k < buf.length →
          some ((Loop.up swapEnds k buf).getD j 0#8) = buf[j]? := fun j hj hkj hjk => by
        rw [List.getD_eq_getElem?_getD, hchars j hj, if_neg (by omega), List.getElem?_eq_getElem hj]
        rfl
      have hfirst := hkept k (by omega) (by omega) (by omega)
      have hlast := hkept (buf.length - 1 - k) (by omega) (by omega) (by omega)
      rw [Loop.up, swapEnds, hlength, List.getElem?_set, List.getElem?_set, List.length_set,
        hlength, hfirst, hlast, hchars i hi]
      by_cases hright : buf.length - 1 - k = i
      · rw [if_pos hright, if_pos (by omega), if_pos (by omega),
          show buf.length - 1 - i = k by omega]
      by_cases hleft : k = i
      · rw [if_neg hright, if_pos hleft, if_pos (by omega), if_pos (by omega), hleft]
      · rw [if_neg hright, if_neg hleft]
        exact if_congr (by omega) rfl rfl

theorem reverseBuf_eq (buf : List (BitVec 8)) : reverseBuf buf = buf.reverse := by
  obtain ⟨hlength, hchars⟩ := up_swapEnds buf (k := buf.length / 2) (by omega)
  refine List.ext_getElem? fun i => ?_
  by_cases hi : i < buf.length
  · rw [reverseBuf, hchars i hi, List.getElem?_reverse hi]
    split
    · rfl
    · -- the character in the middle
      rw [show buf.length - 1 - i = i by omega]
  · rw [List.getElem?_eq_none (by rw [reverseBuf, hlength]; omega),
      List.getElem?_eq_none (by rw [List.length_reverse]; omega)]

theorem intBuf_eq (n : BitVec 64) : intBuf n 10 = signed n.toInt := by
  unfold intBuf signed
  dsimp only
  rw [reverseBuf_eq]
  by_cases hneg : n.toInt < 0
  · have habs : (-n).toNat = n.toInt.natAbs := by
      rw [BitVec.toInt_eq_toNat_cond] at hneg ⊢
      rw [BitVec.toNat_neg]
      omega
    simp only [if_pos hneg]
    rw [if_neg (by simp), List.reverse_append, habs,
      numeral_eq_reverse (by decide) (by rw [← habs]; exact (-n).isLt) (by omega)]
    rfl
  · have habs : n.toInt.natAbs = n.toNat := by
      rw [BitVec.toInt_eq_toNat_cond] at hneg ⊢
      omega
    simp only [if_neg hneg, habs]
    by_cases hzero : n.toNat = 0
    · rw [if_pos ((digitsLoop_eq_nil (by decide) n.isLt).mpr hzero), numeral, if_pos hzero]
      rfl
    · rw [if_neg (mt (digitsLoop_eq_nil (by decide) n.isLt).mp hzero),
        numeral_eq_reverse (by decide) n.isLt hzero]

theorem length_signed (n : BitVec 64) : (signed n.toInt).length ≤ 21 := by
  have habs : n.toInt.natAbs < 2 ^ 64 := by
    rw [BitVec.toInt_eq_toNat_cond]
    omega
  have hnumeral := length_numeral (le_refl 10) habs
  unfold signed
  split
  · exact Nat.succ_le_succ hnumeral
  · omega

theorem printInt_eq (ps : Pstream) {n : BitVec 64} (hn : n ≠ BitVec.intMin 64) (props : Strprops) :
    printInt ps n 10 props = some ((padded (signed n.toInt) props).foldl addchar ps) := by
  have hlength := length_signed n
  unfold printInt
  rw [intBuf_eq, if_neg, printStr_eq _ _ (by omega)]
  · rintro (hmin | hbuf)
    · exact hn hmin
    · unfold PRINT_INT_BUF at hbuf
      omega

/-- The width left behind a `0x`. -/
theorem npad_sub_two (npad : BitVec 32) :
    (if 0 < npad.toInt then if 0 < (npad - 2#32).toInt then npad - 2#32 else 0#32 else npad)
      = if 0 < npad.toInt then BitVec.ofInt 32 (max (npad.toInt - 2) 0) else npad := by
  by_cases hwidth : 0 < npad.toInt
  · have hsub : (npad - 2#32).toInt = npad.toInt - 2 := toInt_sub_length hwidth (by decide)
    rw [if_pos hwidth, if_pos hwidth, ← hsub]
    split
    · next hpos => rw [max_eq_left hpos.le, BitVec.ofInt_toInt]
    · next hneg => rw [max_eq_right (by omega)]; rfl
  · rw [if_neg hwidth, if_neg hwidth]

theorem printUnsigned_eq (ps : Pstream) (n : BitVec 64) {base : Nat} (hbase : 10 ≤ base)
    (props : Strprops) :
    printUnsigned ps n base props = some
      ((unsignedOutput base n.toNat props).foldl addchar ps) := by
  have hbase' : 2 ≤ base := by omega
  have hlength := length_digitsLoop hbase n.isLt
  have hfits : ∀ (p : Pstream) {buf : List (BitVec 8)} (props : Strprops), buf.length ≤ 22 →
      (if PRINT_UNSIGNED_BUF < buf.length + 1 then none
        else some (printStr p (reverseBuf buf) props))
        = some ((padded buf.reverse props).foldl addchar p) := by
    intro p buf props hbuf
    rw [if_neg (by unfold PRINT_UNSIGNED_BUF; omega), reverseBuf_eq,
      printStr_eq _ _ (by rw [List.length_reverse]; omega)]
  unfold printUnsigned unsignedOutput
  by_cases hzero : n.toNat = 0
  · have hnil := (digitsLoop_eq_nil hbase' n.isLt).mpr hzero
    rw [hzero] at hnil
    simp only [hnil, hzero, if_true, numeral, ne_eq, not_true, decide_false, Bool.and_false,
      Bool.false_eq_true, if_false]
    exact hfits _ _ (by decide)
  · have hnil := mt (digitsLoop_eq_nil hbase' n.isLt).mp hzero
    simp only [if_neg hnil, numeral_eq_reverse hbase' n.isLt hzero, ne_eq, hzero,
      not_false_iff, decide_true, Bool.and_true]
    by_cases halt : (props.alternate && decide (base = 16)) = true
    · simp only [if_pos halt]
      by_cases hpad : props.pad = ch '0'
      · simp only [if_pos hpad, npad_sub_two]
        rw [hfits _ _ (by omega), List.foldl_append]
        rfl
      · simp only [if_neg hpad]
        rw [hfits _ _ (by rw [List.length_append]; exact Nat.add_le_add_right hlength 2),
          List.reverse_append]
        rfl
    · simp only [if_neg halt]
      exact hfits _ _ (by omega)

theorem length_le_length_padded (s : List (BitVec 8)) (props : Strprops) :
    s.length ≤ (padded s props).length := by
  simp only [padded, List.length_append]
  omega

theorem signExtend_ne_intMin (v : BitVec 32) : v.signExtend 64 ≠ BitVec.intMin 64 := by
  intro hmin
  have hint : v.toInt = (BitVec.intMin 64).toInt := by
    rw [← hmin, BitVec.toInt_signExtend_of_le (by decide)]
  have hlow := BitVec.le_toInt v
  rw [hint] at hlow
  revert hlow
  decide

/-- A directive sends its output to the stream. -/
theorem Directive.print_eq {d : Directive} {va va' : List VaArg} {out : List (BitVec 8)}
    (h : d.output va = some (out, va')) (hout : out.length < 2 ^ 31) (s : Pstream) :
    d.print s va = some (out.foldl addchar s, va') := by
  unfold Directive.output at h
  split at h
  · obtain ⟨rfl, rfl⟩ := Option.some.inj h
    rfl
  · obtain ⟨rfl, rfl⟩ := Option.some.inj h
    rfl
  · obtain ⟨rfl, rfl⟩ := Option.some.inj h
    rfl
  · next nlong props v va =>
      obtain ⟨hlong, h⟩ := Option.ite_none_right_eq_some.mp h
      obtain ⟨rfl, rfl⟩ := Option.some.inj h
      rw [Directive.print, if_pos hlong, printInt_eq s (signExtend_ne_intMin v),
        BitVec.toInt_signExtend_of_le (by decide)]
      rfl
  · next nlong props v va =>
      obtain ⟨hlong, h⟩ := Option.ite_none_left_eq_some.mp h
      obtain ⟨rfl, rfl⟩ := Option.some.inj h
      rw [Directive.print, if_neg (mt Or.inl hlong), printInt_eq s (mt Or.inr hlong)]
      rfl
  · next nlong base props v va =>
      obtain ⟨hlong, h⟩ := Option.ite_none_right_eq_some.mp h
      obtain ⟨rfl, rfl⟩ := Option.some.inj h
      rw [Directive.print, if_pos hlong, printUnsigned_eq s _ base.property.1,
        BitVec.toNat_setWidth_of_le (by decide)]
      rfl
  · next nlong base props v va =>
      obtain ⟨hlong, h⟩ := Option.ite_none_left_eq_some.mp h
      obtain ⟨rfl, rfl⟩ := Option.some.inj h
      rw [Directive.print, if_neg hlong, printUnsigned_eq s _ base.property.1]
      rfl
  · next props v va =>
      obtain ⟨rfl, rfl⟩ := Option.some.inj h
      rw [Directive.print, printUnsigned_eq s _ (by decide)]
      rfl
  · next props v va =>
      obtain ⟨rfl, rfl⟩ := Option.some.inj h
      rw [Directive.print, printStr_eq s _ ((length_le_length_padded _ _).trans_lt hout)]
  · cases h

/-! ### The whole format -/

/-- The loop sends the output of the format to the stream. -/
theorem vsnprintfLoop_eq {fmt : List (BitVec 8)} {va : List VaArg} {out : List (BitVec 8)}
    (h : formatOutput va fmt = some out) (hout : out.length < 2 ^ 31) (s : Pstream) :
    vsnprintfLoop s va fmt = some (out.foldl addchar s) := by
  fun_induction formatOutput va fmt generalizing out s with
  | case1 va =>
      cases h
      rw [vsnprintfLoop]
      rfl
  | case2 => cases h
  | case3 va fmt _ text va' houtput ih =>
      obtain ⟨rest, hrest, rfl⟩ := Option.map_eq_some_iff.mp h
      rw [List.length_append] at hout
      rw [vsnprintfLoop, if_pos rfl, Directive.print_eq houtput (by omega), List.foldl_append]
      exact ih hrest (by omega) _
  | case4 va f fmt hf ih =>
      obtain ⟨rest, hrest, rfl⟩ := Option.map_eq_some_iff.mp h
      rw [vsnprintfLoop, if_neg hf]
      exact ih hrest (by rw [List.length_cons] at hout; omega) _

/-- A buffer of `size` characters behind a text that was printed to it. -/
def printed (out : List (BitVec 8)) (size : Nat) (buf : Nat → BitVec 8) (i : Nat) : BitVec 8 :=
  if i < min (size - 1) out.length then out.getD i 0#8
  else if i = min (size - 1) out.length then 0#8
  else buf i

theorem printed_eq (out : List (BitVec 8)) {size : BitVec 32} (hsize : 1 ≤ size.toInt)
    (buf : Nat → BitVec 8) :
    (let s := out.foldl addchar ⟨buf, 0, size - 1#32, 0#32⟩
     (Function.update s.mem s.buffer 0#8, s.added))
      = (printed out size.toInt.toNat buf, BitVec.ofNat 32 out.length) := by
  have hroom : (size - 1#32).toNat = size.toInt.toNat - 1 := by
    rw [BitVec.toInt_eq_toNat_cond] at hsize ⊢
    bv_omega
  obtain ⟨hbuffer, hmem⟩ := foldl_addchar_mem out ⟨buf, 0, size - 1#32, 0#32⟩
  have hadded := foldl_addchar_added out ⟨buf, 0, size - 1#32, 0#32⟩
  simp only [hroom, Nat.zero_le, true_and, Nat.zero_add, Nat.sub_zero] at hbuffer hmem
  dsimp only
  rw [hadded, BitVec.zero_add]
  refine Prod.ext (funext fun i => ?_) rfl
  unfold printed
  dsimp only
  rw [Function.update_apply, hbuffer, hmem i]
  by_cases hi : i < min (size.toInt.toNat - 1) out.length
  · rw [if_neg (by omega), if_pos hi, if_pos hi]
  · rw [if_neg hi, if_neg hi]

theorem vsnprintf_eq {fmt : CString} {va : List VaArg} {out : List (BitVec 8)}
    (hmatch : formatOutput va fmt.chars = some out) (hout : out.length < 2 ^ 31)
    {size : BitVec 32} (hsize : 1 ≤ size.toInt) (buf : Nat → BitVec 8) :
    vsnprintf buf size fmt va
      = some (printed out size.toInt.toNat buf, BitVec.ofNat 32 out.length) := by
  rw [vsnprintf, vsnprintfLoop_eq hmatch hout, Option.map_some]
  exact congrArg some (printed_eq out hsize buf)

/-- A format with matching arguments, printed to a buffer of `size` characters: as much of the
    output as leaves room for the NUL is stored and the NUL behind it, and the result is the length
    of the whole output. -/
theorem vsnprintf_truncates {fmt : CString} {va : List VaArg} {out : List (BitVec 8)}
    (hmatch : formatOutput va fmt.chars = some out) (hout : out.length < 2 ^ 31)
    {size : BitVec 32} (hsize : 1 ≤ size.toInt) (buf : Nat → BitVec 8) :
    ∃ buf' added, vsnprintf buf size fmt va = some (buf', added) ∧
      added.toInt = out.length ∧
      ∀ i, buf' i =
        if i < min (size.toInt.toNat - 1) out.length then out.getD i 0#8
        else if i = min (size.toInt.toNat - 1) out.length then 0#8
        else buf i := by
  refine ⟨_, _, vsnprintf_eq hmatch hout hsize buf, ?_, fun i => rfl⟩
  rw [BitVec.toInt_eq_toNat_cond, BitVec.toNat_ofNat]
  omega

/-- `snprintf(buf, 3, "%4d!", -7)`. -/
theorem vsnprintf_truncates_number :
    ∃ buf' added,
      vsnprintf (fun _ => 255#8) 3#32 ⟨[ch '%', ch '4', ch 'd', ch '!'], by decide⟩ [.word (-7#32)]
        = some (buf', added) ∧
      added.toInt = 5 ∧ buf' 0 = ch ' ' ∧ buf' 1 = ch ' ' ∧ buf' 2 = 0#8 ∧ buf' 3 = 255#8 := by
  have hnum : fmtnum [ch '4', ch 'd', ch '!'] = (4#32, [ch 'd', ch '!']) := by decide
  have hdirective : morefmt noProps 0#32 [ch '4', ch 'd', ch '!']
      = (.int 0#32 ⟨ch ' ', 4#32, false⟩, [ch '!']) := by
    simp +decide [morefmt, hnum, noProps]
  have hmatch : formatOutput [.word (-7#32)]
      (⟨[ch '%', ch '4', ch 'd', ch '!'], by decide⟩ : CString).chars
      = some [ch ' ', ch ' ', ch '-', ch '7', ch '!'] := by
    simp +decide [formatOutput, hdirective]
  obtain ⟨buf', added, hrun, hadded, hbuf⟩ :=
    vsnprintf_truncates hmatch (by decide) (show 1 ≤ (3#32).toInt by decide) (fun _ => 255#8)
  exact ⟨buf', added, hrun, hadded, hbuf 0, hbuf 1, hbuf 2, hbuf 3⟩

end AcrnGuest
