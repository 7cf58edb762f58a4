import AcrnGuest.PrintfBuffers
import AcrnGuest.PrintfNumbers

/-!
# Printing from 16-bit code (`lib/x86/code16_lib.c`)

`vprint` formats into a buffer of 256 characters and sends it to the serial port. It knows `%%`,
`%d`, `%u`, `%x` and `%s`. It is compared here with `vsnprintf` of the 32-bit build. Both print the
same exactly if the output has at most 255 characters, since `vprint` looks at the room in the
buffer only between two directives and keeps none for the NUL, and if no number of a `%d` is
negative, since `vprint` prints that one without a sign. -/

namespace AcrnGuest.Code16

/-! ### The serial port -/

def SERIAL_IOBASE : BitVec 16 := 0x3f8#16

/-- `serial_inited`, the line control register of the port and what was written to the ports. -/
structure Serial where
  inited : Bool
  lcr : BitVec 8
  outs : List (BitVec 16 × BitVec 8)

def outb (data : BitVec 8) (port : BitVec 16) (s : Serial) : Serial :=
  { s with
    lcr := if port = SERIAL_IOBASE + 3#16 then data else s.lcr
    outs := s.outs ++ [(port, data)] }

/-- The character is written as soon as the port is ready. -/
def serialOutb (s : Serial) (c : BitVec 8) : Serial := outb c SERIAL_IOBASE s

def serialPut (s : Serial) (c : BitVec 8) : Serial :=
  if c = ch '\n' then serialOutb (serialOutb s (ch '\r')) c else serialOutb s c

def serialInit (s : Serial) : Serial :=
  let s := outb (s.lcr ||| 0x80#8) (SERIAL_IOBASE + 3#16) s
  let s := outb 0x01#8 SERIAL_IOBASE s
  let s := outb 0x00#8 (SERIAL_IOBASE + 1#16) s
  let s := outb (s.lcr &&& ~~~0x80#8) (SERIAL_IOBASE + 3#16) s
  let s := outb 0x00#8 (SERIAL_IOBASE + 1#16) s
  let s := outb 0x03#8 (SERIAL_IOBASE + 3#16) s
  let s := outb 0x00#8 (SERIAL_IOBASE + 2#16) s
  outb 0x03#8 (SERIAL_IOBASE + 4#16) s

def serialPrint (s : Serial) (buf : List (BitVec 8)) : Serial :=
  let s := if s.inited then s else { serialInit s with inited := true }
  buf.foldl serialPut s

/-! ### The formatter -/

def MAX_BUF_LEN : Nat := 256

/-- `*buf++ = c`, where the list holds what stands in `buffer` before `buf`. There is no result
behind the end. -/
def put (buf : List (BitVec 8)) (c : BitVec 8) : Option (List (BitVec 8)) :=
  if buf.length < MAX_BUF_LEN then some (buf ++ [c]) else none

def fillStr (buf : List (BitVec 8)) : List (BitVec 8) → Option (List (BitVec 8))
  | [] => some buf
  | c :: src => (put buf c).bind fun buf => fillStr buf src

/-- The loop of the conversions: the digits are stored downwards in a local array with `room`
characters left, `text` is what stands there from `ptr` on. -/
def digitLoop (digit : BitVec 32 → BitVec 8) (next : BitVec 32 → BitVec 32) :
    Nat → BitVec 32 → List (BitVec 8) → Option (List (BitVec 8))
  | 0, _, _ => none
  | room + 1, num, text =>
      if 0#32 < next num then digitLoop digit next room (next num) (digit num :: text)
      else some (digit num :: text)

def fillHex (buf : List (BitVec 8)) (num : BitVec 32) : Option (List (BitVec 8)) :=
  (digitLoop (fun num => digits.getD (num &&& 0xf#32).toNat 0#8) (· >>> 4) 8 num []).bind
  (fillStr buf)

def fillDec (buf : List (BitVec 8)) (num : BitVec 32) : Option (List (BitVec 8)) :=
  (digitLoop (fun num => ch '0' + (num % 10#32).setWidth 8) (· / 10#32) 10 num []).bind
  (fillStr buf)

/-- The message about a directive that is not supported takes the place of what was there. -/
def unsupported (c : BitVec 8) : Option (List (BitVec 8)) := do
  let buf ← fillStr [] ("unsupported format: %".toList.map ch)
  let buf ← put buf c
  put buf (ch '\n')

/-- How the loop goes on behind a directive, if not to the label `end`. -/
inductive Next
  | loop (buf : List (BitVec 8)) (va : List VaArg)
  | done (buf : List (BitVec 8))

/-- The `switch` over the character behind a `%`. -/
def directive (buf : List (BitVec 8)) (va : List VaArg) (c : BitVec 8) : Option Next :=
  if c = ch '%' then (put buf (ch '%')).map (.loop · va)
  else if c = ch 'd' || c = ch 'u' then
    match va with
    | .word v :: va => (fillDec buf v).map (.loop · va)
    | _ => none
  else if c = ch 'x' then
    match va with
    | .word v :: va => (fillHex buf v).map (.loop · va)
    | _ => none
  else if c = ch 's' then
    match va with
    | .str s :: va => (fillStr buf s.chars).map (.loop · va)
    | _ => none
  else (unsupported c).map .done

def vprintLoop (buf : List (BitVec 8)) (va : List VaArg) :
    List (BitVec 8) → Option (List (BitVec 8))
  | [] => some buf
  | c :: str =>
      if MAX_BUF_LEN ≤ buf.length then some buf
      else if c = ch '%' then
        match str with
        -- the character behind the `%` is the NUL of the format
        | [] => unsupported 0#8
        | c :: str =>
            match directive buf va c with
            | none => none
            | some (.loop buf va) => vprintLoop buf va str
            | some (.done buf) => some buf
      else
        match put buf c with
        | none => none
        | some buf => vprintLoop buf va str

/-- The label `end`: the NUL is stored and the text is sent. -/
def vprintEnd (s : Serial) (buf : List (BitVec 8)) : Option Serial :=
  (put buf 0#8).map fun _ => serialPrint s buf

/-- There is no result if a character is stored behind the end of `buffer` or the arguments do not
match. -/
def vprint (s : Serial) (fmt : CString) (va : List VaArg) : Option Serial :=
  (vprintLoop [] va fmt.chars).bind (vprintEnd s)

/-! ### What the port gets -/

def sentBytes (c : BitVec 8) : List (BitVec 8) := if c = ch '\n' then [ch '\r', c] else [c]

theorem serialPut_outs (s : Serial) (c : BitVec 8) :
    (serialPut s c).outs = s.outs ++ (sentBytes c).map (SERIAL_IOBASE, ·) := by
  unfold serialPut sentBytes
  split
  · simp [serialOutb, outb]
  · rfl

theorem foldl_serialPut_outs (buf : List (BitVec 8)) (s : Serial) :
    (buf.foldl serialPut s).outs = s.outs ++ (buf.flatMap sentBytes).map (SERIAL_IOBASE, ·) := by
  induction buf generalizing s with
  | nil => simp
  | cons c buf ih =>
      rw [List.foldl_cons, ih, serialPut_outs, List.flatMap_cons, List.map_append,
        List.append_assoc]

/-- No byte sequence of a text starts with a line feed. -/
theorem head_sentBytes (buf : List (BitVec 8)) (rest : List (BitVec 8)) :
    buf.flatMap sentBytes ≠ ch '\n' :: rest := by
  cases buf with
  | nil => exact (List.cons_ne_nil _ _).symm
  | cons c buf =>
      rw [List.flatMap_cons, sentBytes]
      split
      · intro h
        exact absurd (List.cons.inj h).1 (by decide)
      · next hc =>
          intro h
          exact hc (List.cons.inj h).1

/-- The text can be read back from the bytes. -/
theorem sentBytes_injective {a b : List (BitVec 8)}
    (h : a.flatMap sentBytes = b.flatMap sentBytes) : a = b := by
  induction a generalizing b with
  | nil =>
      cases b with
      | nil => rfl
      | cons c b =>
          rw [List.flatMap_cons, sentBytes] at h
          split at h <;> cases h
  | cons c a ih =>
      cases b with
      | nil =>
          rw [List.flatMap_cons, sentBytes] at h
          split at h <;> cases h
      | cons d b =>
          rw [List.flatMap_cons, List.flatMap_cons, sentBytes, sentBytes] at h
          split at h
          · next hc =>
              split at h
              · next hd =>
                  have hrest := (List.cons.inj (List.cons.inj h).2).2
                  rw [ih hrest, hc, hd]
              · next hd =>
                  -- the line feed behind a carriage return would be the first byte of the rest
                  have hrest := (List.cons.inj h).2
                  rw [hc] at hrest
                  exact absurd hrest.symm (head_sentBytes b _)
          · next hc =>
              split at h
              · next hd =>
                  have hrest := (List.cons.inj h).2
                  rw [hd] at hrest
                  exact absurd hrest (head_sentBytes a _)
              · obtain ⟨rfl, hrest⟩ := List.cons.inj h
                rw [ih hrest]

theorem serialPrint_injective (s : Serial) {a b : List (BitVec 8)}
    (h : serialPrint s a = serialPrint s b) :
    a = b := by
  have houts := congrArg Serial.outs h
  rw [serialPrint, serialPrint, foldl_serialPut_outs, foldl_serialPut_outs] at houts
  have hmap := List.append_cancel_left houts
  exact sentBytes_injective (List.map_injective_iff.mpr (fun x y hxy => (Prod.mk.inj hxy).2) hmap)

/-! ### The parts of a format -/

structure Plain where
  char : BitVec 8
  nul : char ≠ 0#8
  percent : char ≠ ch '%'

inductive Item
  | plain (c : Plain)
  | percent
  | dec (v : BitVec 32)
  | unsigned (v : BitVec 32)
  | hex (v : BitVec 32)
  | str (s : CString)

def Item.fmt : Item → List (BitVec 8)
  | .plain c => [c.char]
  | .percent => [ch '%', ch '%']
  | .dec _ => [ch '%', ch 'd']
  | .unsigned _ => [ch '%', ch 'u']
  | .hex _ => [ch '%', ch 'x']
  | .str _ => [ch '%', ch 's']

def Item.args : Item → List VaArg
  | .plain _ => []
  | .percent => []
  | .dec v => [.word v]
  | .unsigned v => [.word v]
  | .hex v => [.word v]
  | .str s => [.str s]

/-- What `vsnprintf` prints for a part. -/
def Item.reference : Item → List (BitVec 8)
  | .plain c => [c.char]
  | .percent => [ch '%']
  | .dec v => signed v.toInt
  | .unsigned v => numeral 10 v.toNat
  | .hex v => numeral 16 v.toNat
  | .str s => s.chars

/-- What `vprint` prints for a part. -/
def Item.text : Item → List (BitVec 8)
  | .plain c => [c.char]
  | .percent => [ch '%']
  | .dec v => numeral 10 v.toNat
  | .unsigned v => numeral 10 v.toNat
  | .hex v => numeral 16 v.toNat
  | .str s => s.chars

def Item.Negative : Item → Prop
  | .dec v => v.toInt < 0
  | _ => False

instance (item : Item) : Decidable item.Negative :=
  match item with
  | .dec v => inferInstanceAs (Decidable (v.toInt < 0))
  | .plain _ | .percent | .unsigned _ | .hex _ | .str _ => inferInstanceAs (Decidable False)

theorem Item.zero_notMem_fmt (item : Item) : 0#8 ∉ item.fmt := by
  cases item with
  | plain c => exact fun hmem => c.nul (List.mem_singleton.mp hmem).symm
  | percent => decide
  | dec v => exact (by decide : 0#8 ∉ [ch '%', ch 'd'])
  | unsigned v => exact (by decide : 0#8 ∉ [ch '%', ch 'u'])
  | hex v => exact (by decide : 0#8 ∉ [ch '%', ch 'x'])
  | str s => exact (by decide : 0#8 ∉ [ch '%', ch 's'])

def formatOf (items : List Item) : CString where
  chars := items.flatMap Item.fmt
  nul hmem := by
    obtain ⟨item, -, hitem⟩ := List.mem_flatMap.mp hmem
    exact item.zero_notMem_fmt hitem

def argsOf (items : List Item) : List VaArg := items.flatMap Item.args

/-! ### The conversions -/

theorem numeral_of_lt {base n : Nat} (hn : n < base) :
    numeral base n = [digits.getD (n % base) 0#8] := by
  rw [Nat.mod_eq_of_lt hn]
  by_cases hzero : n = 0
  · rw [numeral, if_pos hzero, hzero]
    rfl
  · rw [numeral, if_neg hzero, Nat.digits_of_lt base n hzero hn]
    rfl

theorem numeral_of_le {base n : Nat} (hbase : 2 ≤ base) (hn : base ≤ n) :
    numeral base n = numeral base (n / base) ++ [digits.getD (n % base) 0#8] := by
  have hpos : 0 < n / base := Nat.div_pos hn (by omega)
  rw [numeral, numeral, if_neg (by omega), if_neg (by omega), Nat.digits_def' hbase (by omega),
    List.map_cons, List.reverse_cons]

theorem digitLoop_eq {base : Nat} (hbase : 2 ≤ base) {digit : BitVec 32 → BitVec 8}
    {next : BitVec 32 → BitVec 32} (hdigit : ∀ num, digit num = digits.getD (num.toNat % base) 0#8)
    (hnext : ∀ num, (next num).toNat = num.toNat / base)
    {room : Nat} {num : BitVec 32} (hnum : num.toNat < base ^ (room + 1)) (text : List (BitVec 8)) :
    digitLoop digit next (room + 1) num text = some (numeral base num.toNat ++ text) := by
  induction room generalizing num text with
  | zero =>
      rw [Nat.zero_add, Nat.pow_one] at hnum
      have hdone : ¬ 0#32 < next num := by
        rw [BitVec.lt_def, hnext, Nat.div_eq_of_lt hnum]
        exact Nat.lt_irrefl 0
      rw [digitLoop, if_neg hdone, numeral_of_lt hnum, hdigit]
      rfl
  | succ room ih =>
      rw [digitLoop, hdigit]
      split
      · next hmore =>
          rw [BitVec.lt_def, hnext] at hmore
          have hle : base ≤ num.toNat := ((Nat.div_pos_iff).mp hmore).2
          have hrest : (next num).toNat < base ^ (room + 1) := by
            rw [hnext]
            exact Nat.div_lt_of_lt_mul (by rwa [Nat.mul_comm, ← Nat.pow_succ])
          rw [ih hrest, hnext, numeral_of_le hbase hle, List.append_assoc]
          rfl
      · next hdone =>
          rw [BitVec.lt_def, hnext] at hdone
          have hlt : num.toNat < base := by
            by_contra hge
            exact hdone (Nat.div_pos (Nat.le_of_not_lt hge) (by omega))
          rw [numeral_of_lt hlt]
          rfl

theorem fillDec_eq (buf : List (BitVec 8)) (num : BitVec 32) :
    fillDec buf num = fillStr buf (numeral 10 num.toNat) := by
  have hdigit : ∀ d, d < 10 → ch '0' + BitVec.ofNat 8 d = digits.getD d 0#8 := by decide
  have hloop : digitLoop (fun num => ch '0' + (num % 10#32).setWidth 8) (· / 10#32) 10 num [] =
      some (numeral 10 num.toNat ++ []) := by
    apply digitLoop_eq (by decide) _ (fun num => rfl) (by omega)
    intro num
    rw [← hdigit _ (Nat.mod_lt _ (by decide))]
    rfl
  rw [fillDec, hloop, Option.bind_some, List.append_nil]

theorem fillHex_eq (buf : List (BitVec 8)) (num : BitVec 32) :
    fillHex buf num = fillStr buf (numeral 16 num.toNat) := by
  have hloop : digitLoop (fun num => digits.getD (num &&& 0xf#32).toNat 0#8) (· >>> 4) 8 num [] =
      some (numeral 16 num.toNat ++ []) := by
    apply digitLoop_eq (by decide) _ _ (by omega)
    · intro num
      rw [BitVec.toNat_and]
      exact congrArg (digits.getD · 0#8) (Nat.and_two_pow_sub_one_eq_mod num.toNat 4)
    · intro num
      rw [BitVec.toNat_ushiftRight]
      exact Nat.shiftRight_eq_div_pow num.toNat 4
  rw [fillHex, hloop, Option.bind_some, List.append_nil]

/-! ### The text of `vprint` -/

theorem fillStr_eq {buf : List (BitVec 8)} (hbuf : buf.length ≤ MAX_BUF_LEN)
    (src : List (BitVec 8)) :
    fillStr buf src = if (buf ++ src).length ≤ MAX_BUF_LEN then some (buf ++ src) else none := by
  induction src generalizing buf with
  | nil => rw [fillStr, List.append_nil, if_pos hbuf]
  | cons c src ih =>
      rw [fillStr, put]
      by_cases hroom : buf.length < MAX_BUF_LEN
      · rw [if_pos hroom, Option.bind_some, ih (by rw [List.length_append]; exact hroom),
          List.append_assoc]
        rfl
      · rw [if_neg hroom, Option.bind_none, if_neg]
        rw [List.length_append, List.length_cons]
        omega

section Loop

variable {buf : List (BitVec 8)} (hroom : buf.length < MAX_BUF_LEN) (va : List VaArg)
  (str : List (BitVec 8))

include hroom

theorem vprintLoop_plain {c : BitVec 8} (hc : c ≠ ch '%') :
    vprintLoop buf va (c :: str) = (put buf c).bind fun buf => vprintLoop buf va str := by
  rw [vprintLoop.eq_def]
  dsimp only
  rw [if_neg (Nat.not_le_of_lt hroom), if_neg hc]
  cases put buf c <;> rfl

theorem vprintLoop_directive {c : BitVec 8} {va' : List VaArg} {filled : Option (List (BitVec 8))}
    (hstep : directive buf va c = filled.map (.loop · va')) :
    vprintLoop buf va (ch '%' :: c :: str) = filled.bind fun buf => vprintLoop buf va' str := by
  rw [vprintLoop.eq_def]
  dsimp only
  rw [if_neg (Nat.not_le_of_lt hroom), if_pos rfl, hstep]
  cases filled <;> rfl

theorem vprintLoop_item (item : Item) :
    vprintLoop buf (item.args ++ va) (item.fmt ++ str) =
      (fillStr buf item.text).bind fun buf => vprintLoop buf va str := by
  have hput : ∀ c, fillStr buf [c] = put buf c := by
    intro c
    rw [fillStr]
    exact Option.bind_fun_some _
  cases item with
  | plain c =>
      refine (vprintLoop_plain hroom va str c.percent).trans ?_
      exact congrArg (Option.bind · _) (hput c.char).symm
  | percent =>
      refine vprintLoop_directive hroom va str ?_
      rw [Item.text, hput]
      rfl
  | dec v =>
      refine vprintLoop_directive hroom _ str ?_
      rw [Item.text, ← fillDec_eq]
      rfl
  | unsigned v =>
      refine vprintLoop_directive hroom _ str ?_
      rw [Item.text, ← fillDec_eq]
      rfl
  | hex v =>
      refine vprintLoop_directive hroom _ str ?_
      rw [Item.text, ← fillHex_eq]
      rfl
  | str s => exact vprintLoop_directive hroom _ str rfl

end Loop

theorem vprintLoop_of_full {buf : List (BitVec 8)} (hfull : MAX_BUF_LEN ≤ buf.length)
    (va : List VaArg) (str : List (BitVec 8)) : vprintLoop buf va str = some buf := by
  cases str with
  | nil => rw [vprintLoop]
  | cons c str =>
      rw [vprintLoop.eq_def]
      exact if_pos hfull

theorem vprintEnd_of_room (s : Serial) {buf : List (BitVec 8)} (hroom : buf.length < MAX_BUF_LEN) :
    vprintEnd s buf = some (serialPrint s buf) := by
  rw [vprintEnd, put, if_pos hroom, Option.map_some]

theorem vprintEnd_of_full (s : Serial) {buf : List (BitVec 8)} (hfull : MAX_BUF_LEN ≤ buf.length) :
    vprintEnd s buf = none := by
  rw [vprintEnd, put, if_neg (Nat.not_lt_of_le hfull), Option.map_none]

/-- The loop either fills the buffer with the text or ends in one that has no room for the NUL. -/
theorem vprintLoop_items (s : Serial) (rest : List VaArg) (items : List Item)
    {buf : List (BitVec 8)} (hbuf : buf.length ≤ MAX_BUF_LEN) :
    (vprintLoop buf (argsOf items ++ rest) (items.flatMap Item.fmt)).bind (vprintEnd s) =
      vprintEnd s (buf ++ items.flatMap Item.text) := by
  induction items generalizing buf with
  | nil => rw [List.flatMap_nil, List.flatMap_nil, vprintLoop, List.append_nil, Option.bind_some]
  | cons item items ih =>
      by_cases hroom : buf.length < MAX_BUF_LEN
      · rw [List.flatMap_cons, List.flatMap_cons, argsOf, List.flatMap_cons, List.append_assoc,
          vprintLoop_item hroom, fillStr_eq hbuf, ← List.append_assoc]
        split
        · next hfits => exact ih hfits
        · next hlong =>
            rw [Option.bind_none, Option.bind_none, vprintEnd_of_full]
            rw [List.length_append]
            omega
      · have hfull := Nat.le_of_not_lt hroom
        rw [vprintLoop_of_full hfull, Option.bind_some, vprintEnd_of_full s hfull,
          vprintEnd_of_full]
        rw [List.length_append]
        omega

/-- `vprint` sends its text if that leaves room for the NUL, and stores behind the buffer
otherwise. -/
theorem vprint_eq (s : Serial) (items : List Item) (rest : List VaArg) :
    vprint s (formatOf items) (argsOf items ++ rest) = vprintEnd s (items.flatMap Item.text) :=
  vprintLoop_items s rest items (Nat.zero_le _)

/-! ### The text of `vsnprintf` -/

theorem printStr_noProps (ps : Pstream) (s : List (BitVec 8)) :
    printStr ps s noProps = s.foldl addchar ps := by
  rw [printStr, if_neg (by decide), if_neg (by decide)]

theorem padded_noProps (s : List (BitVec 8)) : padded s noProps = s := by
  simp [padded, noProps]

/-- A word has at most ten digits, and the buffers of the 32-bit build hold them with the sign. -/
theorem printIntOn_word (ps : Pstream) (v : BitVec 32) :
    printIntOn .i386 ps (v.signExtend 64) 10 noProps =
      some ((signed v.toInt).foldl addchar ps) := by
  have hvalue : (v.signExtend 64).toInt = v.toInt := BitVec.toInt_signExtend_of_le (by decide)
  have hlow := BitVec.le_toInt v
  have hhigh := BitVec.toInt_lt (x := v)
  have hfits : intLocalChars (v.signExtend 64) 10 ≤ Arch.i386.intBufSize :=
    (intLocalChars_fits_iff (v.signExtend 64) 11).mpr ⟨by omega, by omega⟩
  rw [printIntOn_eq, if_neg, hvalue, padded_noProps]
  rintro (hmin | hlong)
  · exact signExtend_ne_intMin v hmin
  · exact Nat.not_lt_of_le hfits hlong

theorem printUnsignedOn_word (ps : Pstream) (v : BitVec 32) (base : Base) :
    printUnsignedOn .i386 ps (v.setWidth 64) base.val noProps =
      some ((numeral base.val v.toNat).foldl addchar ps) := by
  have hvalue : (v.setWidth 64).toNat = v.toNat := BitVec.toNat_setWidth_of_le (by decide)
  have hpow : 10 ^ 14 ≤ base.val ^ (13 + 1) := Nat.pow_le_pow_left base.property.1 14
  have hroom : markRoom base.val noProps = 0 := if_neg fun h => Bool.false_ne_true h.1
  have hfits : (unsignedLocal (v.setWidth 64) base.val noProps).length + 1 ≤
      Arch.i386.unsignedBufSize := by
    have hiff := unsignedLocal_fits_iff (v.setWidth 64)
      (Nat.le_trans (by decide) base.property.1) noProps 13
    rw [hroom] at hiff
    exact hiff.mpr (by omega)
  have htext : unsignedOutput base.val v.toNat noProps =
      padded (numeral base.val v.toNat) noProps := by
    rw [unsignedOutput, if_neg]
    exact Bool.false_ne_true
  rw [printUnsignedOn_eq .i386 ps _ base.property.1, if_neg (Nat.not_lt_of_le hfits), hvalue, htext,
    padded_noProps]

theorem vsnprintfLoopOn_directive {ps ps' : Pstream} {va va' : List VaArg} {c : BitVec 8}
    {fmt : List (BitVec 8)} {d : Directive} (hfmt : morefmt noProps 0#32 (c :: fmt) = (d, fmt))
    (hprint : d.printOn .i386 ps va = some (ps', va')) :
    vsnprintfLoopOn .i386 ps va (ch '%' :: c :: fmt) = vsnprintfLoopOn .i386 ps' va' fmt := by
  rw [vsnprintfLoopOn, if_pos rfl, hfmt, hprint]

theorem vsnprintfLoopOn_item (ps : Pstream) (item : Item) (va : List VaArg)
    (fmt : List (BitVec 8)) :
    vsnprintfLoopOn .i386 ps (item.args ++ va) (item.fmt ++ fmt) =
      vsnprintfLoopOn .i386 (item.reference.foldl addchar ps) va fmt := by
  cases item with
  | plain c =>
      rw [Item.fmt, List.singleton_append, vsnprintfLoopOn, if_neg c.percent]
      rfl
  | percent => exact vsnprintfLoopOn_directive (morefmt_percent noProps 0#32 fmt) rfl
  | dec v =>
      refine vsnprintfLoopOn_directive (morefmt_int noProps 0#32 fmt) ?_
      exact congrArg (Option.map (·, va)) (printIntOn_word ps v)
  | unsigned v =>
      refine vsnprintfLoopOn_directive (morefmt_unsigned noProps 0#32 fmt) ?_
      exact congrArg (Option.map (·, va)) (printUnsignedOn_word ps v .decimal)
  | hex v =>
      refine vsnprintfLoopOn_directive (morefmt_hex noProps 0#32 fmt) ?_
      exact congrArg (Option.map (·, va)) (printUnsignedOn_word ps v .hex)
  | str s =>
      refine vsnprintfLoopOn_directive (morefmt_str noProps 0#32 fmt) ?_
      exact congrArg (fun ps => some (ps, va)) (printStr_noProps ps s.chars)

theorem vsnprintfLoopOn_items (rest : List VaArg) (items : List Item) (ps : Pstream) :
    vsnprintfLoopOn .i386 ps (argsOf items ++ rest) (items.flatMap Item.fmt) =
      some ((items.flatMap Item.reference).foldl addchar ps) := by
  induction items generalizing ps with
  | nil =>
      rw [List.flatMap_nil, List.flatMap_nil, vsnprintfLoopOn]
      rfl
  | cons item items ih =>
      rw [List.flatMap_cons, List.flatMap_cons, argsOf, List.flatMap_cons, List.append_assoc,
        vsnprintfLoopOn_item, List.foldl_append]
      exact ih _

theorem vsnprintfOn_eq (items : List Item) (rest : List VaArg) {size : BitVec 32}
    (hsize : 1 ≤ size.toInt) (buf : Nat → BitVec 8) :
    vsnprintfOn .i386 buf size (formatOf items) (argsOf items ++ rest) =
      some (printed (items.flatMap Item.reference) size.toInt.toNat buf,
        BitVec.ofNat 32 (items.flatMap Item.reference).length) := by
  rw [vsnprintfOn, formatOf, vsnprintfLoopOn_items, Option.map_some]
  exact congrArg some (printed_eq _ hsize buf)

/-! ### The comparison -/

theorem Item.zero_notMem_reference (item : Item) : 0#8 ∉ item.reference := by
  cases item with
  | plain c => exact fun hmem => c.nul (List.mem_singleton.mp hmem).symm
  | percent => decide
  | dec v => exact zero_notMem_signed v.toInt
  | unsigned v => exact zero_notMem_numeral (by decide) (by decide) v.toNat
  | hex v => exact zero_notMem_numeral (by decide) (by decide) v.toNat
  | str s => exact s.nul

theorem Item.text_eq_reference {item : Item} (h : ¬ item.Negative) :
    item.text = item.reference := by
  cases item with
  | dec v =>
      have hnonneg : ¬ v.toInt < 0 := h
      have habs : v.toInt.natAbs = v.toNat := by
        rw [BitVec.toInt_eq_toNat_cond] at hnonneg ⊢
        omega
      rw [Item.text, Item.reference, signed, if_neg hnonneg, habs]
  | _ => rfl

/-- A negative number differs in the first character. -/
theorem Item.text_not_pre {item : Item} (h : item.Negative) (s t : List (BitVec 8)) :
    ¬ item.text ++ s <+: item.reference ++ t := by
  cases item with
  | dec v =>
      have hneg : v.toInt < 0 := h
      obtain ⟨c, l, hcons⟩ := List.exists_cons_of_ne_nil (numeral_ne_nil 10 v.toNat)
      have hc : isDigit c = true := isDigit_of_mem_numeral (hcons ▸ List.mem_cons_self ..)
      rw [Item.text, Item.reference, signed, if_pos hneg, hcons]
      intro hpre
      rw [(List.cons_prefix_cons.mp hpre).1] at hc
      exact absurd hc (by decide)
  | _ => exact h.elim

theorem text_eq_reference {items : List Item} (h : ∀ item ∈ items, ¬ item.Negative) :
    items.flatMap Item.text = items.flatMap Item.reference := by
  induction items with
  | nil => rfl
  | cons item items ih =>
      rw [List.flatMap_cons, List.flatMap_cons,
        Item.text_eq_reference (h item (List.mem_cons_self ..)), ih fun i hi =>
          h i (List.mem_cons_of_mem item hi)]

theorem not_negative_of_pre {items : List Item}
    (hpre : items.flatMap Item.text <+: items.flatMap Item.reference) :
    ∀ item ∈ items, ¬ item.Negative := by
  induction items with
  | nil => exact fun item hitem => absurd hitem List.not_mem_nil
  | cons item items ih =>
      rw [List.flatMap_cons, List.flatMap_cons] at hpre
      have hfirst : ¬ item.Negative := fun hneg => item.text_not_pre hneg _ _ hpre
      rw [Item.text_eq_reference hfirst, List.prefix_append_right_inj] at hpre
      intro i hi
      rcases List.mem_cons.mp hi with rfl | hi
      · exact hfirst
      · exact ih hpre i hi

/-- The texts agree and leave room for the NUL. -/
theorem text_eq_take_iff (items : List Item) :
    (items.flatMap Item.text).length < MAX_BUF_LEN ∧
        items.flatMap Item.text = (items.flatMap Item.reference).take 255 ↔
      (items.flatMap Item.reference).length ≤ 255 ∧ ∀ item ∈ items, ¬ item.Negative := by
  constructor
  · rintro ⟨hlength, htext⟩
    have hnonneg := not_negative_of_pre (htext ▸ List.take_prefix 255 _)
    rw [text_eq_reference hnonneg] at hlength
    exact ⟨Nat.le_of_lt_succ hlength, hnonneg⟩
  · rintro ⟨hlength, hnonneg⟩
    rw [text_eq_reference hnonneg, List.take_of_length_le hlength]
    exact ⟨Nat.lt_succ_of_le hlength, rfl⟩

/-- **`vprint` prints what `vsnprintf` prints**, up to 255 characters and inside its buffer, exactly
if there are no more of them and no number of a `%d` is negative. -/
theorem vprint_sends_iff (s : Serial) (items : List Item) (rest : List VaArg) {size : BitVec 32}
    (hsize : 256 ≤ size.toInt) (buf : Nat → BitVec 8) :
    (∃ buf' added text,
        vsnprintfOn .i386 buf size (formatOf items) (argsOf items ++ rest) = some (buf', added) ∧
          StringAt buf' 0 text ∧
          vprint s (formatOf items) (argsOf items ++ rest) = some (serialPrint s (text.take 255))) ↔
      (items.flatMap Item.reference).length ≤ 255 ∧ ∀ item ∈ items, ¬ item.Negative := by
  have hzero : 0#8 ∉ items.flatMap Item.reference := by
    intro hmem
    obtain ⟨item, -, hitem⟩ := List.mem_flatMap.mp hmem
    exact item.zero_notMem_reference hitem
  have hstring := stringAt_printed_take hzero size.toInt.toNat buf
  have htake : ((items.flatMap Item.reference).take (size.toInt.toNat - 1)).take 255 =
      (items.flatMap Item.reference).take 255 := by
    rw [List.take_take, Nat.min_eq_left (by omega)]
  rw [vsnprintfOn_eq items rest (by omega) buf, vprint_eq, ← text_eq_take_iff]
  constructor
  · rintro ⟨buf', added, text, hcall, htext, hsent⟩
    obtain ⟨rfl, -⟩ := Prod.mk.inj (Option.some.inj hcall)
    rw [← hstring.eq htext, htake] at hsent
    by_cases hroom : (items.flatMap Item.text).length < MAX_BUF_LEN
    · rw [vprintEnd_of_room s hroom] at hsent
      exact ⟨hroom, serialPrint_injective s (Option.some.inj hsent)⟩
    · rw [vprintEnd_of_full s (Nat.le_of_not_lt hroom)] at hsent
      cases hsent
  · rintro ⟨hroom, htext⟩
    refine ⟨_, _, _, rfl, hstring, ?_⟩
    rw [vprintEnd_of_room s hroom, htake, ← htext]

def readyPort : Serial := ⟨true, 0x03#8, []⟩

def letter : Plain := ⟨ch 'a', by decide, by decide⟩

/-- `%sa%u` of a string and a number. -/
theorem vprint_sends_number :
    ∃ buf' added text,
      vsnprintfOn .i386 (fun _ => 0#8) 256#32
          (formatOf [.str ⟨[ch 'b', ch 'c'], by decide⟩, .plain letter, .unsigned 70#32])
          [.str ⟨[ch 'b', ch 'c'], by decide⟩, .word 70#32] = some (buf', added) ∧
        StringAt buf' 0 text ∧
        vprint readyPort
          (formatOf [.str ⟨[ch 'b', ch 'c'], by decide⟩, .plain letter, .unsigned 70#32])
          [.str ⟨[ch 'b', ch 'c'], by decide⟩, .word 70#32] =
            some (serialPrint readyPort (text.take 255)) :=
  (vprint_sends_iff readyPort [.str ⟨[ch 'b', ch 'c'], by decide⟩, .plain letter, .unsigned 70#32]
    [] (by decide)
    fun _ => 0#8).mpr ⟨by decide, by decide⟩

theorem argsOf_replicate (n : Nat) (c : Plain) : argsOf (List.replicate n (.plain c)) = [] := by
  refine List.flatMap_eq_nil_iff.mpr fun item hitem => ?_
  rw [List.eq_of_mem_replicate hitem]
  rfl

theorem length_text_replicate (n : Nat) (c : Plain) :
    ((List.replicate n (Item.plain c)).flatMap Item.text).length = n := by
  rw [List.length_flatMap, List.map_replicate, List.sum_replicate_nat]
  exact Nat.mul_one n

/-- `%d` of -1 is sent as `4294967295`, where `vsnprintf` prints `-1`; and 256 letters leave no room
for the NUL. -/
theorem vprint_of_minus_one :
    vprint readyPort (formatOf [.dec (-1#32)]) [.word (-1#32)] =
        some (serialPrint readyPort ("4294967295".toList.map ch)) ∧
      (∃ buf' added,
        vsnprintfOn .i386 (fun _ => 0#8) 256#32 (formatOf [.dec (-1#32)]) [.word (-1#32)] =
          some (buf', added) ∧
          StringAt buf' 0 [ch '-', ch '1']) ∧
      serialPrint readyPort ("4294967295".toList.map ch) ≠ serialPrint readyPort [ch '-', ch '1'] ∧
      vprint readyPort (formatOf (List.replicate 256 (.plain letter))) [] = none := by
  refine ⟨?_, ⟨_, _, vsnprintfOn_eq [.dec (-1#32)] [] (by decide) fun _ => 0#8, ?_⟩, ?_, ?_⟩
  · refine (vprint_eq readyPort [.dec (-1#32)] []).trans ?_
    have htext : [Item.dec (-1#32)].flatMap Item.text = "4294967295".toList.map ch := by decide
    rw [htext, vprintEnd_of_room readyPort (by decide)]
  · exact stringAt_printed_take (by decide) 256 fun _ => 0#8
  · intro h
    exact absurd (serialPrint_injective readyPort h) (by decide)
  · have hcall := vprint_eq readyPort (List.replicate 256 (.plain letter)) []
    rw [argsOf_replicate, List.append_nil] at hcall
    rw [hcall, vprintEnd_of_full readyPort (Nat.le_of_eq (length_text_replicate 256 letter).symm)]

end AcrnGuest.Code16
