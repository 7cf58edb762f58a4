import AcrnGuest.Crc32
import AcrnGuest.PackedStruct

/-!
# Descriptors of the 64-bit build (`lib/x86/desc.c`)

`set_gdt_entry` writes a descriptor of 8 bytes through the fields of `gdt_entry_t`.
`set_gdt64_entry` writes one of 16 bytes at the same place through `struct segment_desc64`,
where the access byte and the byte behind it are a word of bit-fields that are assigned
one by one.

The processor knows neither structure. It takes base, limit, access byte and flags from the
places the architecture gives them, and `SegmentDescriptor.read` is written from there.
-/

namespace AcrnGuest

/-! ### Memory accesses -/

def Bytes.store {w : Nat} (m : Bytes) (a : Word) (v : BitVec w) : Bytes := fun b =>
  if 8 * (b - a).toNat < w then v.extractLsb' (8 * (b - a).toNat) 8 else m b

def Bytes.load16 (m : Bytes) (a : Word) : BitVec 16 := m (a + 1#64) ++ m a

def Bytes.load64 (m : Bytes) (a : Word) : Word :=
  m (a + 7#64) ++ m (a + 6#64) ++ m (a + 5#64) ++ m (a + 4#64) ++ m (a + 3#64) ++ m (a + 2#64) ++
    m (a + 1#64) ++ m a

def assignBits (f : BitField) (w : BitVec 16) (v : BitVec 8) : BitVec 16 :=
  (f.insert (w.setWidth 64) (v.setWidth 64)).setWidth 16

def Bytes.assign (m : Bytes) (a : Word) (f : BitField) (v : BitVec 8) : Bytes :=
  m.store a (assignBits f (m.load16 a) v)

/-! ### The source -/

def gdtEntry (gdt64 : Word) (sel : BitVec 32) : Word :=
  gdt64 + 8#64 * (sel.sshiftRight 3).signExtend 64

/-- `set_gdt_entry`, with the word it prints. -/
def setGdtEntry (m : Bytes) (gdt64 : Word) (sel base limit : BitVec 32) (access gran : BitVec 8) :
    Bytes × Word :=
  let entry := gdtEntry gdt64 sel
  -- `limit_low` is at offset 0, `base_low` at 2, `base_middle` at 4, `access` at 5, `granularity`
  -- at 6 and `base_high` at 7
  let m := m.store (entry + 2#64) ((base &&& 0xFFFF#32).setWidth 16)
  let m := m.store (entry + 4#64) ((base >>> 16 &&& 0xFF#32).setWidth 8)
  let m := m.store (entry + 7#64) ((base >>> 24 &&& 0xFF#32).setWidth 8)
  let m := m.store (entry + 0#64) ((limit &&& 0xFFFF#32).setWidth 16)
  let m := m.store (entry + 6#64) ((limit >>> 16 &&& 0x0F#32).setWidth 8)
  let m := m.store (entry + 6#64) (m (entry + 6#64) ||| gran &&& 0xF0#8)
  let m := m.store (entry + 5#64) access
  (m, m.load64 entry)

def flagsField (pos width : Nat) (h : 0 < width ∧ pos + width ≤ 16) : BitField :=
  ⟨0, pos, width, Nat.two_pow_pos 32, h.1, Nat.le_trans h.2 (by omega)⟩

namespace SegmentDesc64

def type : BitField := flagsField 0 4 (by decide)
def s : BitField := flagsField 4 1 (by decide)
def dpl : BitField := flagsField 5 2 (by decide)
def p : BitField := flagsField 7 1 (by decide)
def limit : BitField := flagsField 8 4 (by decide)
def avl : BitField := flagsField 12 1 (by decide)
def l : BitField := flagsField 13 1 (by decide)
def db : BitField := flagsField 14 1 (by decide)
def g : BitField := flagsField 15 1 (by decide)

end SegmentDesc64

/-- The assignments of `set_gdt64_entry` to the bit-fields at `a`. -/
def setTypeLimitFlags (m : Bytes) (a : Word) (limit : BitVec 32) (access gran : BitVec 8) : Bytes :=
  let m := m.assign a SegmentDesc64.limit ((limit >>> 16 &&& 0x0F#32).setWidth 8)
  let m := m.assign a SegmentDesc64.g (gran >>> 7 &&& 1#8)
  let m := m.assign a SegmentDesc64.db (gran >>> 6 &&& 1#8)
  let m := m.assign a SegmentDesc64.l (gran >>> 5 &&& 1#8)
  let m := m.assign a SegmentDesc64.avl (gran >>> 4 &&& 1#8)
  let m := m.assign a SegmentDesc64.p (access >>> 7 &&& 1#8)
  let m := m.assign a SegmentDesc64.dpl (access >>> 5 &&& 3#8)
  let m := m.assign a SegmentDesc64.s (access >>> 4 &&& 1#8)
  m.assign a SegmentDesc64.type (access &&& 0x0F#8)

/-- `set_gdt64_entry`, with the two words it prints. -/
def setGdt64Entry (m : Bytes) (gdt64 : Word) (sel : BitVec 32) (base : Word) (limit : BitVec 32)
    (access gran : BitVec 8) : Bytes × Word × Word :=
  let entry := gdtEntry gdt64 sel
  -- `limit1` is at offset 0, `base1` at 2, `base2` at 4, `type_limit_flags` at 5, `base3` at 7,
  -- `base4` at 8 and `zero` at 12
  let m := m.store (entry + 2#64) ((base &&& 0xFFFF#64).setWidth 16)
  let m := m.store (entry + 4#64) ((base >>> 16 &&& 0xFF#64).setWidth 8)
  let m := m.store (entry + 7#64) ((base >>> 24 &&& 0xFF#64).setWidth 8)
  let m := m.store (entry + 8#64) ((base >>> 32 &&& 0xFFFFFFFF#64).setWidth 32)
  let m := m.store (entry + 0#64) ((limit &&& 0xFFFF#32).setWidth 16)
  let m := setTypeLimitFlags m (entry + 5#64) limit access gran
  let m := m.store (entry + 12#64) 0#32
  (m, m.load64 entry, m.load64 (entry + 8#64))

/-! ### The architectural layout -/

/-- What the processor takes from a descriptor of 8 bytes. -/
structure SegmentDescriptor where
  base : BitVec 32
  limit : BitVec 20
  access : BitVec 8
  flags : BitVec 4
deriving DecidableEq, Repr

def SegmentDescriptor.read (m : Bytes) (a : Word) : SegmentDescriptor where
  base := m (a + 7#64) ++ m (a + 4#64) ++ m.load16 (a + 2#64)
  limit := (m (a + 6#64)).extractLsb' 0 4 ++ m.load16 (a + 0#64)
  access := m (a + 5#64)
  flags := (m (a + 6#64)).extractLsb' 4 4

def systemBase (m : Bytes) (a : Word) : Word :=
  m.load16 (a + 10#64) ++ m.load16 (a + 8#64) ++ (SegmentDescriptor.read m a).base

/-! ### Stores -/

section Stores

variable {w : Nat} {m : Bytes} {e a j k : Word}

theorem sub_offsets (e j k : Word) : e + j - (e + k) = j - k := by bv_omega

theorem store_apart (v : BitVec w) (h : w ≤ 8 * (j - k).toNat) :
    m.store (e + k) v (e + j) = m (e + j) := by
  rw [Bytes.store, sub_offsets, if_neg (Nat.not_lt.mpr h)]

theorem store_inside (v : BitVec w) (h : 8 * (j - k).toNat < w) :
    m.store (e + k) v (e + j) = v.extractLsb' (8 * (j - k).toNat) 8 := by
  rw [Bytes.store, sub_offsets, if_pos h]

theorem store_behind (v : BitVec w) (h : 8 * k.toNat + w ≤ 8 * j.toNat) :
    m.store (e + k) v (e + j) = m (e + j) := by
  refine store_apart v ?_
  have hlt := j.isLt
  rw [BitVec.toNat_sub]
  omega

theorem store_self (m : Bytes) (a : Word) (v : BitVec 8) : m.store a v a = v := by
  rw [Bytes.store, BitVec.sub_self]
  exact BitVec.extractLsb'_eq_self

theorem bytes_of_load16 {m' : Bytes} (h : m.load16 a = m'.load16 a) :
    m a = m' a ∧ m (a + 1#64) = m' (a + 1#64) := by
  constructor
  · have hlow := congrArg (BitVec.extractLsb' 0 8) h
    rwa [Bytes.load16, Bytes.load16, BitVec.extractLsb'_append_eq_right,
      BitVec.extractLsb'_append_eq_right] at hlow
  · have hhigh := congrArg (BitVec.extractLsb' 8 8) h
    rwa [Bytes.load16, Bytes.load16, BitVec.extractLsb'_append_eq_left,
      BitVec.extractLsb'_append_eq_left] at hhigh

theorem load16_apart (v : BitVec w) (hlow : w ≤ 8 * (j - k).toNat)
    (hhigh : w ≤ 8 * (j + 1#64 - k).toNat) :
    (m.store (e + k) v).load16 (e + j) = m.load16 (e + j) := by
  rw [Bytes.load16, Bytes.load16, BitVec.add_assoc, store_apart v hlow, store_apart v hhigh]

theorem load16_inside (v : BitVec w) (hw : w ≤ 64) (h : 8 * (j - k).toNat + 16 ≤ w) :
    (m.store (e + k) v).load16 (e + j) = v.extractLsb' (8 * (j - k).toNat) 16 := by
  have hnext : (j + 1#64 - k).toNat = (j - k).toNat + 1 := by
    rw [BitVec.toNat_sub] at h
    rw [BitVec.toNat_sub, BitVec.toNat_sub, BitVec.toNat_add, BitVec.toNat_ofNat]
    omega
  rw [Bytes.load16, BitVec.add_assoc, store_inside v (by omega), store_inside v (by omega), hnext]
  exact BitVec.extractLsb'_append_extractLsb'_eq_extractLsb' rfl

theorem load16_store (m : Bytes) (a : Word) (v : BitVec 16) : (m.store a v).load16 a = v := by
  have hload : (m.store (a + 0#64) v).load16 (a + 0#64) = v.extractLsb' 0 16 :=
    load16_inside v (by decide) (by decide)
  rw [BitVec.add_zero] at hload
  exact hload.trans BitVec.extractLsb'_eq_self

theorem store_store (m : Bytes) (a : Word) (v v' : BitVec w) :
    (m.store a v).store a v' = m.store a v' := by
  funext b
  simp only [Bytes.store]
  split_ifs <;> rfl

/-- Assignments to bit-fields of one word are one store. -/
theorem store_assign (m : Bytes) (a : Word) (w : BitVec 16) (f : BitField) (v : BitVec 8) :
    (m.store a w).assign a f v = m.store a (assignBits f w v) := by
  rw [Bytes.assign, load16_store, store_store]

end Stores

/-! ### The bytes of an entry -/

/-- The first 8 bytes at `a` are the descriptor that the arguments describe. -/
structure DescriptorAt (m : Bytes) (a : Word) (base limit : BitVec 32) (access gran : BitVec 8) :
    Prop where
  limitLow : m.load16 (a + 0#64) = limit.extractLsb' 0 16
  baseLow : m.load16 (a + 2#64) = base.extractLsb' 0 16
  baseMiddle : m (a + 4#64) = base.extractLsb' 16 8
  access : m (a + 5#64) = access
  granularity : m (a + 6#64) = gran.extractLsb' 4 4 ++ limit.extractLsb' 16 4
  baseHigh : m (a + 7#64) = base.extractLsb' 24 8

def typeLimitFlags (w : BitVec 16) (limit : BitVec 32) (access gran : BitVec 8) : BitVec 16 :=
  let w := assignBits SegmentDesc64.limit w ((limit >>> 16 &&& 0x0F#32).setWidth 8)
  let w := assignBits SegmentDesc64.g w (gran >>> 7 &&& 1#8)
  let w := assignBits SegmentDesc64.db w (gran >>> 6 &&& 1#8)
  let w := assignBits SegmentDesc64.l w (gran >>> 5 &&& 1#8)
  let w := assignBits SegmentDesc64.avl w (gran >>> 4 &&& 1#8)
  let w := assignBits SegmentDesc64.p w (access >>> 7 &&& 1#8)
  let w := assignBits SegmentDesc64.dpl w (access >>> 5 &&& 3#8)
  let w := assignBits SegmentDesc64.s w (access >>> 4 &&& 1#8)
  assignBits SegmentDesc64.type w (access &&& 0x0F#8)

section Entry

variable {m : Bytes} {gdt64 base64 : Word} {sel base limit : BitVec 32} {access gran : BitVec 8}

theorem setTypeLimitFlags_eq (m : Bytes) (a : Word) (limit : BitVec 32) (access gran : BitVec 8) :
    setTypeLimitFlags m a limit access gran =
      m.store a (typeLimitFlags (m.load16 a) limit access gran) := by
  have hfirst (v : BitVec 8) : m.assign a SegmentDesc64.limit v =
      m.store a (assignBits SegmentDesc64.limit (m.load16 a) v) := rfl
  simp only [setTypeLimitFlags, hfirst, store_assign]
  rfl

theorem getLsbD_assignBits (f : BitField) (w : BitVec 16) (v : BitVec 8) {i : Nat} (hi : i < 16) :
    (assignBits f w v).getLsbD i =
      if f.pos ≤ i ∧ i < f.pos + f.width then v.getLsbD (i - f.pos) else w.getLsbD i := by
  rw [assignBits, BitVec.getLsbD_setWidth, BitField.getLsbD_insert _ _ _ (by omega),
    decide_eq_true hi, Bool.true_and]
  simp only [BitVec.getLsbD_setWidth]
  split_ifs with hin
  · rw [decide_eq_true (by omega), Bool.true_and]
  · rw [decide_eq_true (by omega), Bool.true_and]

/-- The bit-fields cover the word: nothing of its old content is left. -/
theorem typeLimitFlags_eq (w : BitVec 16) (limit : BitVec 32) (access gran : BitVec 8) :
    typeLimitFlags w limit access gran =
      gran.extractLsb' 4 4 ++ limit.extractLsb' 16 4 ++ access := by
  apply BitVec.eq_of_getLsbD_eq
  intro i hi
  simp only [typeLimitFlags, getLsbD_assignBits _ _ _ hi, SegmentDesc64.limit, SegmentDesc64.g,
    SegmentDesc64.db, SegmentDesc64.l, SegmentDesc64.avl, SegmentDesc64.p, SegmentDesc64.dpl,
    SegmentDesc64.s, SegmentDesc64.type, flagsField]
  rw [BitVec.getLsbD_append, BitVec.getLsbD_append, BitVec.getLsbD_extractLsb',
    BitVec.getLsbD_extractLsb']
  -- each bit lies in one of the nine fields, and the conditions of the others are false
  interval_cases i <;> simp

theorem setWidth_shift_and {n : Nat} (x : BitVec n) (s w : Nat) :
    (x >>> s &&& BitVec.ofNat n (2 ^ w - 1)).setWidth w = x.extractLsb' s w := by
  apply BitVec.eq_of_getLsbD_eq
  intro i hi
  rw [BitVec.getLsbD_setWidth, BitVec.getLsbD_and, BitVec.getLsbD_ushiftRight, BitVec.getLsbD_ofNat,
    BitVec.getLsbD_extractLsb', Nat.testBit_two_pow_sub_one]
  by_cases hn : i < n
  · simp [hi, hn]
  · simp [hi, hn, BitVec.getLsbD_of_ge x (s + i) (by omega)]

theorem granularity_eq (limit : BitVec 32) (gran : BitVec 8) :
    (limit >>> 16 &&& 0x0F#32).setWidth 8 ||| gran &&& 0xF0#8 =
      gran.extractLsb' 4 4 ++ limit.extractLsb' 16 4 := by
  apply BitVec.eq_of_getLsbD_eq
  intro i hi
  rw [BitVec.getLsbD_append, BitVec.getLsbD_extractLsb', BitVec.getLsbD_extractLsb']
  interval_cases i <;> simp

theorem setWidth_and {n : Nat} (x : BitVec n) (w : Nat) :
    (x &&& BitVec.ofNat n (2 ^ w - 1)).setWidth w = x.extractLsb' 0 w := by
  have hshift := setWidth_shift_and x 0 w
  rwa [BitVec.ushiftRight_zero] at hshift

theorem descriptorAt_setGdtEntry (m : Bytes) (gdt64 : Word) (sel base limit : BitVec 32)
    (access gran : BitVec 8) :
    DescriptorAt (setGdtEntry m gdt64 sel base limit access gran).1 (gdtEntry gdt64 sel) base limit
      access gran where
  limitLow := by
    simp (disch := decide) only [setGdtEntry, load16_apart, load16_store]
    exact setWidth_and limit 16
  baseLow := by
    simp (disch := decide) only [setGdtEntry, load16_apart, load16_store]
    exact setWidth_and base 16
  baseMiddle := by
    simp (disch := decide) only [setGdtEntry, store_apart, store_self]
    exact setWidth_shift_and base 16 8
  access := by
    simp only [setGdtEntry, store_self]
  granularity := by
    simp (disch := decide) only [setGdtEntry, store_apart, store_self]
    exact granularity_eq limit gran
  baseHigh := by
    simp (disch := decide) only [setGdtEntry, store_apart, store_self]
    exact setWidth_shift_and base 24 8

theorem descriptorAt_setGdt64Entry (m : Bytes) (gdt64 : Word) (sel : BitVec 32) (base : Word)
    (limit : BitVec 32) (access gran : BitVec 8) :
    DescriptorAt (setGdt64Entry m gdt64 sel base limit access gran).1 (gdtEntry gdt64 sel)
      (base.setWidth 32) limit
      access gran where
  limitLow := by
    simp (disch := decide) only [setGdt64Entry, setTypeLimitFlags_eq, load16_apart, load16_store]
    exact setWidth_and limit 16
  baseLow := by
    simp (disch := decide) only [setGdt64Entry, setTypeLimitFlags_eq, load16_apart, load16_store]
    exact (setWidth_and base 16).trans (BitVec.extractLsb'_setWidth_of_le (by decide)).symm
  baseMiddle := by
    simp (disch := decide) only [setGdt64Entry, setTypeLimitFlags_eq, store_apart, store_self]
    exact (setWidth_shift_and base 16 8).trans (BitVec.extractLsb'_setWidth_of_le (by decide)).symm
  access := by
    simp (disch := decide) only [setGdt64Entry, setTypeLimitFlags_eq, typeLimitFlags_eq,
      store_apart, store_inside]
    exact BitVec.extractLsb'_append_eq_right
  granularity := by
    simp (disch := decide) only [setGdt64Entry, setTypeLimitFlags_eq, typeLimitFlags_eq,
      store_apart, store_inside]
    exact BitVec.extractLsb'_append_eq_left
  baseHigh := by
    simp (disch := decide) only [setGdt64Entry, setTypeLimitFlags_eq, store_apart, store_self]
    exact (setWidth_shift_and base 24 8).trans (BitVec.extractLsb'_setWidth_of_le (by decide)).symm

theorem setGdtEntry_behind {j : Word} (hj : 8 ≤ j.toNat) :
    (setGdtEntry m gdt64 sel base limit access gran).1 (gdtEntry gdt64 sel + j) =
      m (gdtEntry gdt64 sel + j) := by
  simp (disch := simp; omega) only [setGdtEntry, store_behind]

theorem setGdt64Entry_behind {j : Word} (hj : 16 ≤ j.toNat) :
    (setGdt64Entry m gdt64 sel base64 limit access gran).1 (gdtEntry gdt64 sel + j) =
      m (gdtEntry gdt64 sel + j) := by
  simp (disch := simp; omega) only [setGdt64Entry, setTypeLimitFlags_eq, store_behind]

theorem setGdt64Entry_base4 (m : Bytes) (gdt64 : Word) (sel : BitVec 32) (base : Word)
    (limit : BitVec 32) (access gran : BitVec 8) :
    (setGdt64Entry m gdt64 sel base limit access gran).1.load16 (gdtEntry gdt64 sel + 10#64) ++
        (setGdt64Entry m gdt64 sel base limit access gran).1.load16 (gdtEntry gdt64 sel + 8#64) =
      base.extractLsb' 32 32 := by
  simp (disch := decide) only [setGdt64Entry, setTypeLimitFlags_eq, load16_apart, load16_inside]
  refine (BitVec.extractLsb'_append_extractLsb'_eq_extractLsb' rfl).trans ?_
  refine BitVec.extractLsb'_eq_self.trans ?_
  exact setWidth_shift_and base 32 32

/-! ### What the processor reads -/

namespace DescriptorAt

variable {a : Word} {m' : Bytes}

theorem read_eq (h : DescriptorAt m a base limit access gran) :
    SegmentDescriptor.read m a = ⟨base, limit.setWidth 20, access, gran.extractLsb' 4 4⟩ := by
  have hbase : base.extractLsb' 24 8 ++ base.extractLsb' 16 8 ++ base.extractLsb' 0 16 = base := by
    rw [BitVec.extractLsb'_append_extractLsb'_eq_extractLsb' (by rfl),
      BitVec.extractLsb'_append_extractLsb'_eq_extractLsb' (by rfl)]
    exact BitVec.extractLsb'_eq_self
  have hlimit : limit.extractLsb' 16 4 ++ limit.extractLsb' 0 16 = limit.setWidth 20 := by
    rw [BitVec.extractLsb'_append_extractLsb'_eq_extractLsb' (by rfl)]
    exact BitVec.setWidth_eq_extractLsb' (by decide) |>.symm
  rw [SegmentDescriptor.read, h.limitLow, h.baseLow, h.baseMiddle, h.access, h.granularity,
    h.baseHigh, hbase, BitVec.extractLsb'_append_eq_right,
    BitVec.extractLsb'_append_eq_left, hlimit]

theorem byte_eq (h : DescriptorAt m a base limit access gran)
    (h' : DescriptorAt m' a base limit access gran) {j : Word} (hj : j.toNat < 8) :
    m (a + j) = m' (a + j) := by
  obtain ⟨hlimit0, hlimit1⟩ := bytes_of_load16 (h.limitLow.trans h'.limitLow.symm)
  obtain ⟨hbase0, hbase1⟩ := bytes_of_load16 (h.baseLow.trans h'.baseLow.symm)
  rw [BitVec.add_assoc] at hlimit1 hbase1
  obtain ⟨n, rfl⟩ : ∃ n : Fin 8, j = BitVec.ofNat 64 n :=
    ⟨⟨j.toNat, hj⟩, (BitVec.ofNat_toNat 64 j).symm ▸ (BitVec.setWidth_eq j).symm⟩
  match n with
  | 0 => exact hlimit0
  | 1 => exact hlimit1
  | 2 => exact hbase0
  | 3 => exact hbase1
  | 4 => exact h.baseMiddle.trans h'.baseMiddle.symm
  | 5 => exact h.access.trans h'.access.symm
  | 6 => exact h.granularity.trans h'.granularity.symm
  | 7 => exact h.baseHigh.trans h'.baseHigh.symm

end DescriptorAt

/-- Entries have 8 bytes, and the shift is that of a signed number. -/
theorem gdtEntry_eq (gdt64 : Word) (sel : BitVec 32) :
    gdtEntry gdt64 sel = gdt64 + 8#64 * BitVec.ofInt 64 (sel.toInt / 8) := by
  have hindex : (sel.sshiftRight 3).toInt = sel.toInt / 8 := by
    rw [BitVec.toInt_sshiftRight, Int.shiftRight_eq_div_pow]
    rfl
  rw [gdtEntry, BitVec.signExtend, hindex]

/-- **The two forms of a descriptor.** For a base of 32 bits they have the same first 8 bytes. From
these the processor takes the base, the limit, the access byte and the flags of the arguments, and
from the 16 bytes of the longer form every base of 64 bits. The rest of the memory stays as it
is. -/
theorem gdt_entries_decode (m : Bytes) (gdt64 : Word) (sel base : BitVec 32) (base64 : Word)
    {limit : BitVec 32} (hlimit : limit.toNat < 2 ^ 20) (access gran : BitVec 8) :
    let entry := gdt64 + 8#64 * BitVec.ofInt 64 (sel.toInt / 8)
    let m₁ := (setGdtEntry m gdt64 sel base limit access gran).1
    let m₂ := (setGdt64Entry m gdt64 sel (base.setWidth 64) limit access gran).1
    let m₃ := (setGdt64Entry m gdt64 sel base64 limit access gran).1
    let d := SegmentDescriptor.read m₁ entry
    let d₃ := SegmentDescriptor.read m₃ entry
    (∀ j : Word, j.toNat < 8 → m₁ (entry + j) = m₂ (entry + j)) ∧
      (d.base = base ∧ d.limit.toNat = limit.toNat ∧ d.access = access ∧
        d.flags = gran.extractLsb' 4 4) ∧
      (systemBase m₃ entry = base64 ∧ d₃.limit.toNat = limit.toNat ∧ d₃.access = access ∧
        d₃.flags = gran.extractLsb' 4 4) ∧
      (∀ j : Word, 8 ≤ j.toNat → m₁ (entry + j) = m (entry + j)) ∧
      ∀ j : Word, 16 ≤ j.toNat → m₃ (entry + j) = m (entry + j) := by
  rw [← gdtEntry_eq gdt64 sel]
  intro entry m₁ m₂ m₃ d d₃
  have hentry : DescriptorAt m₁ entry base limit access gran :=
    descriptorAt_setGdtEntry m gdt64 sel base limit access gran
  have hentry₂ : DescriptorAt m₂ entry ((base.setWidth 64).setWidth 32) limit access gran :=
    descriptorAt_setGdt64Entry m gdt64 sel (base.setWidth 64) limit access gran
  have hentry₃ : DescriptorAt m₃ entry (base64.setWidth 32) limit access gran :=
    descriptorAt_setGdt64Entry m gdt64 sel base64 limit access gran
  have hlimit20 : (limit.setWidth 20).toNat = limit.toNat := by
    rw [BitVec.toNat_setWidth, Nat.mod_eq_of_lt hlimit]
  have hbase : (base.setWidth 64).setWidth 32 = base := by simp
  rw [hbase] at hentry₂
  refine ⟨fun j hj => hentry.byte_eq hentry₂ hj, ?_, ?_, fun j hj => setGdtEntry_behind hj,
    fun j hj => setGdt64Entry_behind hj⟩
  · rw [show d = _ from hentry.read_eq]
    exact ⟨rfl, hlimit20, rfl, rfl⟩
  · rw [systemBase, hentry₃.read_eq, show d₃ = _ from hentry₃.read_eq]
    refine ⟨?_, hlimit20, rfl, rfl⟩
    rw [setGdt64Entry_base4, BitVec.setWidth_eq_extractLsb' (by decide),
      BitVec.extractLsb'_append_extractLsb'_eq_extractLsb' (by rfl)]
    exact BitVec.extractLsb'_eq_self

theorem gdt_entries_decode_tss :
    let m₃ := (setGdt64Entry (fun _ => 0xAA#8) 0x1000#64 0x40#32 0x123456789ABCDEF0#64 0x67#32
      0x89#8 0x0F#8).1
    (0x67#32).toNat < 2 ^ 20 ∧ systemBase m₃ 0x1040#64 = 0x123456789ABCDEF0#64 := by
  have hentry : 0x1040#64 = 0x1000#64 + 8#64 * BitVec.ofInt 64 ((0x40#32).toInt / 8) := by decide
  rw [hentry]
  exact ⟨by decide, (gdt_entries_decode (fun _ => 0xAA#8) 0x1000#64 0x40#32 0#32
    0x123456789ABCDEF0#64 (by decide : (0x67#32).toNat < 2 ^ 20) 0x89#8 0x0F#8).2.2.1.1⟩

end Entry

end AcrnGuest
