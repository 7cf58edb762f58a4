import AcrnGuest.AllocPage
import AcrnGuest.Crc32

/-!
# The memory-isolation check (`x86/safety_analysis.h`)

The test fills three windows of a memory region with data, lets the other side try
to write to it and then compares a CRC of the windows. The windows are counted in
32-bit words when they are written; the CRC reads as many bytes.
-/

namespace AcrnGuest

/-! ### The source -/

def RSVD_START_MEM : Word := 0x1000#64
def RSVE_END_MEM : Word := 0x100#64

/-- The start of a window; `none` if the assertion fails. -/
def genStartAddr (index : Nat) (start end_ count : Word) : Option Word :=
  if count * 4#64 < (end_ - start) / 3#64 then
    match index with
    | 1 => some ((start + end_) >>> 1)
    | 2 => some (end_ - RSVE_END_MEM - count * 4#64)
    | _ => some (if start < RSVD_START_MEM then RSVD_START_MEM else start)
  else none

def calcCrc32 (m : Bytes) (start end_ count : Word) : Option Word := do
  let start1 ← genStartAddr 0 start end_ count
  let start2 ← genStartAddr 1 start end_ count
  let start3 ← genStartAddr 2 start end_ count
  let crc32 := crc32ComputeBuf 0#64 m start1 count.toNat
  let crc32 := crc32ComputeBuf crc32 m start2 count.toNat
  return crc32ComputeBuf crc32 m start3 count.toNat

def Bytes.store32 (m : Bytes) (a : Word) (v : BitVec 32) : Bytes := fun b =>
  if (b - a).toNat < 4 then (v >>> (8 * (b - a).toNat)).setWidth 8 else m b

/-- One iteration of the loop of `write_mem_data`; the counter `i` has 32 bits. -/
def writeMemDataStep (start count data : Word) : BitVec 32 × Bytes → (BitVec 32 × Bytes) ⊕ Bytes
  | (i, m) =>
      if i.toNat < count.toNat then
        .inl (i + 1#32, m.store32 (start + 4#64 * i.setWidth 64)
          ((data + i.setWidth 64 * 4#64).setWidth 32))
      else .inr m

def writeMemData (m : Bytes) (start count data : Word) : Option Bytes :=
  Loop.run (writeMemDataStep start count data) LOOP_BOUND (0#32, m)

def writeMemDataEx (m : Bytes) (start end_ count data : Word) : Option Bytes := do
  let start1 ← genStartAddr 0 start end_ count
  let start2 ← genStartAddr 1 start end_ count
  let start3 ← genStartAddr 2 start end_ count
  let data2 := data + count * 4#64
  let m ← writeMemData m start1 count data
  let m ← writeMemData m start2 count data2
  writeMemData m start3 count (data2 + count * 4#64)

/-! ### The loop of `write_mem_data` -/

section Fill

variable {m : Bytes} {base data a : Word} {i : Nat}

/-- The memory with `n` words of data from `base` on. -/
def filled (m : Bytes) (base data : Word) (n : Nat) : Bytes := fun a =>
  if (a - base).toNat < 4 * n then
    ((data + BitVec.ofNat 64 (4 * ((a - base).toNat / 4))).setWidth
      32 >>> (8 * ((a - base).toNat % 4))).setWidth 8
  else m a

theorem toNat_sub_word (hi : i < 2 ^ 32) :
    (a - (base + BitVec.ofNat 64 (4 * i))).toNat =
      if 4 * i ≤ (a - base).toNat then (a - base).toNat - 4 * i
        else 2 ^ 64 + (a - base).toNat - 4 * i := by
  have ha := a.isLt
  have hbase := base.isLt
  rw [BitVec.toNat_sub, BitVec.toNat_add, BitVec.toNat_ofNat, BitVec.toNat_sub]
  split <;> omega

/-- **One store of the loop.** -/
theorem filled_store32 (hi : i < 2 ^ 32) :
    (filled m base data i).store32 (base + BitVec.ofNat 64 (4 * i))
      ((data + BitVec.ofNat 64 (4 * i)).setWidth 32) = filled m base data (i + 1) := by
  funext a
  have hlt := (a - base).isLt
  unfold Bytes.store32 filled
  rw [toNat_sub_word hi]
  by_cases hbelow : (a - base).toNat < 4 * i
  · rw [if_neg (by omega : ¬ 4 * i ≤ (a - base).toNat), if_neg (by omega), if_pos hbelow,
      if_pos (by omega)]
  · rw [if_pos (by omega : 4 * i ≤ (a - base).toNat), if_neg hbelow]
    by_cases hword : (a - base).toNat < 4 * (i + 1)
    · have hindex : (a - base).toNat / 4 = i := by omega
      have hbyte : (a - base).toNat % 4 = (a - base).toNat - 4 * i := by omega
      rw [if_pos (by omega), if_pos hword, hindex, hbyte]
    · rw [if_neg (by omega), if_neg hword]

theorem counter_word (i : BitVec 32) :
    4#64 * i.setWidth 64 = BitVec.ofNat 64 (4 * i.toNat) ∧
      i.setWidth 64 * 4#64 = BitVec.ofNat 64 (4 * i.toNat) := by
  have hword : 4#64 * i.setWidth 64 = BitVec.ofNat 64 (4 * i.toNat) := by
    rw [BitVec.ofNat_mul, BitVec.ofNat_toNat]
  exact ⟨hword, (BitVec.mul_comm ..).trans hword⟩

theorem toNat_counter_succ {i : BitVec 32} {n : Nat} (hi : i.toNat < n) (hn : n < 2 ^ 32) :
    (i + 1#32).toNat = i.toNat + 1 := by
  apply BitVec.toNat_add_of_lt
  rw [show (1#32).toNat = 1 from rfl]
  omega

/-- The loop of `write_mem_data` fills the window. -/
theorem writeMemData_eq {count : Word} (hcount : count.toNat < 2 ^ 32) :
    writeMemData m base count data = some (filled m base data count.toNat) := by
  have hrun : ∃ m', Loop.run (writeMemDataStep base count data) LOOP_BOUND (0#32, m) = some m' ∧
      m' = filled m base data count.toNat := by
    refine Loop.run_total _ (fun st => st.1.toNat ≤ count.toNat ∧
      st.2 = filled m base data st.1.toNat)
      (fun st => count.toNat - st.1.toNat) _ ?_ ?_ ⟨Nat.zero_le _, ?_⟩ ?_
    · rintro ⟨i, m₁⟩ next ⟨hle, hmem⟩ hstep
      dsimp only at hle hmem
      unfold writeMemDataStep at hstep
      dsimp only at hstep
      split_ifs at hstep with hlt
      rw [Sum.inl.injEq] at hstep
      subst hstep
      dsimp only
      rw [toNat_counter_succ hlt hcount, (counter_word i).1, (counter_word i).2, hmem,
        filled_store32 i.isLt]
      exact ⟨⟨by omega, rfl⟩, by omega⟩
    · rintro ⟨i, m₁⟩ result ⟨hle, hmem⟩ hstep
      dsimp only at hle hmem
      unfold writeMemDataStep at hstep
      dsimp only at hstep
      split_ifs at hstep with hlt
      rw [Sum.inr.injEq] at hstep
      rw [← hstep, hmem, (by omega : i.toNat = count.toNat)]
    · funext a
      exact (if_neg (by simp)).symm
    · dsimp only [LOOP_BOUND]
      omega
  obtain ⟨m', hm', rfl⟩ := hrun
  exact hm'

end Fill

/-! ### The windows -/

/-- The region is accepted by the assertion of `gen_start_addr`, and its windows of `count` words
    lie in it one behind the other, in some order. -/
structure Windows (start end_ count : Word) where
  base : Fin 3 → Word
  accepted : ∀ w, genStartAddr w.val start end_ count = some (base w)
  inside : ∀ w, start.toNat ≤ (base w).toNat ∧ (base w).toNat + 4 * count.toNat ≤ end_.toNat
  disjoint : ∀ w w', w ≠ w' → (base w).toNat + 4 * count.toNat ≤ (base w').toNat ∨
    (base w').toNat + 4 * count.toNat ≤ (base w).toNat

section Windows

variable {start end_ count : Word}

def Windows.read (W : Windows start end_ count) : List Word :=
  bufAddrs (W.base 0) count.toNat ++ (bufAddrs (W.base 1) count.toNat ++
    bufAddrs (W.base 2) count.toNat)

def Windows.byte (W : Windows start end_ count) (w : Fin 3) (o : Nat) : Word :=
  W.base w + BitVec.ofNat 64 o

theorem Windows.mem_bufAddrs_base (W : Windows start end_ count) (w : Fin 3) {a : Word} :
    a ∈ bufAddrs (W.base w) count.toNat ↔
      (W.base w).toNat ≤ a.toNat ∧ a.toNat < (W.base w).toNat + count.toNat := by
  apply mem_bufAddrs
  have := (W.inside w).2
  have := end_.isLt
  omega

theorem Windows.toNat_byte (W : Windows start end_ count) (w : Fin 3) {o : Nat}
    (ho : o < 4 * count.toNat) : (W.byte w o).toNat = (W.base w).toNat + o := by
  have := (W.inside w).2
  have := end_.isLt
  rw [Windows.byte, BitVec.toNat_add, BitVec.toNat_ofNat]
  omega

theorem Windows.nodup_read (W : Windows start end_ count) : W.read.Nodup := by
  have hnodup : ∀ w, (bufAddrs (W.base w) count.toNat).Nodup := fun w =>
    nodup_bufAddrs _ (Nat.le_of_lt count.isLt)
  have happart : ∀ w w', w ≠ w' → ∀ a ∈ bufAddrs (W.base w) count.toNat,
      ∀ b ∈ bufAddrs (W.base w') count.toNat, a ≠ b := by
    rintro w w' hne a ha b hb rfl
    rw [W.mem_bufAddrs_base] at ha hb
    have := W.disjoint w w' hne
    omega
  unfold Windows.read
  rw [List.nodup_append, List.nodup_append]
  refine ⟨hnodup 0, ⟨hnodup 1, hnodup 2, happart 1 2 (by decide)⟩, ?_⟩
  intro a ha b hb
  rcases List.mem_append.mp hb with hb | hb
  · exact happart 0 1 (by decide) a ha b hb
  · exact happart 0 2 (by decide) a ha b hb

/-- Of the bytes of a window the CRC reads the first quarter. -/
theorem Windows.byte_mem_read (W : Windows start end_ count) (w : Fin 3) {o : Nat}
    (ho : o < 4 * count.toNat) : W.byte w o ∈ W.read ↔ o < count.toNat := by
  have hown : W.byte w o ∈ bufAddrs (W.base w) count.toNat ↔ o < count.toNat := by
    rw [W.mem_bufAddrs_base, W.toNat_byte w ho]
    omega
  have hother : ∀ w', w ≠ w' → W.byte w o ∉ bufAddrs (W.base w') count.toNat := by
    intro w' hne hmem
    rw [W.mem_bufAddrs_base, W.toNat_byte w ho] at hmem
    have := W.disjoint w w' hne
    omega
  unfold Windows.read
  rw [List.mem_append, List.mem_append, ← hown]
  rcases (by omega : w = 0 ∨ w = 1 ∨ w = 2) with rfl | rfl | rfl
  · simp [hother 1, hother 2]
  · simp [hother 0, hother 2]
  · simp [hother 0, hother 1]

/-! ### The CRC of the windows -/

theorem Windows.calcCrc32_eq (W : Windows start end_ count) (m : Bytes) :
    calcCrc32 m start end_ count =
      some ((W.read.map m).foldl crcStep 0xFFFFFFFF#64 ^^^ 0xFFFFFFFF#64) := by
  have hchain : ∀ inCrc32 buf, crc32ComputeBuf inCrc32 m buf count.toNat =
      ((bufAddrs buf count.toNat).map m).foldl crcStep (inCrc32 ^^^ 0xFFFFFFFF#64) ^^^
        0xFFFFFFFF#64 := by
    intro inCrc32 buf
    rw [← crc32ComputeBuf_eq, BitVec.xor_assoc, BitVec.xor_self, BitVec.xor_zero]
  have h0 : genStartAddr 0 start end_ count = some (W.base 0) := W.accepted 0
  have h1 : genStartAddr 1 start end_ count = some (W.base 1) := W.accepted 1
  have h2 : genStartAddr 2 start end_ count = some (W.base 2) := W.accepted 2
  simp only [calcCrc32, h0, h1, h2, Option.bind_eq_bind, Option.bind_some, Option.pure_def]
  rw [hchain (crc32ComputeBuf _ _ _ _), crc32ComputeBuf_eq, crc32ComputeBuf_eq, BitVec.zero_xor,
    ← List.foldl_append, ← List.foldl_append, ← List.map_append, ← List.map_append]
  rfl

theorem Windows.calcCrc32_update_ne_iff (W : Windows start end_ count) (m : Bytes) (w : Fin 3)
    {o : Nat} (ho : o < 4 * count.toNat) {v : BitVec 8} (hv : v ≠ m (W.byte w o)) :
    calcCrc32 (Function.update m (W.byte w o) v) start end_ count ≠ calcCrc32 m start end_ count ↔
      o < count.toNat := by
  rw [W.calcCrc32_eq, W.calcCrc32_eq, ← W.byte_mem_read w ho,
    ← reversible_crcStep.foldl_update_ne_iff
      (by decide : 0xFFFFFFFF#64 >>> 32 = 0#64) W.nodup_read hv]
  simp only [ne_eq, Option.some.injEq, BitVec.xor_left_inj]

/-! ### Whether the writing ends -/

theorem writeMemData_isSome (m : Bytes) (start data : Word) (hcount : count.toNat < 2 ^ 32) :
    ∃ m', writeMemData m start count data = some m' :=
  ⟨_, writeMemData_eq hcount⟩

/-- A 32-bit counter never reaches a larger count. -/
theorem writeMemData_eq_none (m : Bytes) (start data : Word) (hcount : 2 ^ 32 ≤ count.toNat) :
    writeMemData m start count data = none := by
  apply Loop.run_eq_none
  rintro ⟨i, m⟩
  have hlt : i.toNat < count.toNat := Nat.lt_of_lt_of_le i.isLt hcount
  unfold writeMemDataStep
  dsimp only
  rw [if_pos hlt]
  exact ⟨_, rfl⟩

theorem Windows.writeMemDataEx_isSome_iff (W : Windows start end_ count) (m : Bytes) (data : Word) :
    (∃ m', writeMemDataEx m start end_ count data = some m') ↔ count.toNat < 2 ^ 32 := by
  have h0 : genStartAddr 0 start end_ count = some (W.base 0) := W.accepted 0
  have h1 : genStartAddr 1 start end_ count = some (W.base 1) := W.accepted 1
  have h2 : genStartAddr 2 start end_ count = some (W.base 2) := W.accepted 2
  simp only [writeMemDataEx, h0, h1, h2, Option.bind_eq_bind, Option.bind_some]
  constructor
  · rintro ⟨m', hm'⟩
    by_contra hlarge
    rw [writeMemData_eq_none m _ _ (by omega)] at hm'
    exact absurd hm' (by simp)
  · intro hcount
    obtain ⟨m1, hm1⟩ := writeMemData_isSome m (W.base 0) data hcount
    obtain ⟨m2, hm2⟩ := writeMemData_isSome m1 (W.base 1) (data + count * 4#64) hcount
    obtain ⟨m3, hm3⟩ := writeMemData_isSome m2 (W.base 2)
      (data + count * 4#64 + count * 4#64) hcount
    exact ⟨m3, by rw [hm1, Option.bind_some, hm2, Option.bind_some, hm3]⟩

end Windows

/-! ### What the check sees -/

/-- A changed byte of the written words shows in the CRC exactly if the loop that writes
    them ends and the byte is in the first quarter of its window. -/
theorem crc_sees_change_iff (start end_ count data : Word)
    (W : Windows start end_ count) (m : Bytes) (w : Fin 3) (o : Nat) (ho : o < 4 * count.toNat) :
    (∃ m' crc32, writeMemDataEx m start end_ count data = some m' ∧
      calcCrc32 m' start end_ count = some crc32 ∧
      ∀ v, v ≠ m' (W.byte w o) →
        ∃ crc32', calcCrc32 (Function.update m' (W.byte w o) v) start end_ count = some crc32' ∧
          crc32' ≠ crc32) ↔
      count.toNat < 2 ^ 32 ∧ o < count.toNat := by
  constructor
  · rintro ⟨m', crc32, hwrite, hcrc, hsees⟩
    refine ⟨(W.writeMemDataEx_isSome_iff m data).mp ⟨m', hwrite⟩, ?_⟩
    have hv : m' (W.byte w o) + 1#8 ≠ m' (W.byte w o) := by
      intro heq
      have htoNat := congrArg BitVec.toNat heq
      rw [BitVec.toNat_add, show (1#8).toNat = 1 from rfl] at htoNat
      have hlt := (m' (W.byte w o)).isLt
      omega
    obtain ⟨crc32', hcrc', hne⟩ := hsees _ hv
    apply (W.calcCrc32_update_ne_iff m' w ho hv).mp
    rw [hcrc, hcrc']
    exact fun heq => hne (Option.some.inj heq)
  · rintro ⟨hcount, hread⟩
    obtain ⟨m', hwrite⟩ := (W.writeMemDataEx_isSome_iff m data).mpr hcount
    refine ⟨m', _, hwrite, W.calcCrc32_eq m', fun v hv => ⟨_, W.calcCrc32_eq _, fun heq => ?_⟩⟩
    apply (W.calcCrc32_update_ne_iff m' w ho hv).mpr hread
    rw [W.calcCrc32_eq, W.calcCrc32_eq, heq]

/-- One word at the start, in the middle and at the end of a page. -/
def pageWindows : Windows 0x1000#64 0x2000#64 1#64 where
  base
    | 0 => 0x1000#64
    | 1 => 0x1800#64
    | 2 => 0x1EFC#64
  accepted := by decide
  inside := by decide
  disjoint := by decide

/-- The second byte of the first word is not read. -/
theorem crc_misses_second_byte :
    ∃ m', writeMemDataEx (fun _ => 0#8) 0x1000#64 0x2000#64 1#64 0#64 = some m' ∧
      m' 0x1001#64 = 0#8 ∧
      calcCrc32 (Function.update m' 0x1001#64 1#8) 0x1000#64 0x2000#64 1#64 =
        calcCrc32 m' 0x1000#64 0x2000#64 1#64 := by
  obtain ⟨m', hm'⟩ := (pageWindows.writeMemDataEx_isSome_iff (fun _ => 0#8) 0#64).mpr (by decide)
  have hzero : (writeMemDataEx (fun _ => 0#8) 0x1000#64 0x2000#64 1#64 0#64).map (· 0x1001#64) =
      some 0#8 := by decide +kernel
  rw [hm', Option.map_some, Option.some.injEq] at hzero
  have haddr : pageWindows.byte 0 1 = 0x1001#64 := by decide
  have hiff := pageWindows.calcCrc32_update_ne_iff m' 0 (by decide : 1 < 4 * (1#64).toNat)
    (v := 1#8) (by rw [haddr, hzero]; decide)
  rw [haddr] at hiff
  exact ⟨m', hm', hzero, not_not.mp fun hne => absurd (hiff.mp hne) (by decide)⟩

theorem crc_sees_first_byte :
    ∃ m' crc32, writeMemDataEx (fun _ => 0#8) 0x1000#64 0x2000#64 1#64 0#64 = some m' ∧
      calcCrc32 m' 0x1000#64 0x2000#64 1#64 = some crc32 ∧
      ∀ v, v ≠ m' 0x1000#64 →
        ∃ crc32', calcCrc32 (Function.update m' 0x1000#64 v) 0x1000#64 0x2000#64 1#64 =
          some crc32' ∧
          crc32' ≠ crc32 := by
  have haddr : pageWindows.byte 0 0 = 0x1000#64 := by decide
  have hsees := (crc_sees_change_iff 0x1000#64 0x2000#64 1#64 0#64 pageWindows
    (fun _ => 0#8) 0 0 (by decide)).mpr ⟨by decide, by decide⟩
  rwa [haddr] at hsees

end AcrnGuest
