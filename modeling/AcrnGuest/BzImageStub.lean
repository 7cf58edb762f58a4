import AcrnGuest.AllocPage
import AcrnGuest.ByteCopy
import AcrnGuest.BzImage

/-!
# The boot stub (`x86/bzimage_stub.S`)

The stub is entered at the fourth sector of the file that the packer made, with the zero
page in `%esi`. It notes the end of the first RAM region in the multiboot information
below 4 MiB, copies its second half to address 0 and jumps there; that half moves the
binary to 4 MiB, from the far end when the file overlaps it. The stub is modelled up to the
end of this copy, without the conditional parts that save start-up registers. The writes
to the UART touch no memory.
-/

namespace AcrnGuest.BootStub

open ByteCopy

def MEM_1K : BitVec 32 := 0x400#32
def MEM_4K : BitVec 32 := 4#32 * MEM_1K
def MEM_1M : BitVec 32 := 1024#32 * MEM_1K
def SECTOR_SIZE : BitVec 32 := MEM_1K / 2#32

def ZEROPAGE_SETUP_SECTS : BitVec 32 := 0x1f1#32
def ZEROPAGE_E820_TABLE : BitVec 32 := 0x2d0#32
def ZEROPAGE_IMAGE_SIZE : BitVec 32 := 0x7fc#32
def ZEROPAGE_BINARY_BASE : BitVec 32 := 4#32 * SECTOR_SIZE

def MBI_MEM_LOWER : BitVec 32 := 0x4#32
def UNIT_TEST_LOAD_ADDRESS : BitVec 32 := 4#32 * MEM_1M
def MBI_ADDRESS : BitVec 32 := UNIT_TEST_LOAD_ADDRESS - MEM_4K

def UART_BASE : BitVec 16 := 0x3f8#16
def UART_MCR : BitVec 16 := 0x04#16

/-! ## 1. The machine -/

abbrev ByteMem := BitVec 32 → BitVec 8

def read32 (mem : ByteMem) (a : BitVec 32) : BitVec 32 :=
  mem (a + 3#32) ++ mem (a + 2#32) ++ mem (a + 1#32) ++ mem a

def write32 (mem : ByteMem) (a v : BitVec 32) : ByteMem := fun b =>
  if (b - a).toNat < 4 then v.extractLsb' (8 * (b - a).toNat) 8 else mem b

/-- The registers that the stub uses, the direction flag and the memory. -/
structure Cpu where
  eax : BitVec 32
  ecx : BitVec 32
  edx : BitVec 32
  ebp : BitVec 32
  esi : BitVec 32
  edi : BitVec 32
  esp : BitVec 32
  df : Bool
  mem : ByteMem

namespace Cpu

def push (c : Cpu) (v : BitVec 32) : Cpu :=
  { c with esp := c.esp - 4#32, mem := write32 c.mem (c.esp - 4#32) v }

def popEbp (c : Cpu) : Cpu := { c with ebp := read32 c.mem c.esp, esp := c.esp + 4#32 }

/-- How a string instruction moves its pointers. -/
def stride (c : Cpu) : BitVec 32 := if c.df then -1#32 else 1#32

def movsb (c : Cpu) : Cpu :=
  { c with
    mem := Function.update c.mem c.edi (c.mem c.esi)
    esi := c.esi + c.stride
    edi := c.edi + c.stride
    ecx := c.ecx - 1#32 }

def repMovsb (c : Cpu) : Cpu := Loop.up (fun _ c => c.movsb) c.ecx.toNat c

end Cpu

/-! ## 2. The stub -/

/-- The offsets of the labels in the assembled stub. The code up to the `call` takes more than
    the first eight bytes, and the stub leaves the last four bytes of its sector free. -/
structure Labels where
  /-- The label `1` behind the `call`. -/
  returnLabel : Nat
  trampolineStart : Nat
  trampolineEnd : Nat
  eight_le : 8 ≤ returnLabel
  returnLabel_lt : returnLabel < trampolineStart
  start_le_end : trampolineStart ≤ trampolineEnd
  end_le : trampolineEnd ≤ 508

theorem Labels.trampoline_le (labels : Labels) :
    8 < labels.trampolineStart ∧ labels.trampolineStart ≤ labels.trampolineEnd ∧
      labels.trampolineEnd ≤ 508 :=
  ⟨Nat.lt_of_le_of_lt labels.eight_le labels.returnLabel_lt, labels.start_le_end, labels.end_le⟩

def e820Loop (mem : ByteMem) (esi ecx : BitVec 32) : BitVec 32 ⊕ BitVec 32 :=
  let ecx := ecx + 16#32
  let eax := read32 mem (esi + ecx + ZEROPAGE_E820_TABLE)
  let ecx := ecx + 4#32
  if eax = 1#32 then .inr ecx else .inl ecx

def fillMemLower (c : Cpu) : Option Cpu := do
  let ecx ← Loop.run (e820Loop c.mem c.esi) LOOP_BOUND 0#32
  let ecx := ecx - 20#32
  let eax := read32 c.mem (c.esi + ecx + ZEROPAGE_E820_TABLE)
  let ecx := ecx + 8#32
  let eax := eax + read32 c.mem (c.esi + ecx + ZEROPAGE_E820_TABLE)
  let c := { c with esp := eax }
  let eax := eax >>> 10
  let ecx := MBI_ADDRESS
  return { c with eax, ecx, mem := write32 c.mem (ecx + MBI_MEM_LOWER) eax }

/-- What the initialisation of the UART leaves in `%al` and `%dx`. -/
def initUart (c : Cpu) : Cpu :=
  { c with
    eax := c.eax.extractLsb' 8 24 ++ 3#8
    edx := c.edx.extractLsb' 16 16 ++ (UART_BASE + UART_MCR) }

/-- The base of the stub, and the source, the destination and the size of the trampoline.
    `start` is the address of the stub. -/
def locateTrampoline (labels : Labels) (start : BitVec 32) (c : Cpu) : Cpu :=
  let c := { c with edx := c.esi }
  let c := c.push (start + BitVec.ofNat 32 labels.returnLabel)
  let c := c.popEbp
  let c := { c with ebp := c.ebp &&& ~~~(SECTOR_SIZE - 1#32) }
  let c := { c with esi := c.ebp }
  let c := { c with esi := c.esi + BitVec.ofNat 32 labels.trampolineStart }
  let c := { c with edi := 0#32 }
  { c with ecx := BitVec.ofNat 32 (labels.trampolineEnd - labels.trampolineStart) }

def copyTrampoline (labels : Labels) (start : BitVec 32) (c : Cpu) : Cpu :=
  let c := (locateTrampoline labels start c).repMovsb
  { c with eax := 0#32 }

/-- The jump to `%eax` reaches the trampoline: its code is there. -/
def AtTrampoline (labels : Labels) (relocator : List (BitVec 8)) (c : Cpu) : Prop :=
  ∀ i, i < labels.trampolineEnd - labels.trampolineStart →
    c.mem (c.eax + BitVec.ofNat 32 i) = relocator.getD (labels.trampolineStart + i) 0#8

instance (labels : Labels) (relocator : List (BitVec 8)) (c : Cpu) :
    Decidable (AtTrampoline labels relocator c) :=
  Nat.decidableBallLT _ _

/-- From `trampoline_start` on: the base of the file, the source, the destination and the size. -/
def locateImage (c : Cpu) : Cpu :=
  let c := { c with eax := read32 c.mem (c.edx + ZEROPAGE_SETUP_SECTS) }
  let c := { c with eax := c.eax + 1#32 }
  let c := { c with eax := c.eax <<< 9 }
  let c := { c with ebp := c.ebp - c.eax }
  let c := { c with esi := c.ebp + ZEROPAGE_BINARY_BASE }
  let c := { c with edi := UNIT_TEST_LOAD_ADDRESS }
  { c with ecx := read32 c.mem (c.ebp + ZEROPAGE_IMAGE_SIZE) }

/-- The choice of the direction. `jge` and `jl` compare signed. -/
def chooseDirection (c : Cpu) : Cpu :=
  let c := { c with df := false }
  if UNIT_TEST_LOAD_ADDRESS.sle c.esi then c
  else
    let c := { c with eax := c.esi }
    let c := { c with eax := c.eax + c.ecx }
    if c.eax.slt UNIT_TEST_LOAD_ADDRESS then c
    else
      let c := { c with esi := c.esi + c.ecx }
      let c := { c with esi := c.esi - 1#32 }
      let c := { c with edi := c.edi + c.ecx }
      let c := { c with edi := c.edi - 1#32 }
      { c with df := true }

def copyImage (c : Cpu) : Cpu :=
  let c := (chooseDirection (locateImage c)).repMovsb
  { c with df := false }

/-- The stub up to the end of the image copy. -/
def runStub (labels : Labels) (relocator : List (BitVec 8)) (start : BitVec 32) (c : Cpu) :
    Option Cpu := do
  let c ← fillMemLower c
  let c := copyTrampoline labels start (initUart c)
  if AtTrampoline labels relocator c then some (copyImage c) else none

/-! ## 3. Memory accesses -/

section Access

variable {mem : ByteMem} {a b v w : BitVec 32}

theorem read32_eq (h : ∀ k, k < 4 → mem (a + BitVec.ofNat 32 k) = w.extractLsb' (8 * k) 8) :
    read32 mem a = w := by
  have h0 : mem a = w.extractLsb' 0 8 := by
    have := h 0 (by decide)
    rwa [BitVec.add_zero] at this
  rw [read32, h0, h 1 (by decide), h 2 (by decide), h 3 (by decide)]
  exact append_bytes w

theorem read32_congr {mem' : ByteMem}
    (h : ∀ k, k < 4 → mem (a + BitVec.ofNat 32 k) = mem' (a + BitVec.ofNat 32 k)) :
    read32 mem a = read32 mem' a := by
  have h0 := h 0 (by decide)
  rw [BitVec.add_zero] at h0
  rw [read32, read32, h0, h 1 (by decide), h 2 (by decide), h 3 (by decide)]

theorem write32_self {k : Nat} (hk : k < 4) :
    write32 mem a v (a + BitVec.ofNat 32 k) = v.extractLsb' (8 * k) 8 := by
  have hoffset : (a + BitVec.ofNat 32 k - a).toNat = k := by
    rw [BitVec.toNat_sub, BitVec.toNat_add, BitVec.toNat_ofNat]
    omega
  rw [write32, hoffset, if_pos hk]

theorem read32_write32 : read32 (write32 mem a v) a = v :=
  read32_eq fun _ hk => write32_self hk

theorem write32_of_outside (ha : a.toNat + 4 ≤ 2 ^ 32)
    (h : b.toNat < a.toNat ∨ a.toNat + 4 ≤ b.toNat) : write32 mem a v b = mem b := by
  have hoffset : ¬ (b - a).toNat < 4 := by
    rw [BitVec.toNat_sub]
    omega
  rw [write32, if_neg hoffset]

end Access

/-! ## 4. `rep movsb` -/

/-- The cell that a string instruction with its pointer at `p` reaches after `k` passes. -/
def cell (c : Cpu) (p : BitVec 32) (k : Nat) : BitVec 32 := p + BitVec.ofNat 32 k * c.stride

section RepMovsb

variable {c : Cpu}

theorem cell_succ (p : BitVec 32) (k : Nat) : cell c p (k + 1) = cell c p k + c.stride := by
  rw [cell, cell, BitVec.ofNat_add, BitVec.add_mul, BitVec.add_assoc]
  congr 2
  exact BitVec.one_mul c.stride

theorem up_movsb (k : Nat) :
    Loop.up (fun _ c => c.movsb) k c = { c with
      mem := copyCells (cell c c.esi) (cell c c.edi) k c.mem
      esi := cell c c.esi k
      edi := cell c c.edi k
      ecx := c.ecx - BitVec.ofNat 32 k } := by
  induction k with
  | zero => simp [Loop.up, cell, copyCells]
  | succ k ih =>
      rw [Loop.up, ih, cell_succ, cell_succ, copyCells_succ, BitVec.ofNat_add, ← BitVec.sub_sub]
      rfl

theorem repMovsb_eq :
    c.repMovsb = { c with
      mem := copyCells (cell c c.esi) (cell c c.edi) c.ecx.toNat c.mem
      esi := cell c c.esi c.ecx.toNat
      edi := cell c c.edi c.ecx.toNat
      ecx := c.ecx - BitVec.ofNat 32 c.ecx.toNat } :=
  up_movsb c.ecx.toNat

theorem cell_forward (hdf : c.df = false) (p : BitVec 32) (k : Nat) :
    cell c p k = p + BitVec.ofNat 32 k := by
  rw [cell, Cpu.stride, hdf, if_neg Bool.false_ne_true, BitVec.mul_one]

theorem cell_backward (hdf : c.df = true) (p : BitVec 32) (k : Nat) :
    cell c p k = p - BitVec.ofNat 32 k := by
  rw [cell, Cpu.stride, hdf, if_pos rfl, BitVec.mul_neg, BitVec.mul_one, BitVec.sub_eq_add_neg]

theorem toNat_cell_forward (hdf : c.df = false) {p : BitVec 32} {k : Nat}
    (h : p.toNat + k < 2 ^ 32) : (cell c p k).toNat = p.toNat + k := by
  rw [cell_forward hdf, BitVec.toNat_add, BitVec.toNat_ofNat]
  omega

theorem toNat_cell_backward (hdf : c.df = true) {p : BitVec 32} {k : Nat} (h : k ≤ p.toNat) :
    (cell c p k).toNat = p.toNat - k := by
  rw [cell_backward hdf, BitVec.toNat_sub, BitVec.toNat_ofNat]
  omega

section Moved

variable {src dst n : Nat} (hecx : c.ecx.toNat = n)

include hecx

/-- If pass `k` moves byte `p k` to `q k`, and no byte is overwritten before it is read. -/
theorem repMovsb_moves {p q : Nat → Nat} (hread : ∀ k, k < n → (cell c c.esi k).toNat = p k)
    (hwrite : ∀ k, k < n → (cell c c.edi k).toNat = q k)
    (hne : ∀ j k, j < k → k < n → p k ≠ q j ∧ q k ≠ q j) {k : Nat} (hk : k < n) :
    c.repMovsb.mem (BitVec.ofNat 32 (q k)) = c.mem (BitVec.ofNat 32 (p k)) := by
  rw [← hread k hk, ← hwrite k hk, BitVec.ofNat_toNat, BitVec.ofNat_toNat, BitVec.setWidth_eq,
    BitVec.setWidth_eq, repMovsb_eq, hecx]
  refine copyCells_dst (fun i j hij hj h => ?_) (fun i j hij hj h => ?_) hk
  · apply (hne i j hij hj).1
    rw [← hread j hj, h, hwrite i (Nat.lt_trans hij hj)]
  · apply (hne i j hij hj).2
    rw [← hwrite j hj, h, hwrite i (Nat.lt_trans hij hj)]

/-- A copy upwards is right if the source does not start below an overlapping destination. -/
theorem repMovsb_forward (hdf : c.df = false) (hsrc : c.esi.toNat = src) (hdst : c.edi.toNat = dst)
    (hsrcEnd : src + n ≤ 2 ^ 32) (hdstEnd : dst + n ≤ 2 ^ 32)
    (hoverlap : dst ≤ src ∨ src + n ≤ dst) {i : Nat} (hi : i < n) :
    c.repMovsb.mem (BitVec.ofNat 32 (dst + i)) = c.mem (BitVec.ofNat 32 (src + i)) := by
  refine repMovsb_moves (p := (src + ·)) (q := (dst + ·)) hecx (fun k hk => ?_) (fun k hk => ?_)
    (fun j k hjk hk => by omega) hi
  · rw [toNat_cell_forward hdf (by omega), hsrc]
  · rw [toNat_cell_forward hdf (by omega), hdst]

/-- A copy downwards is right if the source does not end above an overlapping destination. -/
theorem repMovsb_backward (hdf : c.df = true) (hsrc : c.esi.toNat + 1 = src + n)
    (hdst : c.edi.toNat + 1 = dst + n) (hoverlap : src ≤ dst) {i : Nat} (hi : i < n) :
    c.repMovsb.mem (BitVec.ofNat 32 (dst + i)) = c.mem (BitVec.ofNat 32 (src + i)) := by
  -- byte `i` is moved in the pass that is as far from the last one
  have hmoved := repMovsb_moves (p := fun k => src + (n - 1 - k)) (q := fun k => dst + (n - 1 - k))
    (k := n - 1 - i) hecx (fun k hk => ?_) (fun k hk => ?_) (fun j k hjk hk => by omega) (by omega)
  · have hpass : n - 1 - (n - 1 - i) = i := by omega
    rwa [hpass] at hmoved
  · rw [toNat_cell_backward hdf (by omega)]
    omega
  · rw [toNat_cell_backward hdf (by omega)]
    omega

theorem repMovsb_outside (hdf : c.df = false) (hdst : c.edi.toNat = dst) (hend : dst + n ≤ 2 ^ 32)
    {a : BitVec 32} (ha : a.toNat < dst ∨ dst + n ≤ a.toNat) : c.repMovsb.mem a = c.mem a := by
  rw [repMovsb_eq, hecx]
  refine copyCells_of_ne fun k hk hne => ?_
  have := congrArg BitVec.toNat hne
  rw [toNat_cell_forward hdf (by omega)] at this
  omega

end Moved

end RepMovsb

/-! ## 5. The first RAM region -/

section E820

variable (mem : ByteMem) (zeroPage : BitVec 32)

/-- The double word at `offset` in entry `j` of the table. -/
def e820Field (j offset : Nat) : BitVec 32 :=
  read32 mem (zeroPage + BitVec.ofNat 32 (20 * j + offset) + ZEROPAGE_E820_TABLE)

/-- The first of the 128 entries of type RAM. -/
def firstRam : Option Nat := (List.range 128).find? fun j => e820Field mem zeroPage j 16 = 1#32

/-- The end of the first RAM region, the initial stack pointer of the stub. -/
def stackTop : BitVec 32 :=
  let j := (firstRam mem zeroPage).getD 0
  e820Field mem zeroPage j 0 + e820Field mem zeroPage j 8

variable {mem zeroPage}

theorem firstRam_spec (h : ∃ j, j < 128 ∧ e820Field mem zeroPage j 16 = 1#32) :
    ∃ j, firstRam mem zeroPage = some j ∧ j < 128 ∧ e820Field mem zeroPage j 16 = 1#32 ∧
      ∀ i, i < j → e820Field mem zeroPage i 16 ≠ 1#32 := by
  cases hfind : firstRam mem zeroPage with
  | none =>
      obtain ⟨j, hj, hram⟩ := h
      have := List.find?_eq_none.mp hfind j (List.mem_range.mpr hj)
      exact absurd (decide_eq_true hram) this
  | some j =>
      obtain ⟨hram, hj, hbefore⟩ := List.find?_range_eq_some.mp hfind
      refine ⟨j, rfl, List.mem_range.mp hj, of_decide_eq_true hram, fun i hi => ?_⟩
      exact of_decide_eq_false (Bool.not_eq_true' _ ▸ hbefore i hi)

theorem e820Loop_eq (i : Nat) :
    e820Loop mem zeroPage (BitVec.ofNat 32 (20 * i)) =
      if e820Field mem zeroPage i 16 = 1#32 then .inr (BitVec.ofNat 32 (20 * (i + 1)))
      else .inl (BitVec.ofNat 32 (20 * (i + 1))) := by
  have h16 : BitVec.ofNat 32 (20 * i) + 16#32 = BitVec.ofNat 32 (20 * i + 16) :=
    (BitVec.ofNat_add ..).symm
  have h20 : BitVec.ofNat 32 (20 * i + 16) + 4#32 = BitVec.ofNat 32 (20 * (i + 1)) :=
    (BitVec.ofNat_add ..).symm
  rw [e820Loop, h16, h20]
  rfl

/-- From an entry that is not behind it, the loop runs to the first entry of type RAM. -/
theorem run_e820Loop {j : Nat} (hram : e820Field mem zeroPage j 16 = 1#32)
    (hbefore : ∀ i, i < j → e820Field mem zeroPage i 16 ≠ 1#32) {i bound : Nat} (hi : i ≤ j)
    (hbound : j - i < bound) :
    Loop.run (e820Loop mem zeroPage) bound (BitVec.ofNat 32 (20 * i))
      = some (BitVec.ofNat 32 (20 * (j + 1))) := by
  induction bound generalizing i with
  | zero => omega
  | succ bound ih =>
      rcases Nat.lt_or_eq_of_le hi with hlt | rfl
      · have hpass := @e820Loop_eq mem zeroPage i
        rw [if_neg (hbefore i hlt)] at hpass
        rw [Loop.run_succ_inl hpass]
        exact ih hlt (by omega)
      · refine Loop.run_succ_inr ?_ bound
        rw [e820Loop_eq, if_pos hram]

theorem fillMemLower_eq {c : Cpu} (h : ∃ j, j < 128 ∧ e820Field c.mem c.esi j 16 = 1#32) :
    fillMemLower c = some { c with
      eax := stackTop c.mem c.esi >>> 10
      ecx := MBI_ADDRESS
      esp := stackTop c.mem c.esi
      mem := write32 c.mem (MBI_ADDRESS + MBI_MEM_LOWER) (stackTop c.mem c.esi >>> 10) } := by
  obtain ⟨j, hfirst, hj, hram, hbefore⟩ := firstRam_spec h
  have haddr : BitVec.ofNat 32 (20 * (j + 1)) - 20#32 = BitVec.ofNat 32 (20 * j + 0) := by
    rw [Nat.mul_succ, BitVec.ofNat_add, BitVec.add_sub_cancel, Nat.add_zero]
  have hlength : BitVec.ofNat 32 (20 * j + 0) + 8#32 = BitVec.ofNat 32 (20 * j + 8) :=
    (BitVec.ofNat_add ..).symm
  have htop : stackTop c.mem c.esi = e820Field c.mem c.esi j 0 + e820Field c.mem c.esi j 8 := by
    rw [stackTop, hfirst]
    rfl
  have hrun : Loop.run (e820Loop c.mem c.esi) LOOP_BOUND 0#32
      = some (BitVec.ofNat 32 (20 * (j + 1))) :=
    run_e820Loop hram hbefore (Nat.zero_le j) (by unfold LOOP_BOUND; omega)
  rw [fillMemLower, hrun, htop]
  dsimp only [Option.bind_eq_bind, Option.bind_some]
  rw [haddr, hlength]
  rfl

end E820

/-! ## 6. The trampoline -/

theorem toNat_and_sector (a : BitVec 32) :
    (a &&& ~~~(SECTOR_SIZE - 1#32)).toNat = a.toNat / 512 * 512 := by
  have hmask : ∀ i, i < 32 → (~~~(SECTOR_SIZE - 1#32)).getLsbD i = decide (9 ≤ i) := by decide
  have hshift : a &&& ~~~(SECTOR_SIZE - 1#32) = a >>> 9 <<< 9 := by
    refine BitVec.eq_of_getLsbD_eq fun i hi => ?_
    rw [BitVec.getLsbD_and, hmask i hi, BitVec.getLsbD_shiftLeft, BitVec.getLsbD_ushiftRight]
    by_cases h9 : 9 ≤ i
    · simp [hi, h9, Nat.not_lt.mpr h9]
    · simp [h9, Nat.lt_of_not_le h9]
  have hlt := a.isLt
  rw [hshift, BitVec.toNat_shiftLeft, BitVec.toNat_ushiftRight, Nat.shiftRight_eq_div_pow,
    Nat.shiftLeft_eq]
  omega

section Trampoline

variable {labels : Labels} {start : BitVec 32} {c : Cpu}

/-- Sector aligned, the base is found from any address in the stub. -/
theorem and_sector_of_aligned (haligned : start.toNat % 512 = 0)
    {k : Nat} (hk : k < 512) : (start + BitVec.ofNat 32 k) &&& ~~~(SECTOR_SIZE - 1#32) = start := by
  refine BitVec.eq_of_toNat_eq ?_
  rw [toNat_and_sector, BitVec.toNat_add, BitVec.toNat_ofNat]
  omega

theorem locateTrampoline_eq (haligned : start.toNat % 512 = 0) :
    locateTrampoline labels start c = { c with
      edx := c.esi
      ebp := start
      esi := start + BitVec.ofNat 32 labels.trampolineStart
      edi := 0#32
      ecx := BitVec.ofNat 32 (labels.trampolineEnd - labels.trampolineStart)
      esp := c.esp - 4#32 + 4#32
      mem := write32 c.mem (c.esp - 4#32) (start + BitVec.ofNat 32 labels.returnLabel) } := by
  have hlabel : labels.returnLabel < 512 := by
    have := labels.returnLabel_lt
    have := labels.trampoline_le
    omega
  rw [locateTrampoline]
  dsimp only [Cpu.push, Cpu.popEbp]
  rw [read32_write32, and_sector_of_aligned haligned hlabel]

section Copied

variable (hdf : c.df = false) (haligned : start.toNat % 512 = 0) (hesp : 4 ≤ c.esp.toNat)

include haligned in
theorem copyTrampoline_registers :
    (copyTrampoline labels start c).edx = c.esi ∧
    (copyTrampoline labels start c).ebp = start ∧
    (copyTrampoline labels start c).eax = 0#32 := by
  rw [copyTrampoline, repMovsb_eq, locateTrampoline_eq haligned]
  exact ⟨rfl, rfl, rfl⟩

variable (labels) in
include hdf haligned in
theorem locateTrampoline_fields :
    (locateTrampoline labels start c).ecx.toNat
      = labels.trampolineEnd - labels.trampolineStart ∧
    (locateTrampoline labels start c).df = false ∧
    (locateTrampoline labels start c).esi.toNat
      = (start + BitVec.ofNat 32 labels.trampolineStart).toNat ∧
    (locateTrampoline labels start c).edi.toNat = 0 ∧
    (locateTrampoline labels start c).mem
      = write32 c.mem (c.esp - 4#32) (start + BitVec.ofNat 32 labels.returnLabel) := by
  have hlabels := labels.trampoline_le
  rw [locateTrampoline_eq haligned]
  refine ⟨?_, hdf, rfl, rfl, rfl⟩
  rw [BitVec.toNat_ofNat]
  omega

include hesp in
theorem push_outside {v a : BitVec 32}
    (ha : a.toNat < c.esp.toNat - 4 ∨ c.esp.toNat ≤ a.toNat) :
    write32 c.mem (c.esp - 4#32) v a = c.mem a := by
  have hslot : (c.esp - 4#32).toNat = c.esp.toNat - 4 := by
    rw [BitVec.toNat_sub, BitVec.toNat_ofNat]
    omega
  have := c.esp.isLt
  refine write32_of_outside ?_ ?_ <;> rw [hslot] <;> omega

include hdf haligned hesp

/-- The trampoline is at address 0, if the stack is not in its source. -/
theorem copyTrampoline_copied {i : Nat}
    (hi : i < labels.trampolineEnd - labels.trampolineStart)
    (hstack : start.toNat + 512 ≤ c.esp.toNat - 4 ∨ c.esp.toNat ≤ start.toNat) :
    (copyTrampoline labels start c).mem (BitVec.ofNat 32 i)
      = c.mem (BitVec.ofNat 32 (start.toNat + (labels.trampolineStart + i))) := by
  have hlabels := labels.trampoline_le
  have hsource : (start + BitVec.ofNat 32 labels.trampolineStart).toNat
      = start.toNat + labels.trampolineStart := by
    rw [BitVec.toNat_add, BitVec.toNat_ofNat]
    omega
  obtain ⟨hecx, hflag, hesi, hedi, hmem⟩ := locateTrampoline_fields labels hdf haligned
  have hcopied := repMovsb_forward hecx hflag (hesi.trans hsource) hedi (by omega) (by omega)
    (.inl (Nat.zero_le _)) hi
  rw [Nat.zero_add, Nat.add_assoc] at hcopied
  rw [copyTrampoline, hcopied, hmem]
  refine push_outside hesp ?_
  rw [BitVec.toNat_ofNat]
  omega

omit hesp in
theorem copyTrampoline_above {a : BitVec 32}
    (ha : labels.trampolineEnd - labels.trampolineStart ≤ a.toNat) :
    (copyTrampoline labels start c).mem a
      = write32 c.mem (c.esp - 4#32) (start + BitVec.ofNat 32 labels.returnLabel) a := by
  have hlabels := labels.trampoline_le
  obtain ⟨hecx, hflag, -, hedi, hmem⟩ := locateTrampoline_fields labels hdf haligned
  have hkept := repMovsb_outside (a := a) hecx hflag hedi (by omega) (by omega)
  rw [copyTrampoline, hkept, hmem]

/-- Nothing but the first page and the stack has changed. -/
theorem copyTrampoline_outside {a : BitVec 32} (ha : 508 ≤ a.toNat)
    (hstack : a.toNat < c.esp.toNat - 4 ∨ c.esp.toNat ≤ a.toNat) :
    (copyTrampoline labels start c).mem a = c.mem a := by
  have hlabels := labels.trampoline_le
  rw [copyTrampoline_above hdf haligned (by omega)]
  exact push_outside hesp hstack

end Copied

end Trampoline

/-! ## 7. The image -/

/-- The shift leaves the low 23 bits of the number of setup sectors. -/
theorem succ_shiftLeft_of_extract {d : BitVec 32} (h : d.extractLsb' 0 23 = 2#23) :
    (d + 1#32) <<< 9 = 0x600#32 := by
  have hlow : d.toNat % 2 ^ 23 = 2 := by
    have hbits := congrArg BitVec.toNat h
    rwa [BitVec.extractLsb'_toNat, Nat.shiftRight_zero] at hbits
  apply BitVec.eq_of_toNat_eq
  rw [BitVec.toNat_shiftLeft, BitVec.toNat_add, Nat.shiftLeft_eq]
  change (d.toNat + 1) % 2 ^ 32 * 2 ^ 9 % 2 ^ 32 = 0x600
  omega

/-- With two setup sectors the stub finds the file that it is in. -/
theorem locateImage_registers {c : Cpu} {base size : Nat}
    (hsects : (read32 c.mem (c.edx + ZEROPAGE_SETUP_SECTS)).extractLsb' 0 23 = 2#23)
    (hebp : c.ebp = BitVec.ofNat 32 (base + 0x600))
    (hsize : read32 c.mem (BitVec.ofNat 32 (base + 0x7fc)) = BitVec.ofNat 32 size) :
    (locateImage c).esi = BitVec.ofNat 32 (base + 0x800) ∧
    (locateImage c).edi = UNIT_TEST_LOAD_ADDRESS ∧
    (locateImage c).ecx = BitVec.ofNat 32 size := by
  have hbase : c.ebp - (read32 c.mem (c.edx + ZEROPAGE_SETUP_SECTS) + 1#32) <<< 9
      = BitVec.ofNat 32 base := by
    rw [succ_shiftLeft_of_extract hsects, hebp, BitVec.ofNat_add, BitVec.add_sub_cancel]
  rw [locateImage]
  dsimp only
  rw [hbase]
  refine ⟨?_, rfl, ?_⟩
  · rw [BitVec.ofNat_add]
    rfl
  · rw [← hsize, BitVec.ofNat_add]
    rfl

theorem locateImage_mem (c : Cpu) : (locateImage c).mem = c.mem := by
  simp only [locateImage]

theorem sle_iff {a b : BitVec 32} (ha : a.toNat < 2 ^ 31) (hb : b.toNat < 2 ^ 31) :
    a.sle b = true ↔ a.toNat ≤ b.toNat := by
  rw [BitVec.sle_iff_toInt_le, BitVec.toInt_eq_toNat_of_lt (by omega),
    BitVec.toInt_eq_toNat_of_lt (by omega)]
  omega

theorem slt_iff {a b : BitVec 32} (ha : a.toNat < 2 ^ 31) (hb : b.toNat < 2 ^ 31) :
    a.slt b = true ↔ a.toNat < b.toNat := by
  rw [BitVec.slt_iff_toInt_lt, BitVec.toInt_eq_toNat_of_lt (by omega),
    BitVec.toInt_eq_toNat_of_lt (by omega)]
  omega

/-- The move to 4 MiB is right whether or not source and destination overlap. -/
theorem chooseDirection_moves {c : Cpu} {src size : Nat} (hesi : c.esi = BitVec.ofNat 32 src)
    (hedi : c.edi = UNIT_TEST_LOAD_ADDRESS) (hecx : c.ecx = BitVec.ofNat 32 size)
    (hsize : size < 2 ^ 30) (hsrc : src + size ≤ 2 ^ 31) {i : Nat} (hi : i < size) :
    (chooseDirection c).repMovsb.mem (BitVec.ofNat 32 (2 ^ 22 + i))
      = c.mem (BitVec.ofNat 32 (src + i)) := by
  have hload : UNIT_TEST_LOAD_ADDRESS.toNat = 2 ^ 22 := by decide
  have hesiNat : c.esi.toNat = src := by
    rw [hesi, BitVec.toNat_ofNat]
    omega
  have hecxNat : c.ecx.toNat = size := by
    rw [hecx, BitVec.toNat_ofNat]
    omega
  have hediNat : c.edi.toNat = 2 ^ 22 := by rw [hedi, hload]
  have hsum : (c.esi + c.ecx).toNat = src + size := by
    rw [BitVec.toNat_add, hesiNat, hecxNat]
    omega
  rw [chooseDirection]
  dsimp only
  split
  · next hge =>
      -- the source starts at 4 MiB or above
      rw [sle_iff (by omega) (by omega)] at hge
      exact repMovsb_forward (c := { c with df := false }) hecxNat rfl hesiNat hediNat (by omega)
        (by omega) (by omega) hi
  · next hge =>
      rw [sle_iff (by omega) (by omega)] at hge
      split
      · next hlt =>
          -- the source ends below 4 MiB
          rw [slt_iff (by omega) (by omega)] at hlt
          exact repMovsb_forward
            (c := { c with eax := c.esi + c.ecx, df := false }) hecxNat rfl hesiNat
            hediNat (by omega) (by omega) (by omega) hi
      · next hlt =>
          have hsrcEnd : (c.esi + c.ecx - 1#32).toNat = src + size - 1 := by
            rw [BitVec.toNat_sub, hsum, BitVec.toNat_ofNat]
            omega
          have hdstEnd : (c.edi + c.ecx - 1#32).toNat = 2 ^ 22 + size - 1 := by
            rw [BitVec.toNat_sub, BitVec.toNat_add, hediNat, hecxNat, BitVec.toNat_ofNat]
            omega
          -- the source straddles 4 MiB
          exact repMovsb_backward (c := { c with
            eax := c.esi + c.ecx, esi := c.esi + c.ecx - 1#32, edi := c.edi + c.ecx - 1#32
            df := true })
            hecxNat rfl (by dsimp only; omega) (by dsimp only; omega) (by omega) hi

/-- The memory after a block of `size` bytes was moved to 4 MiB, from its last byte on if it
    starts below 4 MiB and does not end there. -/
def movedImage (mem : ByteMem) (src size : BitVec 32) : ByteMem :=
  if UNIT_TEST_LOAD_ADDRESS.sle src ∨ (src + size).slt UNIT_TEST_LOAD_ADDRESS then
    copyCells (fun k => src + BitVec.ofNat 32 k)
      (fun k => UNIT_TEST_LOAD_ADDRESS + BitVec.ofNat 32 k) size.toNat mem
  else
    copyCells (fun k => src + size - 1#32 - BitVec.ofNat 32 k)
      (fun k => UNIT_TEST_LOAD_ADDRESS + size - 1#32 - BitVec.ofNat 32 k) size.toNat mem

theorem chooseDirection_repMovsb {c : Cpu} (hedi : c.edi = UNIT_TEST_LOAD_ADDRESS) :
    (chooseDirection c).repMovsb.mem = movedImage c.mem c.esi c.ecx := by
  rw [repMovsb_eq, chooseDirection, movedImage, ← hedi]
  dsimp only
  by_cases hge : c.edi.sle c.esi
  · rw [if_pos hge, if_pos (Or.inl hge)]
    exact copyCells_congr (fun k _ => cell_forward rfl _ k) fun k _ => cell_forward rfl _ k
  · rw [if_neg hge]
    by_cases hlt : (c.esi + c.ecx).slt c.edi
    · rw [if_pos hlt, if_pos (Or.inr hlt)]
      exact copyCells_congr (fun k _ => cell_forward rfl _ k) fun k _ => cell_forward rfl _ k
    · rw [if_neg hlt, if_neg (not_or.mpr ⟨hge, hlt⟩)]
      exact copyCells_congr (fun k _ => cell_backward rfl _ k) fun k _ => cell_backward rfl _ k

end AcrnGuest.BootStub
