import AcrnGuest.BzImageStub

/-!
# The boot stub undoes the packer

The file of the packer is somewhere in memory and the stub is entered. The jump to address 0
reaches the trampoline, the trampoline finds the file again, and the binary is moved to 4 MiB.
The multiboot information is written before the image is moved. So the binary arrives intact
exactly if none of its bytes lies, with another value, where `mem_lower` is stored.
-/

namespace AcrnGuest.BootStub

/-! ## 1. The placement of the file -/

/-- The ranges of `len` bytes from `lo` and of `len'` bytes from `lo'` have no byte in common. -/
def Apart (lo len lo' len' : Nat) : Prop := lo + len ≤ lo' ∨ lo' + len' ≤ lo

/-- A range that is outside the file, the destination of the image and page 0. -/
structure OutsideImage (file : List (BitVec 8)) (base size lo len : Nat) : Prop where
  file : Apart lo len base file.length
  destination : Apart lo len (2 ^ 22) size
  page0 : Apart lo len 0 4096

/-- The stub is entered, with `%esi` at the zero page, for a file at `base` with a binary of `size`
    bytes. -/
structure Placed (file : List (BitVec 8)) (base size : Nat) (c : Cpu) : Prop where
  aligned : base % 512 = 0
  mib_le : 2 ^ 20 ≤ base
  file_below : base + file.length ≤ 2 ^ 31
  zeroPage_below : c.esi.toNat + 4096 ≤ 2 ^ 31
  stack_below : 4 ≤ (stackTop c.mem c.esi).toNat ∧ (stackTop c.mem c.esi).toNat ≤ 2 ^ 31
  loaded : ∀ i, i < file.length → c.mem (BitVec.ofNat 32 (base + i)) = file.getD i 0#8
  header : ∀ i, 0x1f1 ≤ i → i < 0x268 → c.mem (c.esi + BitVec.ofNat 32 i) = file.getD i 0#8
  ram : ∃ j, j < 128 ∧ e820Field c.mem c.esi j 16 = 1#32
  zeroPage_outside : OutsideImage file base size c.esi.toNat 4096
  stack_outside : OutsideImage file base size ((stackTop c.mem c.esi).toNat - 4) 4

def memLower (c : Cpu) : BitVec 32 := stackTop c.mem c.esi >>> 10

theorem write32_memLower_outside {mem : ByteMem} {v a : BitVec 32}
    (h : a.toNat < 0x3ff004 ∨ 0x3ff008 ≤ a.toNat) :
    write32 mem (MBI_ADDRESS + MBI_MEM_LOWER) v a = mem a := by
  have haddr : (MBI_ADDRESS + MBI_MEM_LOWER).toNat = 0x3ff004 := by decide
  refine write32_of_outside ?_ ?_ <;> rw [haddr] <;> omega

/-! ## 2. The run of the stub -/

section Undo

variable {labels : Labels} {binary relocator file : List (BitVec 8)}
  {entryOffset : Int} {base : Nat} {c : Cpu}

def lowerMem (c : Cpu) : ByteMem := write32 c.mem (MBI_ADDRESS + MBI_MEM_LOWER) (memLower c)

/-- The memory at the jump to the trampoline: the return address of the `call` is stored too, and
    the trampoline is at address 0. -/
def jumpMem (labels : Labels) (relocator : List (BitVec 8)) (base : Nat) (c : Cpu) : ByteMem :=
  fun a =>
    if a.toNat < labels.trampolineEnd - labels.trampolineStart then
      relocator.getD (labels.trampolineStart + a.toNat) 0#8
    else
      write32 (lowerMem c) (stackTop c.mem c.esi - 4#32)
        (BitVec.ofNat 32 (base + 0x600) + BitVec.ofNat 32 labels.returnLabel) a

/-- The number of setup sectors that the trampoline finds in the zero page. Either store may have
    hit it. -/
def setupSects (labels : Labels) (relocator : List (BitVec 8)) (base : Nat) (c : Cpu) :
    BitVec 32 :=
  read32 (jumpMem labels relocator base c) (c.esi + ZEROPAGE_SETUP_SECTS)

/-- The low 23 bits of that double word, which are all that counts, are still the packer's. -/
def SetupSectsKept (labels : Labels) (relocator : List (BitVec 8)) (base : Nat) (c : Cpu) : Prop :=
  (setupSects labels relocator base c).extractLsb' 0 23 = 2#23

/-- What the field makes the base of the file. -/
def namedBase (labels : Labels) (relocator : List (BitVec 8)) (base : Nat) (c : Cpu) : BitVec 32 :=
  BitVec.ofNat 32 (base + 0x600) - (setupSects labels relocator base c + 1#32) <<< 9

/-- The memory with the image of that base, whatever it is, moved to 4 MiB. -/
def namedImage (labels : Labels) (relocator : List (BitVec 8)) (base : Nat) (c : Cpu) : ByteMem :=
  let file := namedBase labels relocator base c
  let mem := jumpMem labels relocator base c
  movedImage mem (file + ZEROPAGE_BINARY_BASE) (read32 mem (file + ZEROPAGE_IMAGE_SIZE))

def atLower (c : Cpu) : Cpu :=
  initUart { c with
    eax := memLower c, ecx := MBI_ADDRESS, esp := stackTop c.mem c.esi, mem := lowerMem c }

def atJump (labels : Labels) (base : Nat) (c : Cpu) : Cpu :=
  copyTrampoline labels (BitVec.ofNat 32 (base + 0x600)) (atLower c)

variable (hfile : mkBzimage binary relocator entryOffset = some file)
  (hplaced : Placed file base binary.length c) (hdf : c.df = false)

include hfile hplaced

omit hfile in
theorem toNat_file {i : Nat} (hi : i < file.length) :
    (BitVec.ofNat 32 (base + i)).toNat = base + i := by
  have hbelow := hplaced.file_below
  rw [BitVec.toNat_ofNat]
  omega

theorem toNat_start : (BitVec.ofNat 32 (base + 0x600)).toNat = base + 0x600 := by
  have hlength := length_file hfile
  exact toNat_file hplaced (by omega)

theorem start_aligned : (BitVec.ofNat 32 (base + 0x600)).toNat % 512 = 0 := by
  have haligned := hplaced.aligned
  rw [toNat_start hfile hplaced]
  omega

include hdf

theorem atJump_mem {a : BitVec 32} (ha : 508 ≤ a.toNat)
    (hstack : a.toNat < (stackTop c.mem c.esi).toNat - 4 ∨ (stackTop c.mem c.esi).toNat ≤ a.toNat) :
    (atJump labels base c).mem a = lowerMem c a :=
  copyTrampoline_outside (c := atLower c) hdf (start_aligned hfile hplaced) hplaced.stack_below.1 ha
    hstack

theorem atJump_file {i : Nat} (hi : i < file.length) :
    (atJump labels base c).mem (BitVec.ofNat 32 (base + i))
      = lowerMem c (BitVec.ofNat 32 (base + i)) := by
  have hmib := hplaced.mib_le
  have hstack := hplaced.stack_outside.file
  have htop := hplaced.stack_below
  unfold Apart at hstack
  refine atJump_mem hfile hplaced hdf ?_ ?_ <;> rw [toNat_file hplaced hi] <;> omega

omit hfile hdf in
/-- A byte of the file that is not where `mem_lower` is stored is as the packer wrote it. -/
theorem lowerMem_file {i : Nat} (hi : i < file.length)
    (h : base + i < 0x3ff004 ∨ 0x3ff008 ≤ base + i) :
    lowerMem c (BitVec.ofNat 32 (base + i)) = file.getD i 0#8 := by
  rw [lowerMem, write32_memLower_outside (by rw [toNat_file hplaced hi]; exact h),
    hplaced.loaded i hi]

omit hfile hplaced hdf in
theorem lowerMem_under {a k : Nat} (hk : k < 4) (h : a = 0x3ff004 + k) :
    lowerMem c (BitVec.ofNat 32 a) = (memLower c).extractLsb' (8 * k) 8 := by
  have haddr : BitVec.ofNat 32 a = MBI_ADDRESS + MBI_MEM_LOWER + BitVec.ofNat 32 k := by
    rw [h, BitVec.ofNat_add]
    rfl
  rw [haddr]
  exact write32_self hk

theorem atJump_atTrampoline : AtTrampoline labels relocator (atJump labels base c) := by
  intro i hi
  have hlength := length_file hfile
  have haligned := hplaced.aligned
  have hlabels := labels.trampoline_le
  have hstack := hplaced.stack_outside.file
  have htop := hplaced.stack_below
  unfold Apart at hstack
  have heax : (atJump labels base c).eax = 0#32 :=
    (copyTrampoline_registers (start_aligned hfile hplaced)).2.2
  have hcopied : (atJump labels base c).mem (BitVec.ofNat 32 i) = _ :=
    copyTrampoline_copied (c := atLower c) hdf (start_aligned hfile hplaced) htop.1 hi (by
      rw [toNat_start hfile hplaced]
      dsimp only [atLower, initUart]
      omega)
  rw [heax, BitVec.zero_add, hcopied, toNat_start hfile hplaced, Nat.add_assoc]
  -- `mem_lower` is at offset 4 of a sector, the trampoline behind offset 8
  refine (lowerMem_file hplaced (by omega) (by omega)).trans ?_
  exact file_relocator hfile (by omega)

theorem atJump_eq_jumpMem : (atJump labels base c).mem = jumpMem labels relocator base c := by
  funext a
  rw [jumpMem]
  split_ifs with ha
  · have htrampoline : AtTrampoline labels relocator (atJump labels base c) :=
      atJump_atTrampoline hfile hplaced hdf
    have hreached := htrampoline _ ha
    have heax : (atJump labels base c).eax = 0#32 :=
      (copyTrampoline_registers (start_aligned hfile hplaced)).2.2
    rwa [heax, BitVec.zero_add, BitVec.ofNat_toNat, BitVec.setWidth_eq] at hreached
  · exact copyTrampoline_above (c := atLower c) hdf (start_aligned hfile hplaced) (by omega)

theorem locateImage_atJump (hkept : SetupSectsKept labels relocator base c) :
    (locateImage (atJump labels base c)).esi = BitVec.ofNat 32 (base + 0x800) ∧
    (locateImage (atJump labels base c)).edi = UNIT_TEST_LOAD_ADDRESS ∧
    (locateImage (atJump labels base c)).ecx = BitVec.ofNat 32 binary.length := by
  have hregisters := @copyTrampoline_registers labels _ (atLower c) (start_aligned hfile hplaced)
  refine locateImage_registers ?_ hregisters.2.1 (read32_eq fun k hk => ?_)
  · rw [atJump_eq_jumpMem hfile hplaced hdf, atJump, hregisters.1]
    exact hkept
  · have hlength := length_file hfile
    have haligned := hplaced.aligned
    rw [← BitVec.ofNat_add, Nat.add_assoc, atJump_file hfile hplaced hdf (by omega),
      lowerMem_file hplaced (by omega) (by omega), file_size hfile hk]

variable (labels) in
/-- The stub ends its copy, of the image that the zero page names. -/
theorem runStub_eq :
    ∃ c', runStub labels relocator (BitVec.ofNat 32 (base + 0x600)) c = some c' ∧
      c' = copyImage (atJump labels base c) ∧ c'.mem = namedImage labels relocator base c := by
  refine ⟨copyImage (atJump labels base c), ?_, rfl, ?_⟩
  · have hreached : AtTrampoline labels relocator (atJump labels base c) :=
      atJump_atTrampoline hfile hplaced hdf
    rw [runStub, fillMemLower_eq hplaced.ram]
    exact if_pos hreached
  · have hregisters := @copyTrampoline_registers labels _ (atLower c) (start_aligned hfile hplaced)
    have hedx : (atJump labels base c).edx = c.esi := hregisters.1
    have hebp : (atJump labels base c).ebp = BitVec.ofNat 32 (base + 0x600) := hregisters.2.1
    rw [copyImage]
    dsimp only
    rw [chooseDirection_repMovsb rfl, locateImage]
    dsimp only
    rw [hedx, hebp, atJump_eq_jumpMem hfile hplaced hdf]
    rfl

/-- With the field intact, 4 MiB holds what stood in the file once `mem_lower` was stored. -/
theorem copyImage_atJump (hsize : binary.length < 2 ^ 30)
    (hkept : SetupSectsKept labels relocator base c) {i : Nat} (hi : i < binary.length) :
    (copyImage (atJump labels base c)).mem (BitVec.ofNat 32 (2 ^ 22 + i))
      = lowerMem c (BitVec.ofNat 32 (base + (0x800 + i))) := by
  have hlength := length_file hfile
  have hbelow := hplaced.file_below
  obtain ⟨hesi, hedi, hecx⟩ := locateImage_atJump hfile hplaced hdf hkept
  rw [copyImage]
  dsimp only
  rw [chooseDirection_moves hesi hedi hecx hsize (by omega) hi, Nat.add_assoc, locateImage_mem,
    atJump_file hfile hplaced hdf (by omega)]

end Undo

/-! ## 3. A boot -/

/-- The zero page at `0x90000`, with the header of the file and one E820 entry: RAM up to 640
KiB. -/
def bootMem (file : List (BitVec 8)) (base : Nat) : ByteMem := fun a =>
  if base ≤ a.toNat then file.getD (a.toNat - base) 0#8
  else if a.toNat < 0x902d0 then file.getD (a.toNat - 0x90000) 0#8
  else if a = 0x902da#32 then 0x0a#8
  else if a = 0x902e0#32 then 1#8
  else 0#8

def bootCpu (file : List (BitVec 8)) (base : Nat) : Cpu where
  eax := 0#32
  ecx := 0#32
  edx := 0#32
  ebp := 0#32
  esi := 0x90000#32
  edi := 0#32
  esp := 0#32
  df := false
  mem := bootMem file base

section Boot

variable {file : List (BitVec 8)} {base : Nat} (hmib : 2 ^ 20 ≤ base)

include hmib

theorem bootMem_table {a : BitVec 32} (h : 0x902d0 ≤ a.toNat) (h' : a.toNat < 2 ^ 20) :
    bootMem file base a = if a = 0x902da#32 then 0x0a#8 else if a = 0x902e0#32 then 1#8
      else 0#8 := by
  rw [bootMem, if_neg (by omega), if_neg (by omega)]

theorem bootCpu_field {offset : Nat} (h : offset ≤ 16) :
    e820Field (bootMem file base) 0x90000#32 0 offset
      = e820Field (bootMem [] (2 ^ 20)) 0x90000#32 0 offset := by
  refine read32_congr fun k hk => ?_
  have haddr : (0x90000#32 + BitVec.ofNat 32 (20 * 0 + offset) + ZEROPAGE_E820_TABLE
      + BitVec.ofNat 32 k).toNat = 0x902d0 + offset + k := by
    simp only [BitVec.toNat_add, BitVec.toNat_ofNat, ZEROPAGE_E820_TABLE]
    omega
  rw [bootMem_table hmib (by omega) (by omega), bootMem_table (Nat.le_refl _) (by omega) (by omega)]

theorem bootCpu_ram : e820Field (bootMem file base) 0x90000#32 0 16 = 1#32 := by
  rw [bootCpu_field hmib (by decide)]
  decide

theorem bootCpu_stackTop : stackTop (bootMem file base) 0x90000#32 = 0xa0000#32 := by
  have hfirst : firstRam (bootMem file base) 0x90000#32 = some 0 :=
    List.find?_range_eq_some.mpr
      ⟨decide_eq_true (bootCpu_ram hmib), List.mem_range.mpr (by decide),
        fun _ h => absurd h (Nat.not_lt_zero _)⟩
  rw [stackTop, hfirst]
  dsimp only [Option.getD_some]
  rw [bootCpu_field hmib (by decide), bootCpu_field hmib (by decide)]
  decide

theorem bootCpu_placed {size : Nat} (haligned : base % 512 = 0)
    (hbelow : base + file.length ≤ 2 ^ 31) :
    Placed file base size (bootCpu file base) where
  aligned := haligned
  mib_le := hmib
  file_below := hbelow
  zeroPage_below := by
    dsimp only [bootCpu]
    decide
  stack_below := by
    dsimp only [bootCpu]
    rw [bootCpu_stackTop hmib]
    decide
  loaded i hi := by
    have haddr : (BitVec.ofNat 32 (base + i)).toNat = base + i := by
      rw [BitVec.toNat_ofNat]
      omega
    dsimp only [bootCpu]
    rw [bootMem, haddr, if_pos (by omega), Nat.add_sub_cancel_left]
  header i h h' := by
    have haddr : (0x90000#32 + BitVec.ofNat 32 i).toNat = 0x90000 + i := by
      rw [BitVec.toNat_add, BitVec.toNat_ofNat, BitVec.toNat_ofNat]
      omega
    dsimp only [bootCpu]
    rw [bootMem, haddr, if_neg (by omega), if_pos (by omega), Nat.add_sub_cancel_left]
  ram := ⟨0, by decide, bootCpu_ram hmib⟩
  zeroPage_outside := by
    dsimp only [bootCpu]
    exact ⟨.inl (Nat.le_trans (by decide) hmib), .inl (by decide), .inr (by decide)⟩
  stack_outside := by
    dsimp only [bootCpu]
    rw [bootCpu_stackTop hmib]
    exact ⟨.inl (Nat.le_trans (by decide) hmib), .inl (by decide), .inr (by decide)⟩

theorem bootCpu_setupSectsKept (labels : Labels) {binary relocator : List (BitVec 8)}
    {entryOffset : Int} (hfile : mkBzimage binary relocator entryOffset = some file) :
    SetupSectsKept labels relocator base (bootCpu file base) := by
  have hlabels := labels.trampoline_le
  have hlength := length_file hfile
  have hsects : setupSects labels relocator base (bootCpu file base) = 2#32 := by
    refine read32_eq fun k hk => ?_
    have haddr : (0x90000#32 + ZEROPAGE_SETUP_SECTS + BitVec.ofNat 32 k).toNat = 0x901f1 + k := by
      rw [BitVec.toNat_add, BitVec.toNat_ofNat]
      change (0x901f1 + _) % _ = _
      omega
    dsimp only [bootCpu]
    rw [jumpMem, if_neg (by omega)]
    dsimp only
    rw [bootCpu_stackTop hmib, write32_of_outside (by decide)
      (Or.inl (by rw [haddr]; change _ < 0x9fffc; omega)), lowerMem,
      write32_memLower_outside (by omega)]
    dsimp only
    rw [bootMem, haddr, if_neg (by omega), if_pos (by omega),
      show 0x901f1 + k - 0x90000 = 0x1f1 + k by omega, file_setup_sects hfile hk]
  rw [SetupSectsKept, hsects]
  decide

theorem bootCpu_memLower : memLower (bootCpu file base) = 0x280#32 := by
  rw [memLower]
  dsimp only [bootCpu]
  rw [bootCpu_stackTop hmib]
  decide

end Boot

/-! ## 4. What arrives -/

def bootLabels : Labels where
  returnLabel := 100
  trampolineStart := 128
  trampolineEnd := 320
  eight_le := by decide
  returnLabel_lt := by decide
  start_le_end := by decide
  end_le := by decide

end AcrnGuest.BootStub
