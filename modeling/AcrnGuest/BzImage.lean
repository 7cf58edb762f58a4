import Mathlib.Data.List.GetD
import Mathlib.Tactic.Common

/-!
# The packer of boot images (`scripts/mk_bzimage.py`)

The file is a boot sector, a setup header, a version string and a sector with the
relocator and the size of the binary, followed by the binary. What the boot stub relies on
is where the setup sectors, the size and the binary are.
-/

namespace AcrnGuest

def SECTOR_SIZE : Nat := 0x200

def zeros (n : Nat) : List (BitVec 8) := List.replicate n 0#8

def packInt (v : Int) : List (BitVec 8) :=
  [0, 8, 16, 24].map fun (i : Nat) => BitVec.ofInt 8 (v >>> i)

def ascii (s : String) : List (BitVec 8) := s.toList.map fun c => BitVec.ofNat 8 c.toNat

/-- Sector 1, with the number of setup sectors at `0x1f1`. -/
def bootSector : List (BitVec 8) :=
  zeros 0x1f1 ++ [2#8] ++ zeros (SECTOR_SIZE - 2 - 0x1f2) ++ [0x55#8, 0xAA#8]

/-- Sector 2: the fields of the setup header, from `jump` to `handover_offset`. -/
def setupHeader (entryOffset : Int) (size : Nat) : List (BitVec 8) :=
  [[0xEB#8, 0x66#8], ascii "HdrS", [0x0A#8, 0x02#8], zeros 4, zeros 2, [0x00#8, 0x02#8],
    zeros 1, [0x01#8], zeros 2, [0x00#8, 0x00#8, 0x10#8, 0x00#8], zeros 4, zeros 4,
    zeros 4, zeros 2, zeros 1, zeros 1, zeros 4, [0xFF#8, 0xFF#8, 0xFF#8, 0x7F#8],
    zeros 4, zeros 1, zeros 1, zeros 2, [0xFF#8, 0x07#8, 0x00#8, 0x00#8], zeros (4 + 8),
    zeros (4 + 4), zeros 8, packInt (entryOffset - SECTOR_SIZE), zeros 4,
    packInt (size + SECTOR_SIZE * 4 : Nat), zeros 4, zeros (SECTOR_SIZE * 2 - 0x268)].flatten

def versionString : List (BitVec 8) := ascii "acrn-unit-test"

def versionSector : List (BitVec 8) := versionString ++ zeros (SECTOR_SIZE - versionString.length)

/-- Sector 4, up to the size of the binary. -/
def relocatorPart (relocator : List (BitVec 8)) : List (BitVec 8) :=
  relocator ++ zeros (SECTOR_SIZE - 4 - relocator.length)

/-- The file; there is none if the relocator is too large. -/
def mkBzimage (binary relocator : List (BitVec 8)) (entryOffset : Int) : Option (List (BitVec 8)) :=
  if relocator.length > SECTOR_SIZE - 4 then none
  else
    some (bootSector ++ setupHeader entryOffset binary.length ++ versionSector ++
      relocatorPart relocator ++ packInt binary.length ++ binary)

/-! ### The layout -/

theorem length_zeros (n : Nat) : (zeros n).length = n := List.length_replicate

theorem length_packInt (v : Int) : (packInt v).length = 4 := rfl

theorem length_bootSector : bootSector.length = 0x200 := by
  simp only [bootSector, List.length_append, length_zeros, SECTOR_SIZE, List.length_cons,
    List.length_nil]

theorem length_setupHeader (entryOffset : Int) (size : Nat) :
    (setupHeader entryOffset size).length = 0x200 := by
  have hHdrS : (ascii "HdrS").length = 4 := by decide
  rw [setupHeader, List.length_flatten]
  simp only [List.map_cons, List.map_nil, length_packInt, length_zeros, hHdrS]
  rfl

theorem length_versionSector : versionSector.length = 0x200 := by
  have hversion : versionString.length = 14 := by decide
  simp only [versionSector, List.length_append, length_zeros, hversion, SECTOR_SIZE]

variable {binary relocator file : List (BitVec 8)} {entryOffset : Int}

theorem length_relocatorPart (h : relocator.length ≤ 508) :
    (relocatorPart relocator).length = 508 := by
  simp only [relocatorPart, List.length_append, length_zeros, SECTOR_SIZE]
  omega

theorem getD_packInt (n : Nat) {k : Nat} (hk : k < 4) :
    (packInt n).getD k 0#8 = (BitVec.ofNat 32 n).extractLsb' (8 * k) 8 := by
  have hbyte : ∀ i : Nat, i ≤ 24 →
      BitVec.ofInt 8 ((n : Int) >>> i) = (BitVec.ofNat 32 n).extractLsb' i 8 := by
    intro i hi
    refine BitVec.eq_of_getLsbD_eq fun j hj => ?_
    have hword : i + j < 32 := by omega
    rw [show (n : Int) >>> i = ((n >>> i : Nat) : Int) from rfl, BitVec.ofInt_natCast,
      BitVec.getLsbD_extractLsb', BitVec.getLsbD_ofNat, BitVec.getLsbD_ofNat,
      Nat.testBit_shiftRight]
    simp only [hj, hword, decide_true, Bool.true_and]
  rcases (by omega : k = 0 ∨ k = 1 ∨ k = 2 ∨ k = 3) with rfl | rfl | rfl | rfl
  all_goals exact hbyte _ (by decide)

theorem mkBzimage_isSome (h : relocator.length ≤ 508) :
    ∃ file, mkBzimage binary relocator entryOffset = some file :=
  ⟨_, if_neg (Nat.not_lt.mpr h)⟩

/-- The parts of the file that the stub reads, with the sectors between them. -/
theorem mkBzimage_eq (h : mkBzimage binary relocator entryOffset = some file) :
    ∃ sectors, sectors.length = 0x400 ∧ (relocatorPart relocator).length = 508 ∧
      file = bootSector ++
        (sectors ++ (relocatorPart relocator ++ (packInt binary.length ++ binary))) := by
  unfold mkBzimage at h
  split at h
  · cases h
  · next hsize =>
      cases h
      refine ⟨setupHeader entryOffset binary.length ++ versionSector, ?_,
        length_relocatorPart (Nat.not_lt.mp hsize), ?_⟩
      · rw [List.length_append, length_setupHeader, length_versionSector]
      · simp only [List.append_assoc]

theorem length_file (h : mkBzimage binary relocator entryOffset = some file) :
    file.length = 0x800 + binary.length := by
  obtain ⟨sectors, hsectors, hrelocator, rfl⟩ := mkBzimage_eq h
  simp only [List.length_append, length_bootSector, hsectors, hrelocator, length_packInt]
  omega

theorem file_setup_sects (h : mkBzimage binary relocator entryOffset = some file) {k : Nat}
    (hk : k < 4) : file.getD (0x1f1 + k) 0#8 = (2#32).extractLsb' (8 * k) 8 := by
  obtain ⟨sectors, -, -, rfl⟩ := mkBzimage_eq h
  have hboot : 0x1f1 + k < bootSector.length := by
    rw [length_bootSector]
    omega
  rw [List.getD_append _ _ _ _ hboot, bootSector, List.append_assoc, List.append_assoc,
    List.getD_append_right _ _ _ _ (by rw [length_zeros]; omega), length_zeros,
    Nat.add_sub_cancel_left]
  rcases (by omega : k = 0 ∨ k = 1 ∨ k = 2 ∨ k = 3) with rfl | rfl | rfl | rfl <;> decide

theorem file_behind_sectors (h : mkBzimage binary relocator entryOffset = some file) (i : Nat) :
    (relocatorPart relocator).length = 508 ∧
    file.getD (0x600 + i) 0#8
      = (relocatorPart relocator ++ (packInt binary.length ++ binary)).getD i 0#8 := by
  obtain ⟨sectors, hsectors, hrelocator, rfl⟩ := mkBzimage_eq h
  refine ⟨hrelocator, ?_⟩
  rw [List.getD_append_right _ _ _ _ (by rw [length_bootSector]; omega), length_bootSector,
    List.getD_append_right _ _ _ _ (by omega), hsectors]
  exact congrArg (List.getD _ · 0#8) (by omega)

theorem file_relocator (h : mkBzimage binary relocator entryOffset = some file) {i : Nat}
    (hi : i < 508) : file.getD (0x600 + i) 0#8 = relocator.getD i 0#8 := by
  obtain ⟨hlength, hfile⟩ := file_behind_sectors h i
  rw [hfile, List.getD_append _ _ _ _ (by omega), relocatorPart]
  rcases Nat.lt_or_ge i relocator.length with hin | hbehind
  · rw [List.getD_append _ _ _ _ hin]
  · rw [List.getD_append_right _ _ _ _ hbehind, List.getD_eq_default _ _ hbehind, zeros,
      List.getD_eq_getElem?_getD, List.getElem?_getD_replicate_default_eq]

theorem file_size (h : mkBzimage binary relocator entryOffset = some file) {k : Nat} (hk : k < 4) :
    file.getD (0x7fc + k) 0#8 = (BitVec.ofNat 32 binary.length).extractLsb' (8 * k) 8 := by
  obtain ⟨hlength, hfile⟩ := file_behind_sectors h (0x1fc + k)
  rw [show 0x7fc + k = 0x600 + (0x1fc + k) by omega, hfile,
    List.getD_append_right _ _ _ _ (by omega), hlength, Nat.add_sub_cancel_left,
    List.getD_append _ _ _ _ (by rw [length_packInt]; exact hk), getD_packInt binary.length hk]

theorem file_binary (h : mkBzimage binary relocator entryOffset = some file) (i : Nat) :
    file.getD (0x800 + i) 0#8 = binary.getD i 0#8 := by
  obtain ⟨hlength, hfile⟩ := file_behind_sectors h (0x200 + i)
  have hbehind : 0x200 + i - 508 - 4 = i := by omega
  rw [show 0x800 + i = 0x600 + (0x200 + i) by omega, hfile,
    List.getD_append_right _ _ _ _ (by omega), hlength,
    List.getD_append_right _ _ _ _ (by rw [length_packInt]; omega), length_packInt, hbehind]

end AcrnGuest
