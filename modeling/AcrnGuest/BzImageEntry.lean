import Mathlib.Data.Nat.Find
import AcrnGuest.BzImageStub

/-!
# From the copied image to its entry (`x86/bzimage_stub.S`)

Behind the image copy the trampoline writes the multiboot information and the command line
below 4 MiB, looks for the magic number of the multiboot header in the first 8 KiB of the
image and jumps 12 bytes behind it.

The search counts its passes in `%ecx` and gives up when the counter is 8192. The counter is
initialised by `mov 0, %ecx`, which is not the number 0 but the dword at address 0: these are
the first bytes of the trampoline itself, and the counter never meets the limit from there.
-/

namespace AcrnGuest.BootStub

open ByteCopy

def MEM_2K : BitVec 32 := 2#32 * MEM_1K
def ZEROPAGE_CMDLINE_PTR : BitVec 32 := 0x228#32
def MBI_FLAGS : BitVec 32 := 0x0#32
def MBI_MEM_UPPER : BitVec 32 := 0x8#32
def MBI_CMDLINE : BitVec 32 := 0x10#32
def MBI_MODS_COUNT : BitVec 32 := 0x14#32
def CMDLINE_ADDRESS : BitVec 32 := UNIT_TEST_LOAD_ADDRESS - MEM_2K

def MULTIBOOT_HEADER_MAGIC : BitVec 32 := 0x1badb002#32
def MULTIBOOT_INFO_MAGIC : BitVec 32 := 0x2badb002#32
def MULTIBOOT_INFO_HAS_MEMORY : BitVec 32 := 0x00000001#32
def MULTIBOOT_INFO_HAS_CMDLINE : BitVec 32 := 0x00000004#32
def MULTIBOOT_INFO_HAS_MODS : BitVec 32 := 0x00000008#32

/-! ## 1. The source -/

def Cpu.storeEax (c : Cpu) (offset : BitVec 32) : Cpu :=
  { c with mem := write32 c.mem (c.esi + offset) c.eax }

def storeMultiboot (c : Cpu) : Cpu :=
  let c := { c with esi := MBI_ADDRESS }
  let c := { c with eax := MULTIBOOT_INFO_HAS_MEMORY ||| MULTIBOOT_INFO_HAS_CMDLINE |||
    MULTIBOOT_INFO_HAS_MODS }
  let c := c.storeEax MBI_FLAGS
  let c := { c with eax := 0#32 }
  let c := c.storeEax MBI_MODS_COUNT
  let c := { c with eax := MEM_1M / MEM_1K * 512#32 }
  let c := c.storeEax MBI_MEM_UPPER
  let c := { c with eax := CMDLINE_ADDRESS }
  c.storeEax MBI_CMDLINE

/-- The command line. On `movsb` the prefix `repnz` counts `%ecx` down as `rep` does. -/
def copyCmdline (c : Cpu) : Cpu :=
  let c := { c with esi := read32 c.mem (c.edx + ZEROPAGE_CMDLINE_PTR) }
  let c := { c with edi := CMDLINE_ADDRESS }
  let c := { c with ecx := MEM_2K }
  c.repMovsb

def findHeaderStep (c : Cpu) : Cpu ⊕ Cpu :=
  let c := { c with eax := read32 c.mem (c.esi + 0#32) }
  if c.eax = MULTIBOOT_HEADER_MAGIC then .inr c
  else
    let c := { c with ecx := c.ecx + 4#32 }
    let c := { c with esi := c.esi + 4#32 }
    if c.ecx = 8#32 * MEM_1K then .inr c else .inl c

/-- The registers before the search. `mov 0, %ecx` reads address 0. -/
def startSearch (c : Cpu) : Cpu :=
  let c := { c with ecx := read32 c.mem 0#32 }
  { c with esi := UNIT_TEST_LOAD_ADDRESS }

/-- `_call_entry`, up to the jump to `%esi`. -/
def callEntry (c : Cpu) : Cpu :=
  let c := { c with esi := c.esi + 12#32 }
  { c with eax := MULTIBOOT_INFO_MAGIC }

/-- From the end of the image copy to the jump, if the search ends within the given number of
passes. -/
def enterImage (passes : Nat) (c : Cpu) : Option Cpu :=
  (Loop.run findHeaderStep passes (startSearch (copyCmdline (storeMultiboot c)))).map callEntry

/-! ## 2. What the search is for -/

def imageDword (mem : ByteMem) (i : Nat) : BitVec 32 :=
  read32 mem (BitVec.ofNat 32 (0x400000 + 4 * i))

/-- The first magic number in the first 8 KiB of the image is at dword `i`. -/
structure FirstMagic (mem : ByteMem) (i : Nat) : Prop where
  lt : i < 2048
  magic : imageDword mem i = MULTIBOOT_HEADER_MAGIC
  first : ∀ j, j < i → imageDword mem j ≠ MULTIBOOT_HEADER_MAGIC

/-- The search reads at most 2048 dwords, and from a magic number in them the jump goes behind the
header. -/
def EntryFound (c : Cpu) : Prop :=
  ∃ c', enterImage 2048 c = some c' ∧
    ∀ i, FirstMagic c.mem i → c'.esi = BitVec.ofNat 32 (0x400000 + 4 * i + 12)

def firstCount (mem : ByteMem) : Nat := (read32 mem 0#32).toNat

/-! ## 3. The memory before the search -/

section Multiboot

variable {c : Cpu} {a : BitVec 32}

theorem write32_mbi_outside {mem : ByteMem} {offset v : BitVec 32} (hoffset : offset.toNat ≤ 0x14)
    (ha : a.toNat < 0x3ff000 ∨ 0x400000 ≤ a.toNat) :
    write32 mem (MBI_ADDRESS + offset) v a = mem a := by
  have haddr : (MBI_ADDRESS + offset).toNat = 0x3ff000 + offset.toNat := by
    rw [BitVec.toNat_add, show MBI_ADDRESS.toNat = 0x3ff000 from rfl]
    omega
  exact write32_of_outside (by omega) (by omega)

theorem copyCmdline_outside (hdf : c.df = false) (ha : a.toNat < 0x3ff000 ∨ 0x400000 ≤ a.toNat) :
    (copyCmdline c).mem a = c.mem a := by
  unfold copyCmdline
  refine repMovsb_outside (n := 0x800) ?_ ?_ (show CMDLINE_ADDRESS.toNat = 0x3ff800 from rfl)
    (by decide) (by omega)
  · rfl
  · exact hdf

theorem storeMultiboot_outside (ha : a.toNat < 0x3ff000 ∨ 0x400000 ≤ a.toNat) :
    (storeMultiboot c).mem a = c.mem a := by
  unfold storeMultiboot Cpu.storeEax
  dsimp only
  rw [write32_mbi_outside (by decide) ha, write32_mbi_outside (by decide) ha,
    write32_mbi_outside (by decide) ha, write32_mbi_outside (by decide) ha]

theorem storeMultiboot_df (c : Cpu) : (storeMultiboot c).df = c.df := by
  unfold storeMultiboot Cpu.storeEax
  rfl

/-- The trampoline writes to the last 4 KiB below 4 MiB only. -/
theorem multiboot_outside (hdf : c.df = false) (ha : a.toNat < 0x3ff000 ∨ 0x400000 ≤ a.toNat) :
    (copyCmdline (storeMultiboot c)).mem a = c.mem a := by
  rw [copyCmdline_outside ((storeMultiboot_df c).trans hdf) ha, storeMultiboot_outside ha]

theorem imageDword_multiboot (hdf : c.df = false) {i : Nat} (hi : i < 2048) :
    imageDword (copyCmdline (storeMultiboot c)).mem i = imageDword c.mem i := by
  apply read32_congr
  intro k hk
  apply multiboot_outside hdf
  rw [← BitVec.ofNat_add, BitVec.toNat_ofNat]
  omega

theorem firstCount_multiboot (hdf : c.df = false) :
    firstCount (copyCmdline (storeMultiboot c)).mem = firstCount c.mem := by
  apply congrArg BitVec.toNat
  apply read32_congr
  intro k hk
  apply multiboot_outside hdf
  rw [BitVec.zero_add, BitVec.toNat_ofNat]
  omega

end Multiboot

/-! ## 4. The passes -/

section Passes

variable {c : Cpu} {n bound : Nat}

/-- The state in which pass `n` starts. -/
structure AtPass (c : Cpu) (n : Nat) (cn : Cpu) : Prop where
  mem : cn.mem = c.mem
  ecx : cn.ecx = BitVec.ofNat 32 (firstCount c.mem + 4 * n)
  esi : cn.esi = BitVec.ofNat 32 (0x400000 + 4 * n)

theorem atPass_start (c : Cpu) : AtPass c 0 (startSearch c) where
  mem := rfl
  ecx := by
    unfold startSearch firstCount
    rw [Nat.mul_zero, Nat.add_zero, BitVec.ofNat_toNat, BitVec.setWidth_eq]
  esi := rfl

theorem ofNat_add_four (k : Nat) : BitVec.ofNat 32 k + 4#32 = BitVec.ofNat 32 (k + 4) := by
  rw [BitVec.ofNat_add]

variable {cn : Cpu}

theorem AtPass.dword (h : AtPass c n cn) : read32 cn.mem (cn.esi + 0#32) = imageDword c.mem n := by
  rw [BitVec.add_zero, h.mem, h.esi]
  rfl

/-- A pass at the magic number ends the search there. -/
theorem AtPass.magic (h : AtPass c n cn) (hmagic : imageDword c.mem n = MULTIBOOT_HEADER_MAGIC) :
    ∃ c', findHeaderStep cn = .inr c' ∧ c'.esi = BitVec.ofNat 32 (0x400000 + 4 * n) := by
  unfold findHeaderStep
  dsimp only
  rw [h.dword, if_pos hmagic]
  exact ⟨_, rfl, h.esi⟩

/-- Any other pass counts, and ends the search if the counter meets the limit. -/
theorem AtPass.count (h : AtPass c n cn) (hmagic : imageDword c.mem n ≠ MULTIBOOT_HEADER_MAGIC) :
    ∃ cn', AtPass c (n + 1) cn' ∧
      findHeaderStep cn =
        if BitVec.ofNat 32 (firstCount c.mem + 4 * (n + 1)) = 8192#32 then .inr cn'
          else .inl cn' := by
  have hecx : cn.ecx + 4#32 = BitVec.ofNat 32 (firstCount c.mem + 4 * (n + 1)) := by
    rw [h.ecx, ofNat_add_four]
    congr 1
  have hesi : cn.esi + 4#32 = BitVec.ofNat 32 (0x400000 + 4 * (n + 1)) := by
    rw [h.esi, ofNat_add_four]
    congr 1
  unfold findHeaderStep
  dsimp only
  rw [h.dword, if_neg hmagic, hecx, hesi]
  exact ⟨{ cn with eax := imageDword c.mem n, ecx := _, esi := _ }, ⟨h.mem, rfl, rfl⟩, rfl⟩

/-- The counter meets the limit after pass `n`. -/
def AtLimit (mem : ByteMem) (n : Nat) : Prop := firstCount mem + 4 * n = 8192

theorem count_eq_limit_iff {mem : ByteMem} (hn : n ≤ 2048) :
    BitVec.ofNat 32 (firstCount mem + 4 * n) = 8192#32 ↔ AtLimit mem n := by
  have hlt : firstCount mem < 2 ^ 32 := (read32 mem 0#32).isLt
  rw [← BitVec.toNat_inj, BitVec.toNat_ofNat, BitVec.toNat_ofNat]
  unfold AtLimit
  omega

theorem atLimit_multiboot (hdf : c.df = false) :
    AtLimit (copyCmdline (storeMultiboot c)).mem n ↔ AtLimit c.mem n := by
  rw [AtLimit, AtLimit, firstCount_multiboot hdf]

/-- **Passes without magic and limit** lead from one to the next. -/
theorem run_findHeader_skip (hn : n ≤ 2048)
    (hmagic : ∀ j, j < n → imageDword c.mem j ≠ MULTIBOOT_HEADER_MAGIC)
    (hlimit : ∀ j, 1 ≤ j → j ≤ n → ¬ AtLimit c.mem j) :
    ∃ cn, AtPass c n cn ∧
      ∀ bound, Loop.run findHeaderStep (n + bound) (startSearch c) =
        Loop.run findHeaderStep bound cn := by
  induction n with
  | zero => exact ⟨startSearch c, atPass_start c, fun bound => by rw [Nat.zero_add]⟩
  | succ n ih =>
      obtain ⟨cn, hcn, hrun⟩ := ih (by omega) (fun j hj => hmagic j (by omega)) fun j hj hjn =>
        hlimit j hj (by omega)
      obtain ⟨cn', hcn', hstep⟩ := hcn.count (hmagic n (by omega))
      rw [if_neg (mt (count_eq_limit_iff hn).mp (hlimit (n + 1) (by omega) (by omega)))] at hstep
      refine ⟨cn', hcn', fun bound => ?_⟩
      rw [Nat.succ_add_eq_add_succ, hrun, Loop.run_succ_inl hstep]

/-- The search ends at the magic number, if the limit does not come first. -/
theorem run_findHeader_magic (hn : n < 2048)
    (hfirst : ∀ j, j < n → imageDword c.mem j ≠ MULTIBOOT_HEADER_MAGIC)
    (hmagic : imageDword c.mem n = MULTIBOOT_HEADER_MAGIC)
    (hlimit : ∀ j, 1 ≤ j → j ≤ n → ¬ AtLimit c.mem j) :
    ∃ c', Loop.run findHeaderStep 2048 (startSearch c) = some c' ∧
      c'.esi = BitVec.ofNat 32 (0x400000 + 4 * n) := by
  obtain ⟨cn, hcn, hrun⟩ := run_findHeader_skip (by omega) hfirst hlimit
  obtain ⟨c', hstep, hesi⟩ := hcn.magic hmagic
  have hbound : 2048 = n + (2047 - n + 1) := by omega
  refine ⟨c', ?_, hesi⟩
  rw [hbound, hrun, Loop.run_succ_inr hstep]

/-- The search ends at the limit, if the magic number does not come first. -/
theorem run_findHeader_limit (hpos : 1 ≤ n) (hn : n ≤ 2048) (hlimit : AtLimit c.mem n)
    (hmagic : ∀ j, j < n → imageDword c.mem j ≠ MULTIBOOT_HEADER_MAGIC) :
    ∃ c', Loop.run findHeaderStep 2048 (startSearch c) = some c' ∧
      c'.esi = BitVec.ofNat 32 (0x400000 + 4 * n) := by
  unfold AtLimit at hlimit
  obtain ⟨cn, hcn, hrun⟩ := run_findHeader_skip (n := n - 1) (by omega)
    (fun j hj => hmagic j (by omega))
    fun j hj hjn => by unfold AtLimit; omega
  obtain ⟨c', hc', hstep⟩ := hcn.count (hmagic (n - 1) (by omega))
  rw [Nat.sub_add_cancel hpos] at hc' hstep
  rw [if_pos ((count_eq_limit_iff hn).mpr hlimit)] at hstep
  have hbound : 2048 = n - 1 + (2048 - n + 1) := by omega
  refine ⟨c', ?_, hc'.esi⟩
  rw [hbound, hrun, Loop.run_succ_inr hstep]

theorem run_findHeader_eq_none (hmagic : ∀ j, j < 2048 →
    imageDword c.mem j ≠ MULTIBOOT_HEADER_MAGIC)
    (hlimit : ∀ j, 1 ≤ j → j ≤ 2048 → ¬ AtLimit c.mem j) :
    Loop.run findHeaderStep 2048 (startSearch c) = none := by
  obtain ⟨cn, -, hrun⟩ := run_findHeader_skip (Nat.le_refl 2048) hmagic hlimit
  exact hrun 0

end Passes

/-! ## 5. Where the jump goes -/

section Entry

variable {c : Cpu}

theorem entryFound_iff_run :
    EntryFound c ↔ ∃ c', Loop.run findHeaderStep 2048
      (startSearch (copyCmdline (storeMultiboot c))) = some c' ∧
      ∀ i, FirstMagic c.mem i → c'.esi = BitVec.ofNat 32 (0x400000 + 4 * i) := by
  have htarget : ∀ (c' : Cpu) i, (callEntry c').esi = BitVec.ofNat 32 (0x400000 + 4 * i + 12) ↔
      c'.esi = BitVec.ofNat 32 (0x400000 + 4 * i) := by
    intro c' i
    rw [BitVec.ofNat_add (0x400000 + 4 * i) 12]
    exact BitVec.add_left_inj _
  unfold EntryFound enterImage
  constructor
  · rintro ⟨c', hrun, hesi⟩
    obtain ⟨c₁, hc₁, rfl⟩ := Option.map_eq_some_iff.mp hrun
    exact ⟨c₁, hc₁, fun i hi => (htarget c₁ i).mp (hesi i hi)⟩
  · rintro ⟨c₁, hrun, hesi⟩
    exact ⟨callEntry c₁, Option.map_eq_some_iff.mpr ⟨c₁, hrun, rfl⟩, fun i hi =>
      (htarget c₁ i).mpr (hesi i hi)⟩

theorem FirstMagic.unique {mem : ByteMem} {i j : Nat} (hi : FirstMagic mem i)
    (hj : FirstMagic mem j) : i = j := by
  rcases Nat.lt_trichotomy i j with hlt | heq | hgt
  · exact absurd hi.magic (hj.first i hlt)
  · exact heq
  · exact absurd hj.magic (hi.first j hgt)

theorem exists_firstMagic {mem : ByteMem} {j : Nat} (hj : j < 2048)
    (hmagic : imageDword mem j = MULTIBOOT_HEADER_MAGIC) :
    ∃ i, FirstMagic mem i := by
  have hex : ∃ k, imageDword mem k = MULTIBOOT_HEADER_MAGIC := ⟨j, hmagic⟩
  have hle : Nat.find hex ≤ j := Nat.find_min' hex hmagic
  exact ⟨Nat.find hex, Nat.lt_of_le_of_lt hle hj, Nat.find_spec hex, fun k hk =>
    Nat.find_min hex hk⟩

/-- With a magic number in the first 8 KiB the entry is found unless the counter meets the limit
before it. -/
theorem FirstMagic.found_iff {i : Nat} (hi : FirstMagic c.mem i) (hdf : c.df = false) :
    EntryFound c ↔ ¬ ∃ n, 1 ≤ n ∧ n < i ∧ AtLimit c.mem n := by
  have hlt := hi.lt
  have hdword : ∀ j, j ≤ i → imageDword (copyCmdline (storeMultiboot c)).mem j =
      imageDword c.mem j := fun j hj =>
    imageDword_multiboot hdf (by omega)
  have hmagic : ∀ j, j < i → imageDword (copyCmdline (storeMultiboot c)).mem j ≠
      MULTIBOOT_HEADER_MAGIC := by
    intro j hj
    rw [hdword j (Nat.le_of_lt hj)]
    exact hi.first j hj
  rw [entryFound_iff_run]
  constructor
  · rintro ⟨c', hrun, hesi⟩ ⟨n, hpos, hn, hlimit⟩
    obtain ⟨c₁, hrun₁, hesi₁⟩ :=
      run_findHeader_limit hpos (by omega) ((atLimit_multiboot hdf).mpr hlimit)
      fun j hj => hmagic j (by omega)
    rw [hrun] at hrun₁
    have hsame := hesi i hi
    rw [Option.some.inj hrun₁, hesi₁, ← BitVec.toNat_inj, BitVec.toNat_ofNat,
      BitVec.toNat_ofNat] at hsame
    omega
  · intro hlimit
    have hstop : ∃ c', Loop.run findHeaderStep 2048 (startSearch (copyCmdline (storeMultiboot c))) =
        some c' ∧
        c'.esi = BitVec.ofNat 32 (0x400000 + 4 * i) := by
      by_cases hat : 1 ≤ i ∧ AtLimit c.mem i
      · -- the limit is met at the magic number itself
        exact run_findHeader_limit hat.1 (Nat.le_of_lt hlt)
          ((atLimit_multiboot hdf).mpr hat.2) hmagic
      · apply run_findHeader_magic hlt hmagic ((hdword i (Nat.le_refl i)).trans hi.magic)
        intro j hj hji hlim
        rcases Nat.lt_or_eq_of_le hji with hlt' | rfl
        · exact hlimit ⟨j, hj, hlt', (atLimit_multiboot hdf).mp hlim⟩
        · exact hat ⟨hj, (atLimit_multiboot hdf).mp hlim⟩
    obtain ⟨c', hrun, hesi⟩ := hstop
    refine ⟨c', hrun, fun j hj => ?_⟩
    rw [← hi.unique hj]
    exact hesi

/-- Without one the search ends within the first 8 KiB exactly if the counter meets the limit
there. -/
theorem entryFound_iff_of_noMagic (hdf : c.df = false) (hnone : ∀ i, ¬ FirstMagic c.mem i) :
    EntryFound c ↔ ∃ n, 1 ≤ n ∧ n ≤ 2048 ∧ AtLimit c.mem n := by
  have hmagic : ∀ j, j < 2048 → imageDword (copyCmdline (storeMultiboot c)).mem j ≠
      MULTIBOOT_HEADER_MAGIC := by
    intro j hj hj'
    rw [imageDword_multiboot hdf hj] at hj'
    obtain ⟨i, hi⟩ := exists_firstMagic hj hj'
    exact hnone i hi
  rw [entryFound_iff_run]
  constructor
  · rintro ⟨c', hrun, -⟩
    by_contra hno
    have hlimit : ∀ j, 1 ≤ j → j ≤ 2048 → ¬ AtLimit (copyCmdline (storeMultiboot c)).mem j :=
      fun j hj hj' hlim =>
      hno ⟨j, hj, hj', (atLimit_multiboot hdf).mp hlim⟩
    rw [run_findHeader_eq_none hmagic hlimit] at hrun
    cases hrun
  · rintro ⟨n, hpos, hn, hlimit⟩
    obtain ⟨c', hrun, -⟩ := run_findHeader_limit hpos hn
      ((atLimit_multiboot hdf).mpr hlimit) fun j hj => hmagic j (by omega)
    exact ⟨c', hrun, fun i hi => absurd hi (hnone i)⟩

/-- **The entry is found** exactly if there is a magic number in the first 8 KiB and the counter
does not meet the limit before it, or there is none and the counter starts at a multiple of 4 below
the limit. -/
theorem entryFound_iff (hdf : c.df = false) :
    EntryFound c ↔
      (∃ i, FirstMagic c.mem i ∧
        ¬ (firstCount c.mem % 4 = 0 ∧ firstCount c.mem < 8192 ∧ 8192 < firstCount c.mem + 4 * i)) ∨
      (∀ i, ¬ FirstMagic c.mem i) ∧ firstCount c.mem % 4 = 0 ∧ firstCount c.mem < 8192 := by
  by_cases hexists : ∃ i, FirstMagic c.mem i
  · obtain ⟨i, hi⟩ := hexists
    have hbefore : (∃ n, 1 ≤ n ∧ n < i ∧ AtLimit c.mem n) ↔
        firstCount c.mem % 4 = 0 ∧ firstCount c.mem < 8192 ∧ 8192 < firstCount c.mem + 4 * i := by
      unfold AtLimit
      constructor
      · rintro ⟨n, hpos, hn, hlimit⟩
        omega
      · rintro ⟨haligned, hlow, hhigh⟩
        exact ⟨(8192 - firstCount c.mem) / 4, by omega, by omega, by omega⟩
    rw [hi.found_iff hdf, hbefore]
    constructor
    · intro hlimit
      exact Or.inl ⟨i, hi, hlimit⟩
    · rintro (⟨j, hj, hlimit⟩ | ⟨hnone, -⟩)
      · rwa [hi.unique hj]
      · exact absurd hi (hnone i)
  · push Not at hexists
    have hmeets : (∃ n, 1 ≤ n ∧ n ≤ 2048 ∧ AtLimit c.mem n) ↔
        firstCount c.mem % 4 = 0 ∧ firstCount c.mem < 8192 := by
      unfold AtLimit
      constructor
      · rintro ⟨n, hpos, hn, hlimit⟩
        omega
      · rintro ⟨haligned, hlow⟩
        exact ⟨(8192 - firstCount c.mem) / 4, by omega, by omega, by omega⟩
    rw [entryFound_iff_of_noMagic hdf hexists, hmeets]
    constructor
    · intro hlimit
      exact Or.inr ⟨hexists, hlimit⟩
    · rintro (⟨i, hi, -⟩ | ⟨-, hlimit⟩)
      · exact absurd hi (hexists i)
      · exact hlimit

/-- `mov 0x1f1(%edx), %eax`, the first instruction of the trampoline, is at address 0. -/
def TrampolineAtZero (mem : ByteMem) : Prop := read32 mem 0#32 = 0x01f1828b#32

/-- From the code of the trampoline the counter never meets the limit, so that a magic number in the
first 8 KiB is all that ends the search there. -/
theorem entryFound_iff_of_trampoline (hdf : c.df = false) (hcode : TrampolineAtZero c.mem) :
    EntryFound c ↔ ∃ i, FirstMagic c.mem i := by
  have hcount : ∀ n, ¬ AtLimit c.mem n := by
    intro n hlimit
    unfold AtLimit firstCount at hlimit
    rw [hcode, BitVec.toNat_ofNat] at hlimit
    omega
  constructor
  · intro hfound
    by_contra hnone
    push Not at hnone
    obtain ⟨n, -, -, hlimit⟩ := (entryFound_iff_of_noMagic hdf hnone).mp hfound
    exact hcount n hlimit
  · rintro ⟨i, hi⟩
    exact (hi.found_iff hdf).mpr fun ⟨n, _, _, hlimit⟩ => hcount n hlimit

def headerImage : Cpu where
  eax := 0#32
  ecx := 0#32
  edx := 0x90000#32
  ebp := 0#32
  esi := 0#32
  edi := 0#32
  esp := 0#32
  df := false
  mem a := if a.toNat < 4 then (0x01f1828b#32).extractLsb' (8 * a.toNat) 8
    else if 0x400000 ≤ a.toNat ∧ a.toNat < 0x400004 then
      MULTIBOOT_HEADER_MAGIC.extractLsb' (8 * (a.toNat - 0x400000)) 8
    else 0#8

theorem entryFound_headerImage : headerImage.df = false ∧ EntryFound headerImage := by
  refine ⟨rfl, (entryFound_iff rfl).mpr (Or.inl ⟨0, ⟨by decide, by decide, ?_⟩, by decide⟩)⟩
  exact fun j hj => absurd hj (Nat.not_lt_zero j)

/-! ## 6. A search that does not end -/

theorem run_findHeader_never (hmagic : ∀ a, read32 c.mem a ≠ MULTIBOOT_HEADER_MAGIC)
    (hcount : firstCount c.mem % 4 ≠ 0) (bound : Nat) :
    Loop.run findHeaderStep bound (startSearch c) = none := by
  apply Loop.run_eq_none_of_invariant _ fun c' => c'.mem = c.mem ∧ c'.ecx.toNat % 4 ≠ 0
  · rintro c' ⟨hmem, hecx⟩
    have hnext : (c'.ecx + 4#32).toNat % 4 ≠ 0 := by
      rw [BitVec.toNat_add, show (4#32).toNat = 4 from rfl]
      omega
    have hlimit : c'.ecx + 4#32 ≠ 8#32 * MEM_1K := by
      intro heq
      rw [heq] at hnext
      exact hnext rfl
    unfold findHeaderStep
    dsimp only
    rw [hmem, if_neg (hmagic _), if_neg hlimit]
    exact ⟨_, rfl, rfl, hnext⟩
  · exact ⟨rfl, hcount⟩

/-- Nothing below 4 MiB brings a byte of the magic number. -/
theorem multiboot_mem_ne (hbytes : ∀ a, c.mem a ≠ 0x1b#8) (a : BitVec 32) :
    (copyCmdline (storeMultiboot c)).mem a ≠ 0x1b#8 := by
  have hwrite : ∀ (mem : ByteMem) (a₀ v : BitVec 32),
      (∀ k, k < 4 → v.extractLsb' (8 * k) 8 ≠ 0x1b#8) →
      (∀ a, mem a ≠ 0x1b#8) → ∀ a, write32 mem a₀ v a ≠ 0x1b#8 := by
    intro mem a₀ v hv hmem a
    unfold write32
    split
    · next hlt => exact hv _ hlt
    · exact hmem a
  have hstore : ∀ a, (storeMultiboot c).mem a ≠ 0x1b#8 := by
    unfold storeMultiboot Cpu.storeEax
    dsimp only
    exact hwrite _ _ _ (by decide)
      (hwrite _ _ _ (by decide) (hwrite _ _ _ (by decide) (hwrite _ _ _ (by decide) hbytes)))
  unfold copyCmdline
  rw [repMovsb_eq]
  obtain ⟨b, hb⟩ := copyCells_mem a
  exact fun heq => hstore b (hb.symm.trans heq)

theorem read32_ne_magic {mem : ByteMem} (hbytes : ∀ a, mem a ≠ 0x1b#8) (a : BitVec 32) :
    read32 mem a ≠ MULTIBOOT_HEADER_MAGIC := by
  intro heq
  have htop : (read32 mem a).extractLsb' 24 8 = mem (a + 3#32) := by
    rw [read32, BitVec.extractLsb'_append_eq_of_le (by decide),
      BitVec.extractLsb'_append_eq_of_le (by decide),
      BitVec.extractLsb'_append_eq_of_le (by decide)]
    exact BitVec.extractLsb'_eq_self
  apply hbytes (a + 3#32)
  rw [← htop, heq]
  decide

/-- An image of zeros behind the code of the trampoline. -/
def zeroImage : Cpu := { headerImage with
  mem := fun a => if a.toNat < 4 then (0x01f1828b#32).extractLsb' (8 * a.toNat) 8 else 0#8 }

/-- **The slip**: without a header the search goes on for ever. -/
theorem enterImage_never_ends :
    TrampolineAtZero zeroImage.mem ∧ (∀ passes, enterImage passes zeroImage = none) ∧
      ¬ EntryFound zeroImage := by
  have hbytes : ∀ a, zeroImage.mem a ≠ 0x1b#8 := by
    intro a
    have hcode : ∀ k, k < 4 → (0x01f1828b#32).extractLsb' (8 * k) 8 ≠ 0x1b#8 := by decide
    dsimp only [zeroImage]
    split
    · next hlt => exact hcode _ hlt
    · decide
  have hnever : ∀ passes, enterImage passes zeroImage = none := by
    intro passes
    have hcount : firstCount (copyCmdline (storeMultiboot zeroImage)).mem % 4 ≠ 0 := by
      rw [firstCount_multiboot rfl]
      decide
    rw [enterImage, run_findHeader_never (read32_ne_magic (multiboot_mem_ne hbytes)) hcount,
      Option.map_none]
  refine ⟨(by decide : read32 zeroImage.mem 0#32 = 0x01f1828b#32), hnever, ?_⟩
  rintro ⟨c', hc', -⟩
  rw [hnever] at hc'
  cases hc'

end Entry

end AcrnGuest.BootStub
