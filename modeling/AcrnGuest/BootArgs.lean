import AcrnGuest.BzImageEntry
import AcrnGuest.SetupArgs

/-!
# The command line on its way to `main`

The packer tells the boot loader in the setup header how long a command line may be, the
stub copies 2 KiB of it below 4 MiB and notes the address in the multiboot information, and
the start-up code hands that address to `__setup_args`. A line of the advertised length
arrives whole, but nothing relates this length to the arrays of `__setup_args`.

The stub is modelled from the end of the image copy on. Between the stub and `__setup_args`
nothing writes to the multiboot information or to the copy of the line.
-/

namespace AcrnGuest.BootStub

open ByteCopy Delimited Words

/-! ## 1. The source -/

def cmdlineSize (file : List (BitVec 8)) : Nat :=
  (file.getD 0x23b 0#8 ++ file.getD 0x23a 0#8 ++ file.getD 0x239 0#8 ++ file.getD 0x238 0#8).toNat

def textFrom (mem : ByteMem) : Nat → BitVec 32 → List (BitVec 8)
  | 0, _ => []
  | n + 1, a => if mem a = 0#8 then [] else mem a :: textFrom mem n (a + 1#32)

theorem zero_notMem_textFrom (mem : ByteMem) (n : Nat) (a : BitVec 32) :
    0#8 ∉ textFrom mem n a := by
  induction n generalizing a with
  | zero => exact List.not_mem_nil
  | succ n ih =>
      rw [textFrom]
      split
      · exact List.not_mem_nil
      · next hne =>
          intro hmem
          rcases List.mem_cons.mp hmem with hzero | hrest
          · exact hne hzero.symm
          · exact ih _ hrest

/-- The line at `mb_cmdline`, which becomes `__args`. -/
def bootCmdline (c : Cpu) : CString :=
  ⟨textFrom c.mem (2 ^ 32) (read32 c.mem (MBI_ADDRESS + MBI_CMDLINE)), zero_notMem_textFrom _ _ _⟩

theorem bootCmdline_chars (c : Cpu) :
    (bootCmdline c).chars = textFrom c.mem (2 ^ 32)
      (read32 c.mem (MBI_ADDRESS + MBI_CMDLINE)) := rfl

/-- From the end of the image copy to the end of `__setup_args`. -/
def bootArgs (c : Cpu) : Option Args :=
  setupArgs .initial (bootCmdline (copyCmdline (storeMultiboot c)))

/-! ## 2. The way of the line -/

theorem cmdlineSize_eq {binary relocator file : List (BitVec 8)} {entryOffset : Int}
    (h : mkBzimage binary relocator entryOffset = some file) : cmdlineSize file = 2047 := by
  have hfield : ∀ k, k < 4 → file.getD (0x238 + k) 0#8 =
      [0xFF#8, 0x07#8, 0x00#8, 0x00#8].getD k 0#8 := by
    intro k hk
    unfold mkBzimage at h
    split at h
    · cases h
    · cases h
      simp only [List.append_assoc]
      rw [List.getD_append_right _ _ _ _ (by rw [length_bootSector]; omega), length_bootSector,
        List.getD_append _ _ _ _ (by rw [length_setupHeader]; omega)]
      rcases (by omega : k = 0 ∨ k = 1 ∨ k = 2 ∨ k = 3) with rfl | rfl | rfl | rfl <;> rfl
  rw [cmdlineSize, hfield 0 (by decide), hfield 1 (by decide), hfield 2 (by decide),
    hfield 3 (by decide)]
  rfl

/-- The memory holds the text `s` at `a`, and a NUL behind it. -/
def TextAt (mem : ByteMem) (a : BitVec 32) (s : List (BitVec 8)) : Prop :=
  ∀ k, k ≤ s.length → mem (a + BitVec.ofNat 32 k) = s.getD k 0#8

theorem TextAt.tail {mem : ByteMem} {a : BitVec 32} {c : BitVec 8} {s : List (BitVec 8)}
    (h : TextAt mem a (c :: s)) : mem a = c ∧ TextAt mem (a + 1#32) s := by
  constructor
  · have hfirst := h 0 (Nat.zero_le _)
    rwa [BitVec.add_zero] at hfirst
  · intro k hk
    have hnext := h (k + 1) (Nat.succ_le_succ hk)
    rwa [Nat.add_comm, BitVec.ofNat_add, ← BitVec.add_assoc, Nat.add_comm,
      List.getD_cons_succ] at hnext

theorem textFrom_eq {mem : ByteMem} {a : BitVec 32} {s : List (BitVec 8)} {n : Nat}
    (h : TextAt mem a s) (hnul : 0#8 ∉ s) (hn : s.length < n) : textFrom mem n a = s := by
  induction s generalizing a n with
  | nil =>
      obtain ⟨n, rfl⟩ := Nat.exists_eq_add_one_of_ne_zero (Nat.ne_of_gt hn)
      have hend : mem (a + 0#32) = 0#8 := h 0 (Nat.le_refl 0)
      rw [BitVec.add_zero] at hend
      rw [textFrom, if_pos hend]
  | cons c s ih =>
      obtain ⟨n, rfl⟩ := Nat.exists_eq_add_one_of_ne_zero (Nat.ne_of_gt (Nat.zero_lt_of_lt hn))
      obtain ⟨hc, htail⟩ := h.tail
      have hne : c ≠ 0#8 := fun hzero => hnul (hzero ▸ List.mem_cons_self ..)
      rw [textFrom, hc, if_neg hne, ih htail (fun hmem => hnul (List.mem_cons_of_mem c hmem))
        (Nat.lt_of_succ_lt_succ hn)]

/-- The zero page points to the command line, and neither of them is in the last 4 KiB below 4
MiB. -/
structure CmdlineAt (c : Cpu) (cmdline : CString) : Prop where
  pointer : (c.edx + ZEROPAGE_CMDLINE_PTR).toNat + 4 ≤ 0x3ff000 ∨
    0x400000 ≤ (c.edx + ZEROPAGE_CMDLINE_PTR).toNat ∧
      (c.edx + ZEROPAGE_CMDLINE_PTR).toNat + 4 ≤ 2 ^ 32
  text : TextAt c.mem (read32 c.mem (c.edx + ZEROPAGE_CMDLINE_PTR)) cmdline.chars
  outside : (read32 c.mem (c.edx + ZEROPAGE_CMDLINE_PTR)).toNat + cmdline.chars.length < 0x3ff000 ∨
    0x400000 ≤ (read32 c.mem (c.edx + ZEROPAGE_CMDLINE_PTR)).toNat ∧
      (read32 c.mem (c.edx + ZEROPAGE_CMDLINE_PTR)).toNat + cmdline.chars.length < 2 ^ 32

section Copy

variable {c : Cpu} {cmdline : CString} {a : BitVec 32}

theorem copyCmdline_below (hdf : c.df = false) (ha : a.toNat < 0x3ff800) :
    (copyCmdline c).mem a = c.mem a := by
  unfold copyCmdline
  refine repMovsb_outside (n := 0x800) ?_ ?_ (show CMDLINE_ADDRESS.toNat = 0x3ff800 from rfl)
    (by decide) (Or.inl ha)
  · rfl
  · exact hdf

/-- Each of the 2048 bytes arrives, as none of them is read from the destination. -/
theorem copyCmdline_copied (hdf : c.df = false)
    (hsrc : (read32 c.mem (c.edx + ZEROPAGE_CMDLINE_PTR)).toNat ≤ 0x3ff000 ∨
      0x400000 ≤ (read32 c.mem (c.edx + ZEROPAGE_CMDLINE_PTR)).toNat) {k : Nat} (hk : k < 0x800) :
    (copyCmdline c).mem (CMDLINE_ADDRESS + BitVec.ofNat 32 k) =
      c.mem (read32 c.mem (c.edx + ZEROPAGE_CMDLINE_PTR) + BitVec.ofNat 32 k) := by
  unfold copyCmdline
  dsimp only
  generalize read32 c.mem (c.edx + ZEROPAGE_CMDLINE_PTR) = src at hsrc ⊢
  have hmoved := repMovsb_moves (c := { c with esi := src, edi := CMDLINE_ADDRESS, ecx := MEM_2K })
    (n := 0x800) (p := fun k => (src + BitVec.ofNat 32 k).toNat)
    (q := fun k => (CMDLINE_ADDRESS + BitVec.ofNat 32 k).toNat) rfl
    (fun k _ => congrArg BitVec.toNat (cell_forward hdf src k))
    (fun k _ => congrArg BitVec.toNat (cell_forward hdf CMDLINE_ADDRESS k)) ?_ hk
  · rwa [BitVec.ofNat_toNat, BitVec.ofNat_toNat, BitVec.setWidth_eq, BitVec.setWidth_eq] at hmoved
  · intro j k hjk hk
    simp only [BitVec.toNat_add, BitVec.toNat_ofNat, show CMDLINE_ADDRESS.toNat = 0x3ff800 from rfl]
    have hlt := src.isLt
    omega

theorem storeMultiboot_edx (c : Cpu) : (storeMultiboot c).edx = c.edx := by
  unfold storeMultiboot Cpu.storeEax
  rfl

theorem bootCmdline_address (hdf : c.df = false) :
    read32 (copyCmdline (storeMultiboot c)).mem (MBI_ADDRESS + MBI_CMDLINE) = CMDLINE_ADDRESS := by
  have hkept : read32 (copyCmdline (storeMultiboot c)).mem (MBI_ADDRESS + MBI_CMDLINE) =
      read32 (storeMultiboot c).mem (MBI_ADDRESS + MBI_CMDLINE) := by
    apply read32_congr
    intro k hk
    apply copyCmdline_below ((storeMultiboot_df c).trans hdf)
    rw [BitVec.toNat_add, BitVec.toNat_ofNat,
      show (MBI_ADDRESS + MBI_CMDLINE).toNat = 0x3ff010 from rfl]
    omega
  rw [hkept]
  unfold storeMultiboot Cpu.storeEax
  exact read32_write32

theorem cstring_eq {s t : CString} (h : s.chars = t.chars) : s = t := by
  cases s
  cases t
  cases h
  rfl

theorem bootCmdline_eq (hdf : c.df = false) (hat : CmdlineAt c cmdline)
    (hlength : cmdline.chars.length ≤ 2047) :
    bootCmdline (copyCmdline (storeMultiboot c)) = cmdline := by
  have hdf' : (storeMultiboot c).df = false := (storeMultiboot_df c).trans hdf
  have hout := hat.outside
  have hpointer : read32 (storeMultiboot c).mem (c.edx + ZEROPAGE_CMDLINE_PTR) =
      read32 c.mem (c.edx + ZEROPAGE_CMDLINE_PTR) := by
    have hfield := hat.pointer
    apply read32_congr
    intro k hk
    apply storeMultiboot_outside
    rw [BitVec.toNat_add, BitVec.toNat_ofNat]
    omega
  have htext : TextAt (copyCmdline (storeMultiboot c)).mem CMDLINE_ADDRESS cmdline.chars := by
    intro k hk
    rw [copyCmdline_copied hdf' (by rw [storeMultiboot_edx, hpointer]; omega) (by omega),
      storeMultiboot_edx, hpointer, ← hat.text k hk]
    apply storeMultiboot_outside
    rw [BitVec.toNat_add, BitVec.toNat_ofNat]
    omega
  apply cstring_eq
  rw [bootCmdline_chars, bootCmdline_address hdf]
  exact textFrom_eq htext cmdline.nul (by omega)

/-- **The advertised length is not a bound for the arguments.** For every line of at most the length
in the header, `__setup_args` stays in its arrays exactly if the line has at most 100 words, and at
most 1000 characters in them and their NULs. -/
theorem bootArgs_isSome_iff {binary relocator file : List (BitVec 8)} {entryOffset : Int}
    (hfile : mkBzimage binary relocator entryOffset = some file) (hdf : c.df = false)
    (hat : CmdlineAt c cmdline) (hlength : cmdline.chars.length ≤ cmdlineSize file) :
    (∃ a, bootArgs c = some a) ↔
      (words isblank cmdline.chars).length ≤ 100 ∧
        (joined [0#8] (words isblank cmdline.chars)).length ≤ 1000 := by
  rw [cmdlineSize_eq hfile] at hlength
  rw [bootArgs, bootCmdline_eq hdf hat hlength,
    setupArgs_eq_some_iff (show 0 ≤ ARGV_SIZE by decide) (show 0 ≤ ARGS_COPY_SIZE by decide),
    Args.Fits]
  change 0 + _ ≤ 100 ∧ 0 + _ ≤ 1000 ↔ _
  rw [Nat.zero_add, Nat.zero_add]

/-- A zero page at `0x1000` with a command line at `0x2000`. -/
def cmdlineCpu (cmdline : CString) : Cpu where
  eax := 0#32
  ecx := 0#32
  edx := 0x1000#32
  ebp := 0#32
  esi := 0#32
  edi := 0#32
  esp := 0#32
  df := false
  mem := write32 (fun a => if a.toNat < 0x2000 then 0#8
    else cmdline.chars.getD (a.toNat - 0x2000) 0#8) 0x1228#32
    0x2000#32

theorem cmdlineAt_cmdlineCpu (cmdline : CString) (hlength : cmdline.chars.length ≤ 2047) :
    CmdlineAt (cmdlineCpu cmdline) cmdline := by
  have hmem : (cmdlineCpu cmdline).mem = write32
      (fun a => if a.toNat < 0x2000 then 0#8
        else cmdline.chars.getD (a.toNat - 0x2000) 0#8) 0x1228#32 0x2000#32 := rfl
  have hfield : (cmdlineCpu cmdline).edx + ZEROPAGE_CMDLINE_PTR = 0x1228#32 := rfl
  have hpointer : read32 (cmdlineCpu cmdline).mem
      ((cmdlineCpu cmdline).edx + ZEROPAGE_CMDLINE_PTR) = 0x2000#32 := by
    rw [hmem, hfield, read32_write32]
  constructor
  · rw [hfield]
    exact Or.inl (by decide)
  · rw [hpointer, hmem]
    intro k hk
    have haddr : (0x2000#32 + BitVec.ofNat 32 k).toNat = 0x2000 + k := by
      rw [BitVec.toNat_add, BitVec.toNat_ofNat, BitVec.toNat_ofNat]
      omega
    have hbehind : (0x1228#32).toNat + 4 ≤ 0x2000 + k :=
      Nat.le_trans (by decide) (Nat.le_add_right 0x2000 k)
    rw [write32_of_outside (by decide) (Or.inr (by rw [haddr]; exact hbehind)), haddr,
      if_neg (by omega), Nat.add_sub_cancel_left]
  · rw [hpointer]
    exact Or.inl (by rw [BitVec.toNat_ofNat]; omega)

theorem exists_file : ∃ file, mkBzimage [] [] 0 = some file := mkBzimage_isSome (by decide)

/-- The line `a b` is stored. -/
theorem bootArgs_of_two_words :
    ∃ a, bootArgs (cmdlineCpu ⟨[ch 'a', ch ' ', ch 'b'], by decide⟩) = some a := by
  obtain ⟨file, hfile⟩ := exists_file
  refine (bootArgs_isSome_iff hfile rfl (cmdlineAt_cmdlineCpu _ (by decide)) ?_).mpr (by decide)
  rw [cmdlineSize_eq hfile]
  decide

/-- A word `n` times, with blanks between. -/
def repeated (n : Nat) : List (BitVec 8) := (List.replicate n [ch 'a', ch ' ']).flatten

theorem zero_notMem_repeated (n : Nat) : 0#8 ∉ repeated n := by
  intro hmem
  obtain ⟨piece, hpiece, hzero⟩ := List.mem_flatten.mp hmem
  rw [List.eq_of_mem_replicate hpiece] at hzero
  revert hzero
  decide

theorem words_repeated (n : Nat) : words isblank (repeated n) = List.replicate n [ch 'a'] := by
  induction n with
  | zero => rfl
  | succ n ih =>
      have hrun : Run isblank [ch 'a'] (ch ' ' :: repeated n) :=
        ⟨by decide, by decide, fun c hc => by rw [← Option.some.inj hc]; decide⟩
      have hline : repeated (n + 1) = [ch 'a'] ++ ch ' ' :: repeated n := rfl
      rw [hline, words_run hrun, words_cons_blank (by decide), ih]
      rfl

/-- **Too many words.** A line of 202 characters with 101 words is far below the advertised 2047
characters, and `__setup_args` stores a pointer behind `__argv`. -/
theorem bootArgs_of_101_words : ∃ (file : List (BitVec 8)) (c : Cpu) (cmdline : CString),
    mkBzimage [] [] 0 = some file ∧ c.df = false ∧ CmdlineAt c cmdline ∧
      cmdline.chars.length = 202 ∧
      cmdline.chars.length ≤ cmdlineSize file ∧ bootArgs c = none := by
  obtain ⟨file, hfile⟩ := exists_file
  have hlength : (repeated 101).length = 202 := by
    rw [repeated, List.length_flatten, List.map_replicate, List.sum_replicate]
    rfl
  obtain ⟨cmdline, hchars⟩ : ∃ cmdline : CString, cmdline.chars = repeated 101 :=
    ⟨⟨_, zero_notMem_repeated 101⟩, rfl⟩
  rw [← hchars] at hlength
  have hat := cmdlineAt_cmdlineCpu cmdline (by omega)
  have hsize : cmdline.chars.length ≤ cmdlineSize file := by
    rw [cmdlineSize_eq hfile]
    omega
  have hmany : ¬ Args.initial.Fits 0 (words isblank cmdline.chars) := by
    rw [hchars, words_repeated]
    intro hfits
    exact absurd hfits.1 (by rw [List.length_replicate]; decide)
  refine ⟨file, cmdlineCpu cmdline, cmdline, hfile, rfl, hat, hlength, hsize, ?_⟩
  rw [bootArgs, bootCmdline_eq rfl hat (by omega), setupArgs_eq_none (by decide) (by decide) hmany]

end Copy

end AcrnGuest.BootStub
