import Mathlib.Data.Nat.Bitwise
import Mathlib.Logic.Function.Basic
import Mathlib.Tactic.Common

/-!
# Words, masks, pages and physical memory

The 64-bit guest library works on `unsigned long` values and on memory that it
reads and writes as aligned 64-bit words: freelist links, page-table entries
and allocator metadata. `Mem` maps the address of each such word to its
content. Pages are named by their base address, and `pageOf` gives the page
that holds a word.

The masks are those of `lib/bitops.h` and `lib/x86/asm/page.h`. Every lemma
about them is a consequence of `toNat_and_GENMASK_ULL`, which turns a mask into
division and remainder, so that `omega` can reason about fields.
-/

namespace AcrnGuest

/-- `unsigned long`, `uintptr_t`, `u64` and pointers of the x86_64 build. -/
abbrev Word := BitVec 64

theorem append_bytes (v : BitVec 32) :
    v.extractLsb' 24 8 ++ v.extractLsb' 16 8 ++ v.extractLsb' 8 8 ++ v.extractLsb' 0 8 = v := by
  rw [BitVec.extractLsb'_append_extractLsb'_eq_extractLsb' (by rfl),
    BitVec.extractLsb'_append_extractLsb'_eq_extractLsb' (by rfl),
    BitVec.extractLsb'_append_extractLsb'_eq_extractLsb' (by rfl)]
  exact BitVec.extractLsb'_eq_self

/-! ### Bit masks -/

/-- Contiguous mask of the bits `l` to `h`, both included. -/
def GENMASK_ULL (h l : Nat) : Word := ((~~~ 0#64) <<< l) &&& ((~~~ 0#64) >>> (64 - 1 - h))

theorem getLsbD_GENMASK_ULL {h l i : Nat} (hh : h < 64) :
    (GENMASK_ULL h l).getLsbD i = (decide (l ≤ i) && decide (i ≤ h)) := by
  simp only [GENMASK_ULL, BitVec.getLsbD_and, BitVec.getLsbD_shiftLeft,
    BitVec.getLsbD_ushiftRight, BitVec.getLsbD_not, BitVec.getLsbD_zero]
  rw [Bool.eq_iff_iff]
  simp
  omega

/-- Masking keeps the bits below `h + 1` and clears those below `l`. -/
theorem toNat_and_GENMASK_ULL (a : Word) {h l : Nat} (hh : h < 64) :
    (a &&& GENMASK_ULL h l).toNat = a.toNat % 2 ^ (h + 1) / 2 ^ l * 2 ^ l := by
  apply Nat.eq_of_testBit_eq
  intro i
  rw [BitVec.testBit_toNat, BitVec.getLsbD_and, getLsbD_GENMASK_ULL hh, ← BitVec.testBit_toNat,
    Nat.testBit_mul_two_pow, Nat.testBit_div_two_pow, Nat.testBit_mod_two_pow, Bool.eq_iff_iff]
  simp only [Bool.and_eq_true, decide_eq_true_eq]
  constructor
  · rintro ⟨hbit, hlow, hhigh⟩
    refine ⟨hlow, by omega, ?_⟩
    rwa [Nat.sub_add_cancel hlow]
  · rintro ⟨hlow, hhigh, hbit⟩
    rw [Nat.sub_add_cancel hlow] at hbit
    exact ⟨hbit, hlow, by omega⟩

theorem and_not_and {e a k : Word} (h : a &&& k = 0#64) : e &&& ~~~ a &&& k = e &&& k := by
  apply BitVec.eq_of_getLsbD_eq
  intro i hi
  have hbit : (a &&& k).getLsbD i = false := by rw [h, BitVec.getLsbD_zero]
  simp only [BitVec.getLsbD_and, BitVec.getLsbD_not, hi] at hbit ⊢
  revert hbit
  cases e.getLsbD i <;> cases a.getLsbD i <;> cases k.getLsbD i <;> decide

theorem and_not_and_self (e a : Word) : e &&& ~~~ a &&& a = 0#64 := by
  rw [BitVec.and_assoc, BitVec.not_and_self]
  exact BitVec.and_zero

theorem and_of_and_eq {e a b v : Word} (h : e &&& a = v) (hab : a &&& b = b) :
    e &&& b = v &&& b := by
  rw [← h, BitVec.and_assoc, hab]

/-! ### Pages -/

def PAGE_SHIFT : Nat := 12
def PAGE_SIZE : Word := 1#64 <<< PAGE_SHIFT
def PAGE_MASK : Word := ~~~ (PAGE_SIZE - 1)

@[simp] theorem toNat_PAGE_SIZE : PAGE_SIZE.toNat = 4096 := by decide

theorem PAGE_SIZE_eq : PAGE_SIZE = 4096#64 := by decide

def pageOf (a : Word) : Word := a &&& PAGE_MASK

def IsPage (p : Word) : Prop := pageOf p = p

instance (p : Word) : Decidable (IsPage p) := inferInstanceAs (Decidable (pageOf p = p))

theorem toNat_pageOf (a : Word) : (pageOf a).toNat = a.toNat / 4096 * 4096 := by
  have hmask : PAGE_MASK = GENMASK_ULL 63 12 := by decide
  rw [pageOf, hmask, toNat_and_GENMASK_ULL a (by omega)]
  have := a.isLt
  omega

theorem pageOf_eq_iff {a p : Word} : pageOf a = p ↔ a.toNat / 4096 * 4096 = p.toNat := by
  rw [← BitVec.toNat_inj, toNat_pageOf]

theorem pageOf_eq_pageOf_iff {a b : Word} : pageOf a = pageOf b ↔
    a.toNat / 4096 = b.toNat / 4096 := by
  rw [pageOf_eq_iff, toNat_pageOf]
  omega

theorem isPage_iff {p : Word} : IsPage p ↔ p.toNat % 4096 = 0 := by
  rw [IsPage, pageOf_eq_iff]
  omega

theorem isPage_pageOf (a : Word) : IsPage (pageOf a) := by
  rw [isPage_iff, toNat_pageOf]
  omega

/-- The test `(unsigned long) mem % PAGE_SIZE == 0` of the sources. -/
theorem umod_PAGE_SIZE_eq_zero_iff {a : Word} : a % PAGE_SIZE = 0#64 ↔ IsPage a := by
  rw [isPage_iff, ← BitVec.toNat_inj, BitVec.toNat_umod, toNat_PAGE_SIZE]
  rfl

/-- Adding pages below the end of the address space. -/
theorem IsPage.add {p d : Word} (hp : IsPage p) (hd : IsPage d) : IsPage (p + d) := by
  rw [isPage_iff] at *
  rw [BitVec.toNat_add]
  omega

theorem isPage_PAGE_SIZE : IsPage PAGE_SIZE := by decide

theorem div_eq_iff_of_aligned {n va c : Nat} (hn : n % 2 ^ c = 0) :
    va / 2 ^ c = n / 2 ^ c ↔ n ≤ va ∧ va < n + 2 ^ c := by
  obtain ⟨q, rfl⟩ := Nat.dvd_of_mod_eq_zero hn
  rw [Nat.mul_div_cancel_left q (Nat.two_pow_pos c), Nat.div_eq_iff (Nat.two_pow_pos c),
    Nat.mul_comm q]
  have := Nat.two_pow_pos c
  omega

/-- A frame aligned to `2 ^ c` that is found with page granularity. -/
theorem div_mul_eq_of_frame {n frame c : Nat} (hframe : n / 4096 * 4096 = frame) (hc : 12 ≤ c)
    (haligned : frame % 2 ^ c = 0) : n / 2 ^ c * 2 ^ c = frame := by
  have hpow : 2 ^ 12 ≤ 2 ^ c := Nat.pow_le_pow_right (by omega) hc
  rw [(div_eq_iff_of_aligned haligned).mpr ⟨by omega, by omega⟩]
  exact Nat.div_mul_cancel (Nat.dvd_of_mod_eq_zero haligned)

/-! ### Rounding up -/

def ALIGN (x a : Word) : Word := (x + (a - 1#64)) &&& ~~~ (a - 1#64)

theorem toNat_two_pow {k : Nat} (hk : k < 64) : (BitVec.ofNat 64 (2 ^ k)).toNat = 2 ^ k := by
  rw [BitVec.toNat_ofNat, Nat.mod_eq_of_lt (Nat.pow_lt_pow_right (by omega) hk)]

theorem toNat_two_pow_sub_one {k : Nat} (hk : k < 64) :
    (BitVec.ofNat 64 (2 ^ k) - 1#64).toNat = 2 ^ k - 1 := by
  have hpos := Nat.two_pow_pos k
  have hlt := (BitVec.ofNat 64 (2 ^ k)).isLt
  rw [toNat_two_pow hk] at hlt
  rw [BitVec.toNat_sub, toNat_two_pow hk, BitVec.toNat_ofNat]
  omega

theorem not_two_pow_sub_one {k : Nat} (hk : k < 64) :
    ~~~ (BitVec.ofNat 64 (2 ^ k) - 1#64) = GENMASK_ULL 63 k := by
  apply BitVec.eq_of_getLsbD_eq
  intro i hi
  rw [getLsbD_GENMASK_ULL (by omega), BitVec.getLsbD_not, BitVec.getLsbD,
    toNat_two_pow_sub_one hk, Nat.testBit_two_pow_sub_one]
  rw [Bool.eq_iff_iff]
  simp
  omega

theorem toNat_ALIGN {k : Nat} (hk : k < 64) (x : Word) :
    (ALIGN x (BitVec.ofNat 64 (2 ^ k))).toNat =
      (x.toNat + (2 ^ k - 1)) % 2 ^ 64 / 2 ^ k * 2 ^ k := by
  rw [ALIGN, not_two_pow_sub_one hk, toNat_and_GENMASK_ULL _ (by omega), BitVec.toNat_add,
    toNat_two_pow_sub_one hk, Nat.mod_mod]

def roundUp (x m : Nat) : Nat := (x + (2 ^ m - 1)) / 2 ^ m * 2 ^ m

theorem le_roundUp (x m : Nat) : x ≤ roundUp x m := by
  have hdiv := Nat.div_add_mod (x + (2 ^ m - 1)) (2 ^ m)
  have hmod := Nat.mod_lt (x + (2 ^ m - 1)) (Nat.two_pow_pos m)
  rw [Nat.mul_comm] at hdiv
  unfold roundUp
  omega

theorem roundUp_lt (x m : Nat) : roundUp x m < x + 2 ^ m := by
  have hpos := Nat.two_pow_pos m
  have hle := Nat.div_mul_le_self (x + (2 ^ m - 1)) (2 ^ m)
  unfold roundUp
  omega

theorem roundUp_mod (x m : Nat) : roundUp x m % 2 ^ m = 0 := Nat.mul_mod_left _ _

/-- The end of the address space is a multiple of every alignment. -/
theorem roundUp_lt_iff {x m : Nat} (hm : m ≤ 64) : roundUp x m < 2 ^ 64 ↔
    x + (2 ^ m - 1) < 2 ^ 64 := by
  have hpow : 2 ^ 64 = 2 ^ (64 - m) * 2 ^ m := by rw [← Nat.pow_add, Nat.sub_add_cancel hm]
  rw [roundUp, hpow, Nat.mul_lt_mul_right (Nat.two_pow_pos m),
    Nat.div_lt_iff_lt_mul (Nat.two_pow_pos m)]

/-- `ALIGN` rounds up, and gives `0` where that leaves the address space. -/
theorem toNat_ALIGN_eq {k : Nat} (hk : k < 64) (x : Word) :
    (ALIGN x (BitVec.ofNat 64 (2 ^ k))).toNat =
      if roundUp x.toNat k < 2 ^ 64 then roundUp x.toNat k else 0 := by
  have hpos := Nat.two_pow_pos k
  have hlt := x.isLt
  have hpow : 2 ^ k < 2 ^ 64 := Nat.pow_lt_pow_right (by omega) hk
  rw [toNat_ALIGN hk]
  split_ifs with hfits
  · rw [roundUp_lt_iff (by omega)] at hfits
    rw [Nat.mod_eq_of_lt hfits, roundUp]
  · rw [roundUp_lt_iff (by omega)] at hfits
    rw [Nat.div_eq_of_lt (by omega), Nat.zero_mul]

theorem toNat_ALIGN_of_le {x : Word} {k : Nat} (hk : k < 64) (hx : x.toNat + 2 ^ k ≤ 2 ^ 64) :
    (ALIGN x (BitVec.ofNat 64 (2 ^ k))).toNat = (x.toNat + (2 ^ k - 1)) / 2 ^ k * 2 ^ k := by
  have hpos := Nat.two_pow_pos k
  rw [toNat_ALIGN hk, Nat.mod_eq_of_lt (by omega)]

/-! ### Word memory -/

/-- The contents of the aligned 64-bit words, by address. -/
abbrev Mem := Word → Word

/-- `memset(s, c, n)` for a range of whole words. -/
def memset (m : Mem) (s : Word) (c : BitVec 8) (n : Word) : Mem :=
  fun a => if a - s < n then c.setWidth 64 * 0x0101010101010101#64 else m a

/-- The words of a page are those `memset(p, 0, PAGE_SIZE)` writes. -/
theorem sub_lt_PAGE_SIZE_iff {a p : Word} (hp : IsPage p) : a - p < PAGE_SIZE ↔ pageOf a = p := by
  rw [isPage_iff] at hp
  rw [pageOf_eq_iff, BitVec.lt_def, toNat_PAGE_SIZE, BitVec.toNat_sub]
  have := a.isLt
  have := p.isLt
  omega

theorem memset_zero_page {m : Mem} {p : Word} (hp : IsPage p) (a : Word) :
    memset m p 0#8 PAGE_SIZE a = if pageOf a = p then 0#64 else m a := by
  simp only [memset, sub_lt_PAGE_SIZE_iff hp]
  rfl

/-! ### Tables of 512 entries -/

def entryAddr (pt offset : Word) : Word := pt + 8#64 * offset

def slot (p : Word) (i : Fin 512) : Word := entryAddr p (BitVec.ofNat 64 i)

theorem toNat_slot {p : Word} (hp : IsPage p) (i : Fin 512) :
    (slot p i).toNat = p.toNat + 8 * i := by
  rw [isPage_iff] at hp
  have := p.isLt
  have := i.isLt
  simp only [slot, entryAddr, BitVec.toNat_add, BitVec.toNat_mul, BitVec.toNat_ofNat]
  omega

theorem pageOf_slot {p : Word} (hp : IsPage p) (i : Fin 512) : pageOf (slot p i) = p := by
  rw [pageOf_eq_iff, toNat_slot hp]
  rw [isPage_iff] at hp
  have := i.isLt
  omega

theorem slot_injective {p : Word} (hp : IsPage p) : Function.Injective (slot p) := by
  intro i j hij
  have h := congrArg BitVec.toNat hij
  rw [toNat_slot hp, toNat_slot hp] at h
  exact Fin.ext (by omega)

end AcrnGuest
