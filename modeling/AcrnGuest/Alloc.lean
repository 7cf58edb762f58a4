import AcrnGuest.VmallocRuns

/-!
# The malloc layer over any backend (`lib/alloc.c`)

`memalign` asks the backend in `alloc_ops` for a block that is larger than what was
asked for, aligns an address in it and keeps the distance to the start of the block
and its size in the two words below that address. `free` reads the two words back.

`AllocOps` holds the operations of a backend, together with the way memory is
accessed while the backend is in use. The layout of a block is arithmetic that is
the same for all of them (`LaidOut`); that the two words can be read back rests on
`Accessible`.
-/

namespace AcrnGuest.Alloc

/-! ### The source -/

/-- `struct alloc_ops`, and the accesses to memory through the address space in use.
    A result `none` is a failed assertion or a fault. -/
structure AllocOps (σ : Type) where
  memalign : σ → Word → Word → Option (Word × σ)
  free : Option (σ → Word → Word → Option σ)
  alignMin : Word
  load : σ → Word → Option Word
  store : σ → Word → Word → Option σ

variable {σ : Type}

def memalign (ops : AllocOps σ) (s : σ) (alignment size : Word) : Option (Word × σ) :=
  let asked := size
  let size := if alignment ≤ 8#64 then asked else asked + (alignment - 1#64)
  let alignment := if alignment ≤ 8#64 then 8#64 else alignment
  let blkalign := if alignment > ops.alignMin then alignment else ops.alignMin
  let size := ALIGN (size + METADATA_EXTRA) ops.alignMin
  (ops.memalign s blkalign size).bind fun block =>
    let p := block.1
    -- leave room for metadata before aligning the result
    let mem := ALIGN (p + METADATA_EXTRA) alignment
    (ops.store block.2 (mem + OFS_SLACK) (mem - p)).bind fun s =>
      (ops.store s (mem + OFS_SIZE) size).map fun s => (mem, s)

/-- `malloc`; `sizeof(long)` is 8. -/
def malloc (ops : AllocOps σ) (s : σ) (size : Word) : Option (Word × σ) := memalign ops s 8#64 size

/-- The whole words of `memset(ptr, 0, n)`. -/
def zeroWords (ops : AllocOps σ) : σ → Word → Nat → Option σ
  | s, _, 0 => some s
  | s, a, n + 1 => (ops.store s a 0#64).bind fun s => zeroWords ops s (a + 8#64) n

/-- `memset(ptr, 0, n)` for a pointer that is aligned to a word. The bytes of the last word
    that lie behind the range are kept. -/
def memsetZero (ops : AllocOps σ) (s : σ) (ptr n : Word) : Option σ :=
  (zeroWords ops s ptr (n.toNat / 8)).bind fun s =>
    if n.toNat % 8 = 0 then some s
    else
      let last := ptr + BitVec.ofNat 64 (8 * (n.toNat / 8))
      (ops.load s last).bind fun old =>
        ops.store s last (old &&& (BitVec.allOnes 64 <<< (8 * (n.toNat % 8))))

def calloc (ops : AllocOps σ) (s : σ) (nmemb size : Word) : Option (Word × σ) :=
  (malloc ops s (nmemb * size)).bind fun r =>
    if r.1 ≠ 0#64 then (memsetZero ops r.2 r.1 (nmemb * size)).map fun s => (r.1, s)
    else some r

def blockBegin (ops : AllocOps σ) (s : σ) (mem : Word) : Option Word :=
  (ops.load s (mem + OFS_SLACK)).map fun slack => mem - slack

def blockSize (ops : AllocOps σ) (s : σ) (mem : Word) : Option Word := ops.load s (mem + OFS_SIZE)

def free (ops : AllocOps σ) (s : σ) (ptr : Word) : Option σ :=
  match ops.free with
  | none => some s
  | some backendFree =>
      (blockBegin ops s ptr).bind fun base =>
        (blockSize ops s ptr).bind fun sz => backendFree s base sz

/-! ### The size of a block -/

/-- The alignment and the size that `memalign` asks the backend for. -/
def blkalign (alignMin alignment : Word) : Word :=
  let alignment := if alignment ≤ 8#64 then 8#64 else alignment
  if alignment > alignMin then alignment else alignMin

def blockBytesFor (alignMin alignment size : Word) : Word :=
  ALIGN ((if alignment ≤ 8#64 then size else size + (alignment - 1#64)) + METADATA_EXTRA) alignMin

theorem memalign_eq (ops : AllocOps σ) (s : σ) (alignment size : Word) :
    memalign ops s alignment size =
      (ops.memalign s (blkalign ops.alignMin alignment)
          (blockBytesFor ops.alignMin alignment size)).bind fun block =>
        (ops.store block.2 (blockPtr alignment block.1 + OFS_SLACK)
          (blockPtr alignment block.1 - block.1)).bind fun s =>
        (ops.store s (blockPtr alignment block.1 + OFS_SIZE)
          (blockBytesFor ops.alignMin alignment size)).map fun s =>
        (blockPtr alignment block.1, s) := rfl

/-- What is asked for, the gap for the alignment and two words, over the integers. -/
def paddedSize (k n : Nat) : Nat := n + (if k ≤ 3 then 0 else 2 ^ k - 1) + 16

/-- The size of the block over the integers, for a backend with `align_min = 2 ^ m`. -/
def wholeBlock (m k n : Nat) : Nat := roundUp (paddedSize k n) m

theorem two_pow_le_eight_iff {k : Nat} (hk : k < 64) : BitVec.ofNat 64 (2 ^ k) ≤ 8#64 ↔ k ≤ 3 := by
  rw [BitVec.le_def, toNat_two_pow hk]
  change 2 ^ k ≤ 2 ^ 3 ↔ k ≤ 3
  exact Nat.pow_le_pow_iff_right (by omega)

section Size

variable {m k : Nat} (hm : m < 64) (hk : k < 64) (size : Word)
include hk

/-- The sums wrap, so the size is taken modulo `2 ^ 64` before it is rounded up. -/
theorem toNat_padded :
    ((if BitVec.ofNat 64 (2 ^ k) ≤ 8#64 then size else size + (BitVec.ofNat 64 (2 ^ k) - 1#64)) +
      METADATA_EXTRA).toNat = paddedSize k size.toNat % 2 ^ 64 := by
  have hextra : (METADATA_EXTRA : Word).toNat = 16 := by decide
  rw [paddedSize, BitVec.toNat_add, hextra]
  by_cases hsmall : k ≤ 3
  · rw [if_pos ((two_pow_le_eight_iff hk).mpr hsmall), if_pos hsmall, Nat.add_zero]
  · rw [if_neg (mt (two_pow_le_eight_iff hk).mp hsmall), if_neg hsmall, BitVec.toNat_add,
      toNat_two_pow_sub_one hk, Nat.mod_add_mod]

include hm

theorem toNat_blockBytesFor :
    (blockBytesFor (BitVec.ofNat 64 (2 ^ m)) (BitVec.ofNat 64 (2 ^ k)) size).toNat =
      if roundUp (paddedSize k size.toNat % 2 ^ 64) m < 2 ^ 64 then
        roundUp (paddedSize k size.toNat % 2 ^ 64) m
      else 0 := by
  rw [blockBytesFor, toNat_ALIGN_eq hm, toNat_padded hk]

theorem toNat_blockBytesFor_of_lt (hfits : wholeBlock m k size.toNat < 2 ^ 64) :
    (blockBytesFor (BitVec.ofNat 64 (2 ^ m)) (BitVec.ofNat 64 (2 ^ k)) size).toNat =
      wholeBlock m k size.toNat := by
  have hpadded := le_roundUp (paddedSize k size.toNat) m
  unfold wholeBlock at hfits ⊢
  rw [toNat_blockBytesFor hm hk, Nat.mod_eq_of_lt (by omega), if_pos hfits]

/-- **No wrapped size is large enough**: a block that holds what was asked for and the gap
    in front of it has the size computed over the integers. -/
theorem wholeBlock_lt_of_room (hroom : paddedSize k size.toNat ≤
      (blockBytesFor (BitVec.ofNat 64 (2 ^ m)) (BitVec.ofNat 64 (2 ^ k)) size).toNat + 15) :
    wholeBlock m k size.toNat < 2 ^ 64 := by
  have hlarge : 16 ≤ paddedSize k size.toNat := by
    unfold paddedSize
    omega
  have hsmall : paddedSize k size.toNat < 2 * 2 ^ 64 := by
    have hsize := size.isLt
    have hpow : 2 ^ k ≤ 2 ^ 63 := Nat.pow_le_pow_right (by omega) (by omega)
    unfold paddedSize
    split_ifs <;> omega
  have hpow : 2 ^ m ≤ 2 ^ 63 := Nat.pow_le_pow_right (by omega) (by omega)
  rw [toNat_blockBytesFor hm hk] at hroom
  unfold wholeBlock
  generalize paddedSize k size.toNat = total at *
  by_cases hwraps : total < 2 ^ 64
  · rw [Nat.mod_eq_of_lt hwraps] at hroom
    by_contra hfits
    rw [if_neg hfits] at hroom
    omega
  · -- the rounded remainder is too small by almost the whole address space
    have hround := roundUp_lt (total % 2 ^ 64) m
    split_ifs at hroom <;> omega

end Size

/-! ### The layout of a block -/

/-- Where the pointer, the two words below it and the bytes behind it lie in a block of `total`
    bytes at `p`. -/
structure LaidOut (k : Nat) (p total size ptr : Word) : Prop where
  aligned : ptr.toNat % 2 ^ k = 0
  word : ptr.toNat % 8 = 0
  slack : p.toNat ≤ (ptr + OFS_SLACK).toNat
  slack_size : (ptr + OFS_SLACK).toNat + 8 ≤ (ptr + OFS_SIZE).toNat
  size_ptr : (ptr + OFS_SIZE).toNat + 8 ≤ ptr.toNat
  user : ptr.toNat + size.toNat ≤ p.toNat + total.toNat
  fits : p.toNat + total.toNat ≤ 2 ^ 64

theorem LaidOut.low {k : Nat} {p total size ptr : Word} (h : LaidOut k p total size ptr) :
    p.toNat + 16 ≤ ptr.toNat := by
  have hslack := h.slack
  have hslackSize := h.slack_size
  have hsizePtr := h.size_ptr
  omega

theorem toNat_add_METADATA_EXTRA {p : Word} (h : p.toNat + 16 < 2 ^ 64) :
    (p + METADATA_EXTRA).toNat = p.toNat + 16 := by
  rw [BitVec.toNat_add, show (METADATA_EXTRA : Word).toNat = 16 by decide, Nat.mod_eq_of_lt h]

theorem wordAlignment_eq {k : Nat} (hk : k < 64) :
    (if BitVec.ofNat 64 (2 ^ k) ≤ 8#64 then 8#64 else BitVec.ofNat 64 (2 ^ k)) =
      BitVec.ofNat 64 (2 ^ max 3 k) := by
  by_cases hsmall : k ≤ 3
  · rw [if_pos ((two_pow_le_eight_iff hk).mpr hsmall), Nat.max_eq_left hsmall]
    rfl
  · rw [if_neg (mt (two_pow_le_eight_iff hk).mp hsmall), Nat.max_eq_right (by omega)]

theorem blockPtr_eq {k : Nat} (hk : k < 64) (p : Word) :
    blockPtr (BitVec.ofNat 64 (2 ^ k)) p =
      ALIGN (p + METADATA_EXTRA) (BitVec.ofNat 64 (2 ^ max 3 k)) := by
  rw [← wordAlignment_eq hk]
  rfl

/-- The pointer comes at least two words behind the start, and at the next aligned address. -/
theorem toNat_blockPtr {k : Nat} (hk : k < 64) {p : Word} (hp : p.toNat + 16 < 2 ^ 64)
    (hround : roundUp (p.toNat + 16) (max 3 k) < 2 ^ 64) :
    (blockPtr (BitVec.ofNat 64 (2 ^ k)) p).toNat = roundUp (p.toNat + 16) (max 3 k) := by
  rw [blockPtr_eq hk, toNat_ALIGN_eq (by omega), toNat_add_METADATA_EXTRA hp, if_pos hround]

theorem roundUp_of_mod {x m : Nat} (h : x % 2 ^ m = 0) : roundUp x m = x := by
  obtain ⟨q, rfl⟩ := Nat.dvd_of_mod_eq_zero h
  have hpos := Nat.two_pow_pos m
  rw [roundUp, Nat.mul_add_div hpos, Nat.div_eq_of_lt (by omega), Nat.add_zero, Nat.mul_comm]

theorem mod_two_pow_of_le {x i j : Nat} (hij : i ≤ j) (h : x % 2 ^ j = 0) : x % 2 ^ i = 0 :=
  Nat.mod_eq_zero_of_dvd (Nat.dvd_trans (Nat.pow_dvd_pow 2 hij) (Nat.dvd_of_mod_eq_zero h))

/-- **A block that is large enough holds everything.** -/
theorem laidOut_blockPtr {k : Nat} (hk : k < 64) {p total size : Word} (hp : p.toNat % 8 = 0)
    (hend : p.toNat + 16 < 2 ^ 64) (htotal : paddedSize k size.toNat ≤ total.toNat)
    (hfits : p.toNat + total.toNat ≤ 2 ^ 64) :
    LaidOut k p total size (blockPtr (BitVec.ofNat 64 (2 ^ k)) p) := by
  have hbound : roundUp (p.toNat + 16) (max 3 k) + size.toNat ≤
      p.toNat + paddedSize k size.toNat := by
    unfold paddedSize
    by_cases hsmall : k ≤ 3
    · have height : (p.toNat + 16) % 2 ^ 3 = 0 := by omega
      rw [Nat.max_eq_left hsmall, roundUp_of_mod height, if_pos hsmall]
      omega
    · have hlt := roundUp_lt (p.toNat + 16) k
      rw [Nat.max_eq_right (by omega), if_neg hsmall]
      omega
  have hmod := roundUp_mod (p.toNat + 16) (max 3 k)
  have heven := mod_two_pow_of_le (Nat.le_max_left 3 k) hmod
  have hle := le_roundUp (p.toNat + 16) (max 3 k)
  have hpadded : 16 ≤ paddedSize k size.toNat := by
    unfold paddedSize
    omega
  have hround : roundUp (p.toNat + 16) (max 3 k) < 2 ^ 64 := by
    -- the gap is one less than the alignment, so the sum is odd and does not reach the end
    rw [roundUp_lt_iff (by omega)]
    unfold paddedSize at htotal
    by_cases hsmall : k ≤ 3
    · rw [Nat.max_eq_left hsmall]
      omega
    · have hpow : 2 ^ k = 8 * 2 ^ (k - 3) := by
        rw [← Nat.pow_add (a := 2) (m := 3), Nat.add_sub_cancel' (by omega)]
      rw [if_neg hsmall] at htotal
      rw [Nat.max_eq_right (by omega)]
      omega
  have hptr := toNat_blockPtr hk (by omega) hround
  generalize blockPtr (BitVec.ofNat 64 (2 ^ k)) p = ptr at *
  have hslack := toNat_add_OFS_SLACK (by omega : 16 ≤ ptr.toNat)
  have hsize := toNat_add_OFS_SIZE (by omega : 16 ≤ ptr.toNat)
  exact
    { aligned := by
        rw [hptr]
        exact mod_two_pow_of_le (Nat.le_max_right 3 k) hmod
      word := by
        rw [hptr]
        exact heven
      slack := by omega
      slack_size := by omega
      size_ptr := by omega
      user := by omega
      fits := hfits }

/-! ### The two words of metadata -/

/-- The words at `addrs` are memory, as long as `inv` holds. -/
structure Accessible (ops : AllocOps σ) (inv : σ → Prop) (addrs : Word → Prop) : Prop where
  load : ∀ {s a}, inv s → addrs a → ∃ value, ops.load s a = some value
  store : ∀ {s a}, inv s → addrs a → ∀ value, ∃ s', ops.store s a value = some s' ∧ inv s' ∧
    ops.load s' a = some value ∧ ∀ b, addrs b → b ≠ a → ops.load s' b = ops.load s b

/-- What `free` does with a pointer to a block of `total` bytes at `p`. -/
def backendFree (ops : AllocOps σ) (s : σ) (p total : Word) : Option σ :=
  match ops.free with
  | none => some s
  | some f => f s p total

/-- The two words below `ptr` are those of the block of `total` bytes at `p`. -/
structure Recorded (ops : AllocOps σ) (s : σ) (ptr p total : Word) : Prop where
  slack : ops.load s (ptr + OFS_SLACK) = some (ptr - p)
  size : ops.load s (ptr + OFS_SIZE) = some total

theorem Recorded.free {ops : AllocOps σ} {s : σ} {ptr p total : Word}
    (h : Recorded ops s ptr p total) : free ops s ptr = backendFree ops s p total := by
  have hbegin : blockBegin ops s ptr = some p := by
    have hsub : ptr - (ptr - p) = p := by bv_omega
    rw [blockBegin, h.slack, Option.map_some, hsub]
  unfold Alloc.free backendFree
  cases ops.free with
  | none => rfl
  | some f =>
      dsimp only
      rw [hbegin, Option.bind_some, blockSize, h.size, Option.bind_some]

section Block

variable {ops : AllocOps σ} {inv : σ → Prop} {addrs : Word → Prop} {s s₁ : σ}
  {alignment size p : Word}

/-- **`memalign` records the block** in the two words below its result. -/
theorem memalign_recorded (hmem : Accessible ops inv addrs)
    (hblock : ops.memalign s (blkalign ops.alignMin alignment)
      (blockBytesFor ops.alignMin alignment size) = some (p, s₁)) (hinv : inv s₁)
    (hslack : addrs (blockPtr alignment p + OFS_SLACK))
    (hsize : addrs (blockPtr alignment p + OFS_SIZE)) :
    ∃ s', memalign ops s alignment size = some (blockPtr alignment p, s') ∧ inv s' ∧
      Recorded ops s' (blockPtr alignment p) p (blockBytesFor ops.alignMin alignment size) := by
  have hcall := memalign_eq ops s alignment size
  rw [hblock, Option.bind_some] at hcall
  dsimp only at hcall
  generalize blockPtr alignment p = ptr at *
  obtain ⟨s₂, hstore₂, hinv₂, hself₂, -⟩ := hmem.store hinv hslack (ptr - p)
  obtain ⟨s₃, hstore₃, hinv₃, hself₃, hother₃⟩ :=
    hmem.store hinv₂ hsize (blockBytesFor ops.alignMin alignment size)
  have hne : ptr + OFS_SLACK ≠ ptr + OFS_SIZE := by
    rw [OFS_SLACK, OFS_SIZE]
    bv_omega
  refine ⟨s₃, ?_, hinv₃, (hother₃ _ hslack hne).trans hself₂, hself₃⟩
  rw [hcall, hstore₂, Option.bind_some, hstore₃, Option.map_some]

end Block

/-- The block of a request is laid out as it should be, and `free` finds its way back to it as long
    as the two words are not overwritten. -/
def Delivers (ops : AllocOps σ) (s : σ) (k : Nat) (size p : Word) : Prop :=
  ∃ ptr s', memalign ops s (BitVec.ofNat 64 (2 ^ k)) size = some (ptr, s') ∧
    LaidOut k p (blockBytesFor ops.alignMin (BitVec.ofNat 64 (2 ^ k)) size) size ptr ∧
    ∀ t, ops.load t (ptr + OFS_SLACK) = ops.load s' (ptr + OFS_SLACK) →
      ops.load t (ptr + OFS_SIZE) = ops.load s' (ptr + OFS_SIZE) →
      free ops t ptr =
        backendFree ops t p (blockBytesFor ops.alignMin (BitVec.ofNat 64 (2 ^ k)) size)

theorem LaidOut.metadata {k : Nat} {p total size ptr : Word} (h : LaidOut k p total size ptr)
    {addrs : Word → Prop}
    (haddrs : ∀ a : Word, p.toNat ≤ a.toNat → a.toNat < p.toNat + total.toNat → addrs a) :
    addrs (ptr + OFS_SLACK) ∧ addrs (ptr + OFS_SIZE) ∧
      ∀ i, 8 * i < size.toNat → addrs (ptr + BitVec.ofNat 64 (8 * i)) := by
  obtain ⟨-, -, hslack, hslackSize, hsizePtr, huser, hfits⟩ := h
  refine ⟨haddrs _ (by omega) (by omega), haddrs _ (by omega) (by omega), fun i hi => ?_⟩
  have haddr : (ptr + BitVec.ofNat 64 (8 * i)).toNat = ptr.toNat + 8 * i := by
    rw [BitVec.toNat_add, BitVec.toNat_ofNat]
    omega
  exact haddrs _ (by omega) (by omega)

theorem delivers_of_laidOut {ops : AllocOps σ} {inv : σ → Prop} {addrs : Word → Prop} {s s₁ : σ}
    {k : Nat} {size p : Word} (hmem : Accessible ops inv addrs)
    (hblock : ops.memalign s (blkalign ops.alignMin (BitVec.ofNat 64 (2 ^ k)))
      (blockBytesFor ops.alignMin (BitVec.ofNat 64 (2 ^ k)) size) = some (p, s₁)) (hinv : inv s₁)
    (hlaid : LaidOut k p (blockBytesFor ops.alignMin (BitVec.ofNat 64 (2 ^ k)) size) size
      (blockPtr (BitVec.ofNat 64 (2 ^ k)) p))
    (haddrs : ∀ a : Word, p.toNat ≤ a.toNat → a.toNat < p.toNat +
      (blockBytesFor ops.alignMin (BitVec.ofNat 64 (2 ^ k)) size).toNat → addrs a) :
    Delivers ops s k size p := by
  obtain ⟨hslack, hsize, -⟩ := hlaid.metadata haddrs
  obtain ⟨s', hcall, -, hrecorded⟩ := memalign_recorded hmem hblock hinv hslack hsize
  refine ⟨_, s', hcall, hlaid, fun t hslack' hsize' => ?_⟩
  exact Recorded.free ⟨hslack'.trans hrecorded.slack, hsize'.trans hrecorded.size⟩

/-! ### The outcome of a request -/

/-- The same operations with a list of the words that the malloc layer writes. -/
def AllocOps.traced (ops : AllocOps σ) : AllocOps (σ × List Word) where
  memalign s alignment size := (ops.memalign s.1 alignment size).map fun r => (r.1, r.2, s.2)
  free := ops.free.map fun f s mem size => (f s.1 mem size).map fun s' => (s', s.2)
  alignMin := ops.alignMin
  load s a := ops.load s.1 a
  store s a value := (ops.store s.1 a value).map fun s' => (s', s.2 ++ [a])

/-- A request for `n` bytes is answered: by null without any write, or with room for `n` bytes
    in the block of `room` bytes at `p`. If the backend has returned null, so is the answer. -/
def Answered (p : Word) (room n : Nat) (ptr : Word) (writes : List Word) : Prop :=
  (p = 0#64 → ptr = 0#64) ∧
    (ptr = 0#64 ∧ writes = [] ∨
      p ≠ 0#64 ∧ p.toNat ≤ ptr.toNat ∧ ptr.toNat + n ≤ p.toNat + room)

/-- The request `memalign(alignment, size)` to the backend, which sets aside `room` bytes, makes
    `call` answer a request for `n` bytes. -/
def Serves (ops : AllocOps σ) (room : Word → Word → σ → Nat) (s : σ)
    (alignment size : Word) (n : Nat) (call : Option (Word × (σ × List Word))) : Prop :=
  ∃ p s₁ ptr t,
    ops.memalign s (blkalign ops.alignMin alignment) (blockBytesFor ops.alignMin alignment size) =
      some (p, s₁) ∧
    call = some (ptr, t) ∧
    Answered p (room (blockBytesFor ops.alignMin alignment size) p s₁) n ptr t.2

section Answer

variable {ops : AllocOps σ} {s : σ}

theorem Accessible.traced {inv : σ → Prop} {addrs : Word → Prop} (h : Accessible ops inv addrs) :
    Accessible ops.traced (fun t => inv t.1) addrs where
  load hinv ha := h.load hinv ha
  store := by
    intro t a hinv ha value
    obtain ⟨s', hstore, hinv', hself, hother⟩ := h.store hinv ha value
    refine ⟨(s', t.2 ++ [a]), ?_, hinv', hself, hother⟩
    change (ops.store t.1 a value).map _ = _
    rw [hstore]
    rfl

theorem zeroWords_accessible {τ : Type} {ops : AllocOps τ} {inv : τ → Prop} {addrs : Word → Prop}
    (h : Accessible ops inv addrs) {t : τ} (hinv : inv t) {a : Word} {n : Nat}
    (haddrs : ∀ i < n, addrs (a + BitVec.ofNat 64 (8 * i))) :
    ∃ t', zeroWords ops t a n = some t' ∧ inv t' := by
  induction n generalizing t a with
  | zero => exact ⟨t, rfl, hinv⟩
  | succ n ih =>
      have hfirst : addrs a := by simpa using haddrs 0 (by omega)
      obtain ⟨t₁, hstore, hinv₁, -⟩ := h.store hinv hfirst 0#64
      have hrest : ∀ i < n, addrs (a + 8#64 + BitVec.ofNat 64 (8 * i)) := by
        intro i hi
        have hnext : a + 8#64 + BitVec.ofNat 64 (8 * i) = a + BitVec.ofNat 64 (8 * (i + 1)) := by
          bv_omega
        rw [hnext]
        exact haddrs (i + 1) (by omega)
      obtain ⟨t', hzero, hinv'⟩ := ih hinv₁ hrest
      refine ⟨t', ?_, hinv'⟩
      rw [zeroWords, hstore, Option.bind_some, hzero]

/-- Clearing `n` bytes touches the words from `ptr` on up to the one that holds the last byte. -/
theorem memsetZero_accessible {τ : Type} {ops : AllocOps τ} {inv : τ → Prop} {addrs : Word → Prop}
    (h : Accessible ops inv addrs) {t : τ} (hinv : inv t) {ptr n : Word}
    (haddrs : ∀ i, 8 * i < n.toNat → addrs (ptr + BitVec.ofNat 64 (8 * i))) :
    ∃ t', memsetZero ops t ptr n = some t' ∧ inv t' := by
  obtain ⟨t₁, hzero, hinv₁⟩ := zeroWords_accessible (n := n.toNat / 8) h hinv
    fun i hi => haddrs i (by omega)
  rw [memsetZero, hzero, Option.bind_some]
  split_ifs with hwhole
  · exact ⟨t₁, rfl, hinv₁⟩
  · have hlast := haddrs (n.toNat / 8) (by omega)
    obtain ⟨old, hload⟩ := h.load hinv₁ hlast
    dsimp only
    rw [hload, Option.bind_some]
    obtain ⟨t', hstore, hinv', -⟩ := h.store hinv₁ hlast _
    exact ⟨t', hstore, hinv'⟩

theorem traced_memalign {alignment size p : Word} {s₁ : σ}
    (h : ops.memalign s alignment size = some (p, s₁)) (writes : List Word) :
    ops.traced.memalign (s, writes) alignment size = some (p, s₁, writes) := by
  change (ops.memalign s alignment size).map _ = _
  rw [h]
  rfl

section Returns

variable {p : Word} {s₁ : σ} {inv : σ → Prop} {addrs : Word → Prop}
  (hmem : Accessible ops inv addrs)
include hmem

theorem memalign_traced {alignment size : Word}
    (hblock : ops.memalign s (blkalign ops.alignMin alignment)
      (blockBytesFor ops.alignMin alignment size) = some (p, s₁)) (hinv : inv s₁)
    (hslack : addrs (blockPtr alignment p + OFS_SLACK))
    (hsize : addrs (blockPtr alignment p + OFS_SIZE)) :
    ∃ t, memalign ops.traced (s, []) alignment size = some (blockPtr alignment p, t) ∧ inv t.1 := by
  obtain ⟨t, hcall, hinv', -⟩ :=
    memalign_recorded hmem.traced (traced_memalign hblock []) hinv hslack hsize
  exact ⟨t, hcall, hinv'⟩

theorem calloc_traced {nmemb size : Word}
    (hblock : ops.memalign s (blkalign ops.alignMin 8#64)
      (blockBytesFor ops.alignMin 8#64 (nmemb * size)) = some (p, s₁)) (hinv : inv s₁)
    (hslack : addrs (blockPtr 8#64 p + OFS_SLACK)) (hsize : addrs (blockPtr 8#64 p + OFS_SIZE))
    (huser : ∀ i, 8 * i < (nmemb * size).toNat →
      addrs (blockPtr 8#64 p + BitVec.ofNat 64 (8 * i))) :
    ∃ t, calloc ops.traced (s, []) nmemb size = some (blockPtr 8#64 p, t) := by
  obtain ⟨t, hcall, hinv'⟩ := memalign_traced hmem hblock hinv hslack hsize
  rw [calloc, malloc, hcall, Option.bind_some]
  split_ifs
  · obtain ⟨t', hzero, -⟩ := memsetZero_accessible hmem.traced hinv' huser
    refine ⟨t', ?_⟩
    rw [hzero]
    rfl
  · exact ⟨t, rfl⟩

end Returns

/-- The block lies where the pointer is, with room behind the pointer. -/
def RoomBehind (ops : AllocOps σ) (room : Word → Word → σ → Nat) (s : σ) (alignment size : Word)
    (n : Nat) : Prop :=
  ∃ p s₁,
    ops.memalign s (blkalign ops.alignMin alignment) (blockBytesFor ops.alignMin alignment size) =
      some (p, s₁) ∧
    p ≠ 0#64 ∧ p.toNat ≤ (blockPtr alignment p).toNat ∧
    (blockPtr alignment p).toNat + n ≤
      p.toNat + room (blockBytesFor ops.alignMin alignment size) p s₁

theorem writes_of_memalign_traced {alignment size p ptr : Word} {s₁ : σ} {t : σ × List Word}
    (hblock : ops.memalign s (blkalign ops.alignMin alignment)
      (blockBytesFor ops.alignMin alignment size) = some (p, s₁))
    (hcall : memalign ops.traced (s, []) alignment size = some (ptr, t)) :
    ptr = blockPtr alignment p ∧ t.2 ≠ [] := by
  rw [memalign_eq] at hcall
  change ((ops.memalign s (blkalign ops.alignMin alignment)
    (blockBytesFor ops.alignMin alignment size)).map _).bind _ = _ at hcall
  rw [hblock, Option.map_some, Option.bind_some] at hcall
  obtain ⟨t₂, -, hsecond⟩ := Option.bind_eq_some_iff.mp hcall
  obtain ⟨t₃, hstore, heq⟩ := Option.map_eq_some_iff.mp hsecond
  obtain ⟨rfl, rfl⟩ := Prod.mk.inj heq
  obtain ⟨s₃, -, rfl⟩ := Option.map_eq_some_iff.mp hstore
  exact ⟨rfl, by simp⟩

theorem zeroWords_traced_writes {t t' : σ × List Word} {a : Word} {n : Nat} (ht : t.2 ≠ [])
    (h : zeroWords ops.traced t a n = some t') : t'.2 ≠ [] := by
  induction n generalizing t a with
  | zero => exact Option.some.inj h ▸ ht
  | succ n ih =>
      obtain ⟨t₁, hstore, hrest⟩ := Option.bind_eq_some_iff.mp h
      obtain ⟨s₁, -, rfl⟩ := Option.map_eq_some_iff.mp hstore
      exact ih (by simp) hrest

theorem writes_of_calloc_traced {nmemb size p ptr : Word} {s₁ : σ} {t : σ × List Word}
    (hblock : ops.memalign s (blkalign ops.alignMin 8#64)
      (blockBytesFor ops.alignMin 8#64 (nmemb * size)) = some (p, s₁))
    (hcall : calloc ops.traced (s, []) nmemb size = some (ptr, t)) :
    ptr = blockPtr 8#64 p ∧ t.2 ≠ [] := by
  obtain ⟨⟨ptr', t'⟩, hmalloc, hclear⟩ := Option.bind_eq_some_iff.mp hcall
  obtain ⟨rfl, hwrites⟩ := writes_of_memalign_traced hblock hmalloc
  dsimp only at hclear
  split_ifs at hclear
  · obtain ⟨t₁, hzero, heq⟩ := Option.map_eq_some_iff.mp hclear
    obtain ⟨rfl, rfl⟩ := Prod.mk.inj heq
    refine ⟨rfl, ?_⟩
    obtain ⟨t₂, hwords, hlast⟩ := Option.bind_eq_some_iff.mp hzero
    have hkept := zeroWords_traced_writes hwrites hwords
    split_ifs at hlast
    · exact Option.some.inj hlast ▸ hkept
    · obtain ⟨old, -, hstore⟩ := Option.bind_eq_some_iff.mp hlast
      obtain ⟨s₃, -, rfl⟩ := Option.map_eq_some_iff.mp hstore
      simp
  · obtain ⟨rfl, rfl⟩ := Prod.mk.inj (Option.some.inj hclear)
    exact ⟨rfl, hwrites⟩

section Serves

variable {room : Word → Word → σ → Nat} {alignment size : Word} {n : Nat}
  {call : Option (Word × (σ × List Word))}

/-- Since the two words are always written, null is no answer. -/
theorem roomBehind_of_serves (hserves : Serves ops room s alignment size n call)
    (hcall : ∀ p s₁ ptr t, ops.memalign s (blkalign ops.alignMin alignment)
        (blockBytesFor ops.alignMin alignment size) = some (p, s₁) → call = some (ptr, t) →
      ptr = blockPtr alignment p ∧ t.2 ≠ []) :
    RoomBehind ops room s alignment size n := by
  obtain ⟨p, s₁, ptr, t, hblock, hptr, -, hanswer⟩ := hserves
  obtain ⟨rfl, hwrites⟩ := hcall p s₁ ptr t hblock hptr
  rcases hanswer with ⟨-, hnone⟩ | ⟨hne, hlow, hhigh⟩
  · exact (hwrites hnone).elim
  · exact ⟨p, s₁, hblock, hne, hlow, hhigh⟩

theorem serves_of_roomBehind (hroom : RoomBehind ops room s alignment size n)
    (hcall : ∀ p s₁, ops.memalign s (blkalign ops.alignMin alignment)
        (blockBytesFor ops.alignMin alignment size) = some (p, s₁) →
      ∃ t, call = some (blockPtr alignment p, t)) :
    Serves ops room s alignment size n call := by
  obtain ⟨p, s₁, hblock, hne, hlow, hhigh⟩ := hroom
  obtain ⟨t, hptr⟩ := hcall p s₁ hblock
  exact ⟨p, s₁, _, t, hblock, hptr, fun hnull => (hne hnull).elim, Or.inr ⟨hne, hlow, hhigh⟩⟩

end Serves

section Flat

variable (hflat : Accessible ops (fun _ => True) fun _ => True) {room : Word → Word → σ → Nat}
include hflat

theorem serves_memalign_iff {alignment size : Word} {n : Nat} :
    Serves ops room s alignment size n (memalign ops.traced (s, []) alignment size) ↔
      RoomBehind ops room s alignment size n := by
  constructor
  · exact fun h => roomBehind_of_serves h fun _ _ _ _ => writes_of_memalign_traced
  · refine fun h => serves_of_roomBehind h fun p s₁ hblock => ?_
    obtain ⟨t, hcall, -⟩ := memalign_traced hflat hblock trivial trivial trivial
    exact ⟨t, hcall⟩

theorem serves_calloc_iff {nmemb size : Word} {n : Nat} :
    Serves ops room s 8#64 (nmemb * size) n (calloc ops.traced (s, []) nmemb size) ↔
      RoomBehind ops room s 8#64 (nmemb * size) n := by
  constructor
  · exact fun h => roomBehind_of_serves h fun _ _ _ _ => writes_of_calloc_traced
  · refine fun h => serves_of_roomBehind h fun p s₁ hblock => ?_
    exact calloc_traced hflat hblock trivial trivial trivial fun _ _ => trivial

end Flat

end Answer

end AcrnGuest.Alloc
