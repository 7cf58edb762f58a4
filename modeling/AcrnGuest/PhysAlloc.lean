import AcrnGuest.AllocPage

/-!
# The early allocator (`lib/alloc_phys.c`)

Before the page allocator takes over, memory is handed out from one region by moving
its lower end `base` up to `top`. The regions handed out are logged in a table of 256
entries, which is only read to be printed. `phys_alloc_get_unused` hands the rest of
the region over to `setup_vm`.

The 64-bit build is modelled, where `safe` has no effect. A result `none` means that an
assertion fails or that the program writes outside the table.
-/

namespace AcrnGuest

/-! ### The source -/

def PHYS_ALLOC_NR_REGIONS : Nat := 256
def INVALID_PHYS_ADDR : Word := ~~~ 0#64

def SIZEOF_LONG : Nat := 8

structure PhysAllocRegion where
  base : Word
  size : Word
deriving DecidableEq, Repr

/-- The static variables of `lib/alloc_phys.c`. -/
structure PhysAlloc where
  base : Word
  top : Word
  regions : Vector PhysAllocRegion PHYS_ALLOC_NR_REGIONS
  nrRegions : Nat
deriving DecidableEq

def physAllocInit (a : PhysAlloc) (baseAddr size : Word) : PhysAlloc :=
  { a with base := baseAddr, top := baseAddr + size, nrRegions := 0 }

/-- The `u64` that stands for `top` where an address must fit into a `long`. -/
def topSafe (a : PhysAlloc) (safe : Bool) : Word :=
  if safe ∧ SIZEOF_LONG = 4 then (if a.top < 1#64 <<< 32 then a.top else 1#64 <<< 32) else a.top

/-- The entry of the log that follows the used ones, if the table has one. -/
def logRegion (a : PhysAlloc) (r : PhysAllocRegion) : Option PhysAlloc :=
  if h : a.nrRegions < PHYS_ALLOC_NR_REGIONS then
    some { a with regions := a.regions.set a.nrRegions r h, nrRegions := a.nrRegions + 1 }
  else none

/-- `phys_alloc_aligned_safe`. A full log is left as it is. -/
def physAllocAlignedSafe (a : PhysAlloc) (sizeOrig align : Word) (safe : Bool) :
    Option (Word × PhysAlloc) :=
  if ¬ a.base < topSafe a safe then none
  else
    let addr := ALIGN a.base align
    let size := sizeOrig + (addr - a.base)
    if topSafe a safe - a.base < size then some (INVALID_PHYS_ADDR, a)
    else
      let moved := { a with base := a.base + size }
      some (addr, (logRegion moved ⟨addr, sizeOrig⟩).getD moved)

/-- `phys_alloc_get_unused`: the two results and the state. The log is written without a test. -/
def physAllocGetUnused (a : PhysAlloc) : Option ((Word × Word) × PhysAlloc) :=
  if a.base = a.top then some ((a.base, a.top), a)
  else
    (logRegion a ⟨a.base, a.top - a.base⟩).map fun logged =>
      ((a.base, a.top), { logged with base := a.top })

def earlyMemalign (a : PhysAlloc) (alignment size : Word) : Option (Word × PhysAlloc) :=
  if ¬ (alignment ≠ 0#64 ∧ alignment &&& (alignment - 1#64) = 0#64) then none
  else
    (physAllocAlignedSafe a size alignment true).map fun r =>
      if r.1 = INVALID_PHYS_ADDR then (0#64, r.2) else (physToVirt r.1, r.2)

/-! ### One request -/

theorem topSafe_eq (a : PhysAlloc) (safe : Bool) : topSafe a safe = a.top :=
  if_neg fun h => absurd h.2 (by decide)

/-- Rounding the base up and adding the size do not wrap. -/
def PhysAlloc.NoWrap (a : PhysAlloc) (alignment size : Word) : Prop :=
  a.base.toNat + (alignment.toNat - 1) < 2 ^ 64 ∧
    size.toNat + (ALIGN a.base alignment - a.base).toNat < 2 ^ 64

instance (a : PhysAlloc) (alignment size : Word) : Decidable (a.NoWrap alignment size) :=
  inferInstanceAs (Decidable (_ ∧ _))

theorem logRegion_getD_fields (a : PhysAlloc) (r : PhysAllocRegion) :
    ((logRegion a r).getD a).base = a.base ∧ ((logRegion a r).getD a).top = a.top := by
  unfold logRegion
  split <;> exact ⟨rfl, rfl⟩

theorem and_sub_one_eq_zero_of_two_pow {k : Nat} (hk : k < 64) :
    BitVec.ofNat 64 (2 ^ k) ≠ 0#64 ∧
      BitVec.ofNat 64 (2 ^ k) &&& (BitVec.ofNat 64 (2 ^ k) - 1#64) = 0#64 := by
  have hword := toNat_two_pow hk
  constructor
  · intro h
    have := congrArg BitVec.toNat h
    rw [hword] at this
    exact (Nat.two_pow_pos k).ne' this
  · apply BitVec.eq_of_toNat_eq
    rw [BitVec.toNat_and, toNat_two_pow_sub_one hk, Nat.and_two_pow_sub_one_eq_mod,
      hword, Nat.mod_self]
    rfl

section Request

variable {a : PhysAlloc} {k : Nat} {size : Word}

theorem toNat_ALIGN_base (hk : k < 64) (hwrap : a.NoWrap (BitVec.ofNat 64 (2 ^ k)) size) :
    (ALIGN a.base (BitVec.ofNat 64 (2 ^ k))).toNat = roundUp a.base.toNat k := by
  have hbase := hwrap.1
  rw [toNat_two_pow hk, ← roundUp_lt_iff (by omega)] at hbase
  rw [toNat_ALIGN_eq hk, if_pos hbase]

/-- Below the top, rounding up does not give the address that stands for a failure. -/
theorem ALIGN_base_ne_invalid (hk : k < 64) (hbelow : a.base < a.top) :
    ALIGN a.base (BitVec.ofNat 64 (2 ^ k)) ≠ INVALID_PHYS_ADDR := by
  have hones : INVALID_PHYS_ADDR.toNat = 2 ^ 64 - 1 := by decide
  have htop := a.top.isLt
  have hnat : a.base.toNat < a.top.toNat := hbelow
  intro heq
  have hvalue := toNat_ALIGN_eq hk a.base
  rw [heq, hones] at hvalue
  split_ifs at hvalue
  have hmod := roundUp_mod a.base.toNat k
  rw [← hvalue] at hmod
  cases k with
  | zero =>
      have hlt := roundUp_lt a.base.toNat 0
      omega
  | succ k =>
      -- the address is even
      have heven := Nat.mod_eq_zero_of_dvd
        (Nat.dvd_trans (Nat.pow_dvd_pow 2 (by omega : 1 ≤ k + 1)) (Nat.dvd_of_mod_eq_zero hmod))
      omega

/-- A request that passes the assertions. -/
theorem earlyMemalign_eq (hk : k < 64) (hbelow : a.base < a.top) :
    earlyMemalign a (BitVec.ofNat 64 (2 ^ k)) size =
      let addr := ALIGN a.base (BitVec.ofNat 64 (2 ^ k))
      let moved := { a with base := a.base + (size + (addr - a.base)) }
      if a.top - a.base < size + (addr - a.base) then some (0#64, a)
      else some (addr, (logRegion moved ⟨addr, size⟩).getD moved) := by
  have hvalid := ALIGN_base_ne_invalid hk hbelow
  rw [earlyMemalign, if_neg (not_not.mpr (and_sub_one_eq_zero_of_two_pow hk)), physAllocAlignedSafe,
    topSafe_eq, if_neg (not_not.mpr hbelow)]
  dsimp only
  split_ifs
  · rfl
  · rw [Option.map_some, if_neg hvalid]
    rfl

theorem base_lt_top_of_earlyMemalign {alignment result : Word} {a' : PhysAlloc}
    (hcall : earlyMemalign a alignment size = some (result, a')) : a.base < a.top := by
  by_contra hassert
  rw [earlyMemalign, physAllocAlignedSafe, topSafe_eq, if_pos hassert] at hcall
  split at hcall <;> exact absurd hcall (by simp)

theorem failed_iff (hk : k < 64) (hbelow : a.base < a.top) :
    (physAllocAlignedSafe a size (BitVec.ofNat 64 (2 ^ k)) true).map Prod.fst =
        some INVALID_PHYS_ADDR ↔
      a.top - a.base < size + (ALIGN a.base (BitVec.ofNat 64 (2 ^ k)) - a.base) := by
  have hvalid := ALIGN_base_ne_invalid hk hbelow
  rw [physAllocAlignedSafe, topSafe_eq, if_neg (not_not.mpr hbelow)]
  dsimp only
  split_ifs with hroom
  · exact iff_of_true rfl hroom
  · exact iff_of_false (fun heq => hvalid (Option.some.inj heq)) hroom

/-- **One request.** It finds no room and changes nothing, or it moves the base to the end of an
    aligned region above the old base. -/
theorem earlyMemalign_spec (hk : k < 64) (hwrap : a.NoWrap (BitVec.ofNat 64 (2 ^ k)) size)
    {result : Word} {a' : PhysAlloc}
    (hcall : earlyMemalign a (BitVec.ofNat 64 (2 ^ k)) size = some (result, a')) :
    ((physAllocAlignedSafe a size (BitVec.ofNat 64 (2 ^ k)) true).map Prod.fst =
        some INVALID_PHYS_ADDR ∧ result = 0#64 ∧ a' = a) ∨
      ((physAllocAlignedSafe a size (BitVec.ofNat 64 (2 ^ k)) true).map Prod.fst ≠
          some INVALID_PHYS_ADDR ∧ result.toNat % 2 ^ k = 0 ∧ a.base.toNat ≤ result.toNat ∧
        a'.base.toNat = result.toNat + size.toNat ∧ a'.top = a.top ∧
        a'.base.toNat ≤ a.top.toNat) := by
  have hbelow := base_lt_top_of_earlyMemalign hcall
  have haddr := toNat_ALIGN_base hk hwrap
  have hle := haddr ▸ le_roundUp a.base.toNat k
  have haligned := haddr ▸ roundUp_mod a.base.toNat k
  have hsize := hwrap.2
  rw [earlyMemalign_eq hk hbelow] at hcall
  rw [ne_eq, failed_iff hk hbelow]
  dsimp only at hcall
  generalize ALIGN a.base (BitVec.ofNat 64 (2 ^ k)) = addr at *
  by_cases hroom : a.top - a.base < size + (addr - a.base)
  · rw [if_pos hroom] at hcall
    obtain ⟨rfl, rfl⟩ := Prod.mk.inj (Option.some.inj hcall)
    exact Or.inl ⟨hroom, rfl, rfl⟩
  · rw [if_neg hroom] at hcall
    obtain ⟨rfl, rfl⟩ := Prod.mk.inj (Option.some.inj hcall)
    obtain ⟨hbase', htop'⟩ := logRegion_getD_fields
      { a with base := a.base + (size + (addr - a.base)) } ⟨addr, size⟩
    have hnat : a.base.toNat < a.top.toNat := hbelow
    have hgap : (addr - a.base).toNat = addr.toNat - a.base.toNat := BitVec.toNat_sub_of_le hle
    have htotal : (size + (addr - a.base)).toNat = size.toNat + (addr.toNat - a.base.toNat) := by
      rw [BitVec.toNat_add, hgap, Nat.mod_eq_of_lt (by omega)]
    have hfree : (a.top - a.base).toNat = a.top.toNat - a.base.toNat :=
      BitVec.toNat_sub_of_le (Nat.le_of_lt hnat)
    have hfits : size.toNat + (addr.toNat - a.base.toNat) ≤ a.top.toNat - a.base.toNat := by
      rw [BitVec.lt_def, hfree, htotal] at hroom
      omega
    have htop := a.top.isLt
    have hmoved : (a.base + (size + (addr - a.base))).toNat = addr.toNat + size.toNat := by
      rw [BitVec.toNat_add, htotal, Nat.mod_eq_of_lt (by omega)]
      omega
    rw [hbase', htop', hmoved]
    exact Or.inr ⟨hroom, haligned, hle, rfl, rfl, by omega⟩

/-- A region that fits between base and top over the integers is handed out. -/
theorem earlyMemalign_of_fits (hk : k < 64) (hbelow : a.base < a.top)
    (hfits : roundUp a.base.toNat k + size.toNat ≤ a.top.toNat) :
    ∃ p a', earlyMemalign a (BitVec.ofNat 64 (2 ^ k)) size = some (p, a') ∧
      p.toNat = roundUp a.base.toNat k ∧ a'.base.toNat = p.toNat + size.toNat := by
  have htop := a.top.isLt
  have hbase := le_roundUp a.base.toNat k
  have haddr := toNat_ALIGN_eq hk a.base
  rw [if_pos (by omega)] at haddr
  have hcall : earlyMemalign a (BitVec.ofNat 64 (2 ^ k)) size = _ := earlyMemalign_eq hk hbelow
  rw [← haddr] at hfits hbase
  generalize ALIGN a.base (BitVec.ofNat 64 (2 ^ k)) = addr at *
  have hneed : (size + (addr - a.base)).toNat = size.toNat + (addr.toNat - a.base.toNat) := by
    rw [BitVec.toNat_add, BitVec.toNat_sub_of_le hbase, Nat.mod_eq_of_lt (by omega)]
  have hroom : ¬ a.top - a.base < size + (addr - a.base) := by
    rw [BitVec.lt_def, BitVec.toNat_sub_of_le (Nat.le_of_lt hbelow), hneed]
    omega
  have hmoved : (a.base + (size + (addr - a.base))).toNat = addr.toNat + size.toNat := by
    rw [BitVec.toNat_add, hneed, Nat.mod_eq_of_lt (by omega)]
    omega
  refine ⟨addr, _, hcall.trans (if_neg hroom), haddr, ?_⟩
  rw [(logRegion_getD_fields _ _).1]
  exact hmoved

end Request

/-! ### Whole runs -/

/-- A call of `early_memalign` with the states before and after it. -/
structure EarlyCall where
  alignment : Word
  size : Word
  before : PhysAlloc
  result : Word
  after : PhysAlloc

/-- `phys_alloc_aligned_safe` found no room for the request. -/
def EarlyCall.Failed (c : EarlyCall) : Prop :=
  (physAllocAlignedSafe c.before c.size c.alignment true).map Prod.fst = some INVALID_PHYS_ADDR

instance (c : EarlyCall) : Decidable c.Failed :=
  inferInstanceAs (Decidable (_ = _))

def handedOut (calls : List EarlyCall) : List EarlyCall := calls.filter fun c => ¬ c.Failed

def endOfLast (base : Word) (calls : List EarlyCall) : Nat :=
  match (handedOut calls).getLast? with
  | some c => c.result.toNat + c.size.toNat
  | none => base.toNat

/-- The runs from `start` in which no assertion fails and no sum wraps. -/
inductive EarlyRun (start : PhysAlloc) : List EarlyCall → PhysAlloc → Prop where
  | nil : EarlyRun start [] start
  | step {calls : List EarlyCall} {a a' : PhysAlloc} {k : Nat} {size result : Word}
      (previous : EarlyRun start calls a) (hk : k < 64)
      (nowrap : a.NoWrap (BitVec.ofNat 64 (2 ^ k)) size)
      (exec : earlyMemalign a (BitVec.ofNat 64 (2 ^ k)) size = some (result, a')) :
      EarlyRun start (calls ++ [⟨BitVec.ofNat 64 (2 ^ k), size, a, result, a'⟩]) a'

/-- What the calls of a run have handed out. -/
structure EarlyRegions (start : PhysAlloc) (calls : List EarlyCall) : Prop where
  aligned : ∀ c ∈ handedOut calls, c.result.toNat % c.alignment.toNat = 0
  low : ∀ c ∈ handedOut calls, start.base.toNat ≤ c.result.toNat
  high : ∀ c ∈ handedOut calls, c.result.toNat + c.size.toNat ≤ start.top.toNat
  apart : (handedOut calls).Pairwise fun c d => c.result.toNat + c.size.toNat ≤ d.result.toNat
  unchanged : ∀ c ∈ calls, c.Failed → c.result = 0#64 ∧ c.after = c.before

/-- The rest of the region goes to the caller, and nothing more can be handed out. -/
def HandsOverRest (start : PhysAlloc) (calls : List EarlyCall) (a : PhysAlloc) : Prop :=
  ∃ base a', physAllocGetUnused a = some ((base, start.top), a') ∧
    base.toNat = endOfLast start.base calls ∧
    ∀ alignment size, earlyMemalign a' alignment size = none

section Runs

variable {start a : PhysAlloc} {calls : List EarlyCall}

theorem handedOut_append (calls : List EarlyCall) (c : EarlyCall) :
    handedOut (calls ++ [c]) = if c.Failed then handedOut calls else handedOut calls ++ [c] := by
  unfold handedOut
  rw [List.filter_append]
  split_ifs with hfailed
  · simp [hfailed]
  · simp [hfailed]

/-- What a run maintains: the base stands at the end of the last region. -/
structure EarlyRun.Kept (start : PhysAlloc) (calls : List EarlyCall) (a : PhysAlloc) : Prop
    extends EarlyRegions start calls where
  top : a.top = start.top
  base : a.base.toNat = endOfLast start.base calls
  above : start.base.toNat ≤ a.base.toNat
  below : ∀ c ∈ handedOut calls, c.result.toNat + c.size.toNat ≤ a.base.toNat

/-- The calls that failed changed nothing, with one more of them or with one that did not fail. -/
theorem unchanged_append {c : EarlyCall}
    (h : ∀ d ∈ calls, d.Failed → d.result = 0#64 ∧ d.after = d.before)
    (hc : c.Failed → c.result = 0#64 ∧ c.after = c.before) :
    ∀ d ∈ calls ++ [c], d.Failed → d.result = 0#64 ∧ d.after = d.before := by
  intro d hd
  rcases List.mem_append.mp hd with hold | hnew
  · exact h d hold
  · rw [List.mem_singleton.mp hnew]
    exact hc

/-- A call that fails leaves the list of regions as it was. -/
theorem EarlyRun.Kept.failed (h : EarlyRun.Kept start calls a) {c : EarlyCall} (hfailed : c.Failed)
    (hresult : c.result = 0#64) (hafter : c.after = c.before) :
    EarlyRun.Kept start (calls ++ [c]) a := by
  have hsame := (handedOut_append calls c).trans (if_pos hfailed)
  exact
    { aligned := by rw [hsame]; exact h.aligned
      low := by rw [hsame]; exact h.low
      high := by rw [hsame]; exact h.high
      apart := by rw [hsame]; exact h.apart
      unchanged := unchanged_append h.unchanged fun _ => ⟨hresult, hafter⟩
      top := h.top
      base := by rw [endOfLast, hsame]; exact h.base
      above := h.above
      below := by rw [hsame]; exact h.below }

/-- A call that hands out a region puts it behind all others. -/
theorem EarlyRun.Kept.granted (h : EarlyRun.Kept start calls a) {c : EarlyCall}
    (hgranted : ¬ c.Failed) (haligned : c.result.toNat % c.alignment.toNat = 0)
    (hle : a.base.toNat ≤ c.result.toNat)
    (hend : c.after.base.toNat = c.result.toNat + c.size.toNat) (htop : c.after.top = a.top)
    (hhigh : c.after.base.toNat ≤ a.top.toNat) : EarlyRun.Kept start (calls ++ [c]) c.after := by
  have hmore := (handedOut_append calls c).trans (if_neg hgranted)
  have habove := h.above
  have hall : ∀ (P : EarlyCall → Prop), (∀ d ∈ handedOut calls, P d) → P c →
      ∀ d ∈ handedOut (calls ++ [c]), P d := by
    intro P hold hnew d hd
    rw [hmore, List.mem_append, List.mem_singleton] at hd
    rcases hd with hd | rfl
    · exact hold d hd
    · exact hnew
  exact
    { aligned := hall _ h.aligned haligned
      low := hall _ h.low (Nat.le_trans habove hle)
      high := hall _ h.high (by
        rw [← h.top, ← hend]
        exact hhigh)
      apart := by
        rw [hmore, List.pairwise_append]
        refine ⟨h.apart, List.pairwise_singleton _ _, fun d hd e he => ?_⟩
        rw [List.mem_singleton.mp he]
        exact Nat.le_trans (h.below d hd) hle
      unchanged := unchanged_append h.unchanged fun hfailed => (hgranted hfailed).elim
      top := htop.trans h.top
      base := by
        rw [endOfLast, hmore, List.getLast?_append, List.getLast?_singleton]
        exact hend
      above := by omega
      below := hall _ (fun d hd => by have := h.below d hd; omega) (Nat.le_of_eq hend.symm) }

theorem EarlyRun.kept (h : EarlyRun start calls a) : EarlyRun.Kept start calls a := by
  induction h with
  | nil =>
      exact
        { aligned := nofun
          low := nofun
          high := nofun
          apart := .nil
          unchanged := nofun
          top := rfl
          base := rfl
          above := Nat.le_refl _
          below := nofun }
  | step _ hk hnowrap hexec ih =>
      rcases earlyMemalign_spec hk hnowrap hexec with ⟨hfailed, rfl, rfl⟩ |
        ⟨hgranted, haligned, hle, hend, htop, hhigh⟩
      · exact ih.failed hfailed rfl rfl
      · rw [← toNat_two_pow hk] at haligned
        exact ih.granted hgranted haligned hle hend htop hhigh

/-- With the base at the top the first assertion fails. -/
theorem earlyMemalign_exhausted (h : a.base = a.top) (alignment size : Word) :
    earlyMemalign a alignment size = none := by
  have hnone : physAllocAlignedSafe a size alignment true = none := by
    rw [physAllocAlignedSafe, topSafe_eq, if_pos]
    rw [h]
    exact BitVec.lt_irrefl _
  rw [earlyMemalign, hnone]
  split <;> rfl

/-- `phys_alloc_get_unused` takes the rest unless it needs an entry that the log does not have. -/
theorem physAllocGetUnused_spec (h : a.nrRegions < PHYS_ALLOC_NR_REGIONS ∨ a.base = a.top) :
    ∃ a', physAllocGetUnused a = some ((a.base, a.top), a') ∧ a'.base = a'.top := by
  unfold physAllocGetUnused logRegion
  by_cases hsame : a.base = a.top
  · rw [if_pos hsame]
    exact ⟨a, rfl, hsame⟩
  · rw [if_neg hsame, dif_pos (h.resolve_right hsame)]
    exact ⟨_, rfl, rfl⟩

theorem physAllocGetUnused_eq_none (hfull : ¬ a.nrRegions < PHYS_ALLOC_NR_REGIONS)
    (hne : a.base ≠ a.top) : physAllocGetUnused a = none := by
  rw [physAllocGetUnused, if_neg hne, logRegion, dif_neg hfull]
  rfl

/-- **The early allocator hands out disjoint regions and then the rest**, exactly if the log still
    has an entry, or nothing is left, when the rest is asked for. -/
theorem early_regions_and_rest_iff {a₀ : PhysAlloc} {base size : Word}
    (hrun : EarlyRun (physAllocInit a₀ base size) calls a) :
    EarlyRegions (physAllocInit a₀ base size) calls ∧
        HandsOverRest (physAllocInit a₀ base size) calls a ↔
      a.nrRegions < PHYS_ALLOC_NR_REGIONS ∨ a.base = a.top := by
  have hkept := hrun.kept
  constructor
  · rintro ⟨-, rest, a', hrest, -⟩
    by_contra hfull
    obtain ⟨hfull, hne⟩ := not_or.mp hfull
    rw [physAllocGetUnused_eq_none hfull hne] at hrest
    exact absurd hrest (by simp)
  · intro hroom
    obtain ⟨a', hrest, hdone⟩ := physAllocGetUnused_spec hroom
    rw [hkept.top] at hrest
    exact ⟨hkept.toEarlyRegions, a.base, a', hrest, hkept.base, earlyMemalign_exhausted hdone⟩

def bootRegion : PhysAlloc :=
  physAllocInit ⟨0#64, 0#64, Vector.replicate _ ⟨0#64, 0#64⟩, 0⟩ 0x1000#64 0x10000#64

theorem ALIGN_32_of_lt {a : PhysAlloc} {n : Nat} (hn : n < 256)
    (hbase : a.base = BitVec.ofNat 64 (0x1000 + 32 * n)) :
    ALIGN a.base (BitVec.ofNat 64 (2 ^ 5)) = a.base := by
  have hnat : a.base.toNat = 0x1000 + 32 * n := by
    rw [hbase, BitVec.toNat_ofNat]
    omega
  apply BitVec.eq_of_toNat_eq
  rw [toNat_ALIGN_of_le (by omega) (by omega), hnat]
  omega

/-- Every request for 32 bytes uses up an entry of the log. -/
theorem earlyMemalign_32 {a : PhysAlloc} {n : Nat} (hn : n < 256)
    (hbase : a.base = BitVec.ofNat 64 (0x1000 + 32 * n)) (htop : a.top = 0x11000#64)
    (hcount : a.nrRegions = n) :
    ∃ a', earlyMemalign a (BitVec.ofNat 64 (2 ^ 5)) 32#64 = some (a.base, a') ∧
      a'.base = BitVec.ofNat 64 (0x1000 + 32 * (n + 1)) ∧ a'.top = 0x11000#64 ∧
      a'.nrRegions = n + 1 := by
  have hnat : a.base.toNat = 0x1000 + 32 * n := by
    rw [hbase, BitVec.toNat_ofNat]
    omega
  have hbelow : a.base < a.top := by
    rw [htop, BitVec.lt_def, hnat, BitVec.toNat_ofNat]
    omega
  have hroom : ¬ a.top - a.base < 32#64 := by
    rw [htop]
    bv_omega
  have hslot : a.nrRegions < PHYS_ALLOC_NR_REGIONS := by
    rw [hcount]
    exact hn
  refine ⟨⟨a.base + 32#64, a.top, a.regions.set a.nrRegions ⟨a.base, 32#64⟩ hslot,
    a.nrRegions + 1⟩, ?_, ?_, htop, congrArg (· + 1) hcount⟩
  · have hzero : 32#64 + (a.base - a.base) = 32#64 := by bv_omega
    rw [earlyMemalign_eq (by omega) hbelow, ALIGN_32_of_lt hn hbase]
    dsimp only
    rw [hzero, if_neg hroom, logRegion, dif_pos hslot]
    rfl
  · change a.base + 32#64 = _
    bv_omega

theorem exists_earlyRun_32 {n : Nat} (hn : n ≤ 256) :
    ∃ calls a, EarlyRun bootRegion calls a ∧ calls.length = n ∧
      a.base = BitVec.ofNat 64 (0x1000 + 32 * n) ∧ a.top = 0x11000#64 ∧ a.nrRegions = n := by
  induction n with
  | zero => exact ⟨[], bootRegion, .nil, rfl, rfl, rfl, rfl⟩
  | succ n ih =>
      obtain ⟨calls, a, hrun, hlength, hbase, htop, hcount⟩ := ih (by omega)
      obtain ⟨a', hexec, hbase', htop', hcount'⟩ := earlyMemalign_32 hn hbase htop hcount
      have hnowrap : a.NoWrap (BitVec.ofNat 64 (2 ^ 5)) 32#64 := by
        rw [PhysAlloc.NoWrap, ALIGN_32_of_lt hn hbase, hbase]
        constructor
        · rw [BitVec.toNat_ofNat, BitVec.toNat_ofNat]
          omega
        · rw [BitVec.sub_self]
          decide
      refine ⟨_, a', hrun.step (by omega) hnowrap hexec, ?_, hbase', htop', hcount'⟩
      rw [List.length_append, hlength]
      rfl

/-- After two requests the rest can be handed over. -/
theorem early_regions_and_rest_after_two :
    ∃ calls a, EarlyRun bootRegion calls a ∧ calls.length = 2 ∧ EarlyRegions bootRegion calls ∧
      HandsOverRest bootRegion calls a := by
  obtain ⟨calls, a, hrun, hlength, -, -, hcount⟩ := exists_earlyRun_32 (n := 2) (by omega)
  have hslot : a.nrRegions < PHYS_ALLOC_NR_REGIONS := by
    rw [hcount]
    decide
  obtain ⟨hregions, hrest⟩ := (early_regions_and_rest_iff hrun).mpr (Or.inl hslot)
  exact ⟨calls, a, hrun, hlength, hregions, hrest⟩

/-- After 256 requests of 32 bytes the entry behind the table is written. -/
theorem physAllocGetUnused_after_256 :
    ∃ calls a, EarlyRun bootRegion calls a ∧ calls.length = 256 ∧ a.base ≠ a.top ∧
      physAllocGetUnused a = none ∧ ¬ HandsOverRest bootRegion calls a := by
  obtain ⟨calls, a, hrun, hlength, hbase, htop, hcount⟩ := exists_earlyRun_32 (Nat.le_refl 256)
  have hne : a.base ≠ a.top := by
    rw [hbase, htop]
    decide
  have hnone : physAllocGetUnused a = none :=
    physAllocGetUnused_eq_none (by rw [hcount]; decide) hne
  refine ⟨calls, a, hrun, hlength, hne, hnone, ?_⟩
  rintro ⟨rest, a', hrest, -⟩
  rw [hnone] at hrest
  exact absurd hrest (by simp)

end Runs

end AcrnGuest
