import Mathlib.Data.Fintype.Card
import Mathlib.Data.Finset.Card
import Mathlib.Data.List.FinRange
import Mathlib.Logic.Function.Basic

/-!
# Starting the other processors (`cstart64.S`, `cstart64_hsi.S`, `lib/x86/misc.c`)

The boot processor stores its local APIC id, starts the application processors and
waits until all of them are counted. Each application processor records its id
under a lock unless the flag `is_all_cpu_init` is set. The two boot paths differ in
one point: in `cstart64.S` a processor is counted after it has recorded its id, in
`cstart64_hsi.S` before.

A run is a schedule, the list of the processors in the order in which they take
their steps. Spinning on the lock and waiting for the counter are steps that change
nothing.
-/

namespace AcrnGuest

/-! ### The source -/

/-- The processors of a system with `m + 1` cores, which is also the size of
    `lapicid_map`. -/
structure Cpus (m : Nat) where
  bspId : BitVec 8
  apId : Fin m → BitVec 8
  apId_injective : Function.Injective apId
  apId_ne_bspId : ∀ k, apId k ≠ bspId
  count_lt : m + 1 < 256

inductive BootPath
  | cstart64
  | cstart64Hsi
deriving DecidableEq

/-- The boot processor in `smp_init` and `bringup_ap`. -/
inductive BspPc
  | storeId
  | nbCpus
  | sipi
  | wait
  | setFlag
  | done
deriving DecidableEq

/-- An application processor; from `lock` to `unlock` it is in `ap_record_lapicid`. -/
inductive ApPc
  | off
  | inc
  | test
  | lock
  | load
  | store (recorded : BitVec 8)
  | bump (recorded : BitVec 8)
  | unlock
  | main
deriving DecidableEq

structure Boot (m : Nat) where
  lapicidMap : Nat → BitVec 8
  recorded : BitVec 8
  lock : Bool
  cpuOnlineCount : BitVec 16
  isAllCpuInit : Bool
  bsp : BspPc
  ap : Fin m → ApPc
  -- history: the processors that found `is_all_cpu_init` set
  late : Fin m → Bool

/-- The first step of a started processor. -/
def BootPath.entry : BootPath → ApPc
  | .cstart64 => .test
  | .cstart64Hsi => .inc

def BootPath.afterRecord : BootPath → ApPc
  | .cstart64 => .inc
  | .cstart64Hsi => .main

def BootPath.afterInc : BootPath → ApPc
  | .cstart64 => .main
  | .cstart64Hsi => .test

section Source

variable {m : Nat}

/-- One step of the boot processor. The store of the id is 32 bits wide. -/
def bspStep (cpus : Cpus m) (path : BootPath) (s : Boot m) : Boot m :=
  match s.bsp with
  | .storeId =>
      { s with
        lapicidMap := fun i =>
          if i < 4 then ((cpus.bspId.setWidth 32 : BitVec 32) >>> (8 * i)).setWidth 8
          else s.lapicidMap i
        bsp := .nbCpus }
  | .nbCpus => { s with bsp := if m + 1 = 1 then .setFlag else .sipi }
  | .sipi => { s with ap := fun _ => path.entry, bsp := .wait }
  | .wait => if s.cpuOnlineCount.toInt < (m + 1 : Nat) then s else { s with bsp := .setFlag }
  | .setFlag => { s with isAllCpuInit := true, bsp := .done }
  | .done => s

/-- Where a processor is after its next step. -/
def apNext (path : BootPath) (s : Boot m) : ApPc → ApPc
  | .off => .off
  | .inc => path.afterInc
  | .test => if s.isAllCpuInit then path.afterRecord else .lock
  | .lock => if s.lock then .lock else .load
  | .load => if s.recorded.toNat < m + 1 then .store s.recorded else .unlock
  | .store recorded => .bump recorded
  | .bump _ => .unlock
  | .unlock => path.afterRecord
  | .main => .main

/-- What the next step of processor `k` does to the memory. -/
def apEffect (cpus : Cpus m) (s : Boot m) (k : Fin m) : ApPc → Boot m
  | .inc => { s with cpuOnlineCount := s.cpuOnlineCount + 1#16 }
  | .test => { s with late := Function.update s.late k (s.late k || s.isAllCpuInit) }
  | .lock => { s with lock := true }
  | .store recorded =>
      { s with lapicidMap := Function.update s.lapicidMap recorded.toNat (cpus.apId k) }
  | .bump recorded => { s with recorded := recorded + 1#8 }
  | .unlock => { s with lock := false }
  | _ => s

def apStep (cpus : Cpus m) (path : BootPath) (s : Boot m) (k : Fin m) : Boot m :=
  { apEffect cpus s k (s.ap k) with ap := Function.update s.ap k (apNext path s (s.ap k)) }

inductive Agent (m : Nat)
  | bsp
  | ap (k : Fin m)

def bootStep (cpus : Cpus m) (path : BootPath) (s : Boot m) : Agent m → Boot m
  | .bsp => bspStep cpus path s
  | .ap k => apStep cpus path s k

def bootStart (m : Nat) : Boot m where
  lapicidMap _ := 0#8
  recorded := 1#8
  lock := false
  cpuOnlineCount := 1#16
  isAllCpuInit := false
  bsp := .storeId
  ap _ := .off
  late _ := false

def bootRun (cpus : Cpus m) (path : BootPath) (schedule : List (Agent m)) : Boot m :=
  schedule.foldl (bootStep cpus path) (bootStart m)

/-- The loop of `get_cpu_id`, with `left` entries to go from index `i` on. -/
def getCpuIdLoop (lapicidMap : Nat → BitVec 8) (lapicId : BitVec 32) : Nat → Nat → Int
  | 0, _ => -1
  | left + 1, i =>
      if (lapicidMap i).setWidth 32 = lapicId then i
        else getCpuIdLoop lapicidMap lapicId left (i + 1)

def getCpuId (size : Nat) (lapicidMap : Nat → BitVec 8) (lapicId : BitVec 32) : Int :=
  getCpuIdLoop lapicidMap lapicId size 0

def INVALID_ID : BitVec 8 := 255#8

def getLapicidMap (size : Nat) (lapicidMap : Nat → BitVec 8) (cpu : BitVec 8) : BitVec 8 :=
  if cpu.toNat < size then lapicidMap cpu.toNat else INVALID_ID

/-! ### What the map should hold -/

/-- The id of the boot processor comes first, and the id of every other processor is
    at exactly one of the other indices. -/
def MapComplete (cpus : Cpus m) (lapicidMap : Nat → BitVec 8) : Prop :=
  lapicidMap 0 = cpus.bspId ∧ ∀ k, ∃! i, 1 ≤ i ∧ i < m + 1 ∧ lapicidMap i = cpus.apId k

end Source

section Invariants

variable {m : Nat} {cpus : Cpus m} {path : BootPath} {s : Boot m}

/-! ### What a step leaves alone -/

theorem apStep_bsp (k : Fin m) : (apStep cpus path s k).bsp = s.bsp := by
  unfold apStep
  cases s.ap k <;> rfl

theorem apStep_isAllCpuInit (k : Fin m) : (apStep cpus path s k).isAllCpuInit = s.isAllCpuInit := by
  unfold apStep
  cases s.ap k <;> rfl

theorem apStep_ap_self (k : Fin m) : (apStep cpus path s k).ap k = apNext path s (s.ap k) :=
  Function.update_self ..

theorem apStep_ap_of_ne {k k' : Fin m} (hne : k' ≠ k) : (apStep cpus path s k).ap k' = s.ap k' :=
  Function.update_of_ne hne ..

theorem apStep_cpuOnlineCount {k : Fin m} (h : s.ap k ≠ .inc) :
    (apStep cpus path s k).cpuOnlineCount = s.cpuOnlineCount := by
  unfold apStep
  cases hpc : s.ap k with
  | inc => exact absurd hpc h
  | _ => rfl

theorem apStep_late {k : Fin m} (h : s.ap k ≠ .test) : (apStep cpus path s k).late = s.late := by
  unfold apStep
  cases hpc : s.ap k with
  | test => exact absurd hpc h
  | _ => rfl

theorem apStep_lapicidMap {k : Fin m} (h : ∀ r, s.ap k ≠ .store r) :
    (apStep cpus path s k).lapicidMap = s.lapicidMap := by
  unfold apStep
  cases hpc : s.ap k with
  | store r => exact absurd hpc (h r)
  | _ => rfl

theorem apStep_recorded {k : Fin m} (h : ∀ r, s.ap k ≠ .bump r) :
    (apStep cpus path s k).recorded = s.recorded := by
  unfold apStep
  cases hpc : s.ap k with
  | bump r => exact absurd hpc (h r)
  | _ => rfl

/-! ### The lock -/

def ApPc.critical : ApPc → Bool
  | .load => true
  | .store _ => true
  | .bump _ => true
  | .unlock => true
  | _ => false

/-- The lock is held exactly by the processor in the critical section. -/
def Boot.Locked (s : Boot m) : Prop :=
  ∃ owner : Option (Fin m), s.lock = owner.isSome ∧ ∀ k, (s.ap k).critical = true ↔ owner = some k

theorem critical_entry (path : BootPath) : path.entry.critical = false := by cases path <;> rfl

theorem critical_afterRecord (path : BootPath) : path.afterRecord.critical = false := by
  cases path <;> rfl

theorem critical_afterInc (path : BootPath) :
    path.afterInc.critical = false := by cases path <;> rfl

theorem Boot.Locked.unique (h : s.Locked) {k k' : Fin m} (hk : (s.ap k).critical = true)
    (hk' : (s.ap k').critical = true) : k = k' := by
  obtain ⟨owner, -, howner⟩ := h
  exact Option.some.inj (((howner k).mp hk).symm.trans ((howner k').mp hk'))

/-- While one processor is in the critical section no other one is. -/
theorem Boot.Locked.ne_of_critical (h : s.Locked) {k k' : Fin m} (hk : (s.ap k).critical = true)
    (hne : k' ≠ k) {pc : ApPc} (hpc : pc.critical = true) : s.ap k' ≠ pc :=
  fun heq => hne (h.unique (heq ▸ hpc) hk)

/-- A step in the critical section leaves the other processors outside of it. -/
theorem Boot.Locked.apStep_ne (h : s.Locked) {k : Fin m} (hk : (s.ap k).critical = true) {pc : ApPc}
    (hpc : pc.critical = true) (hself : (AcrnGuest.apStep cpus path s k).ap k ≠ pc) (k' : Fin m) :
    (AcrnGuest.apStep cpus path s k).ap k' ≠ pc := by
  by_cases heq : k' = k
  · rw [heq]
    exact hself
  · rw [apStep_ap_of_ne heq]
    exact h.ne_of_critical hk heq hpc

theorem Boot.Locked.bspStep (h : s.Locked) (hoff : s.bsp = .sipi → ∀ k, s.ap k = .off) :
    (bspStep cpus path s).Locked := by
  obtain ⟨owner, hlock, howner⟩ := h
  unfold AcrnGuest.bspStep
  cases hbsp : s.bsp with
  | sipi =>
      refine ⟨owner, hlock, fun k => ?_⟩
      rw [← howner k, hoff hbsp k, critical_entry]
      rfl
  | wait =>
      dsimp only
      split_ifs
      · exact ⟨owner, hlock, howner⟩
      · exact ⟨owner, hlock, howner⟩
  | storeId => exact ⟨owner, hlock, howner⟩
  | nbCpus => exact ⟨owner, hlock, howner⟩
  | setFlag => exact ⟨owner, hlock, howner⟩
  | done => exact ⟨owner, hlock, howner⟩

/-- A step of `k` that makes it the owner, or leaves the ownership alone, or gives it up. -/
theorem locked_of_update {ap : Fin m → ApPc} {owner owner' : Option (Fin m)} {k : Fin m} {pc : ApPc}
    (howner : ∀ k', (ap k').critical = true ↔ owner = some k')
    (hself : pc.critical = true ↔ owner' = some k)
    (hother : ∀ k', k' ≠ k → (owner = some k' ↔ owner' = some k')) :
    ∀ k', (Function.update ap k pc k').critical = true ↔ owner' = some k' := by
  intro k'
  by_cases hk : k' = k
  · rw [hk, Function.update_self]
    exact hself
  · rw [Function.update_of_ne hk, howner, hother k' hk]

theorem Boot.Locked.apStep (h : s.Locked) (k : Fin m) : (apStep cpus path s k).Locked := by
  obtain ⟨owner, hlock, howner⟩ := h
  have hk := howner k
  -- a step inside or outside of the critical section
  have hsame : (apNext path s (s.ap k)).critical = (s.ap k).critical →
      ∀ k', (Function.update s.ap k (apNext path s (s.ap k)) k').critical = true ↔
        owner = some k' :=
    fun heq => locked_of_update howner (by rw [heq, hk]) fun _ _ => Iff.rfl
  unfold AcrnGuest.apStep
  cases hpc : s.ap k with
  | off => exact ⟨owner, hlock, hpc ▸ hsame (by rw [hpc]; rfl)⟩
  | inc => exact ⟨owner, hlock, hpc ▸ hsame (by rw [hpc]; exact critical_afterInc path)⟩
  | test =>
      refine ⟨owner, hlock, hpc ▸ hsame ?_⟩
      rw [hpc]
      unfold apNext
      dsimp only
      split_ifs
      · exact critical_afterRecord path
      · rfl
  | lock =>
      rw [hpc] at hk
      cases hheld : s.lock with
      | true =>
          refine ⟨owner, hheld.symm.trans hlock, hpc ▸ hsame ?_⟩
          rw [hpc]
          simp [apNext, hheld, ApPc.critical]
      | false =>
          have hnone : owner = none :=
            Option.not_isSome_iff_eq_none.mp (by rw [← hlock, hheld]; exact Bool.false_ne_true)
          refine ⟨some k, rfl, locked_of_update howner ?_ fun k' hne => ?_⟩
          · simp [apNext, hheld, ApPc.critical]
          · rw [hnone]
            simp [Ne.symm hne]
  | load =>
      refine ⟨owner, hlock, hpc ▸ hsame ?_⟩
      rw [hpc]
      unfold apNext
      dsimp only
      split_ifs <;> rfl
  | store r => exact ⟨owner, hlock, hpc ▸ hsame (by rw [hpc]; rfl)⟩
  | bump r => exact ⟨owner, hlock, hpc ▸ hsame (by rw [hpc]; rfl)⟩
  | unlock =>
      rw [hpc] at hk
      have hheld : owner = some k := hk.mp rfl
      refine ⟨none, rfl, locked_of_update howner ?_ fun k' hne => ?_⟩
      · rw [apNext, critical_afterRecord]
        simp
      · rw [hheld]
        simp [Ne.symm hne]
  | main => exact ⟨owner, hlock, hpc ▸ hsame (by rw [hpc]; rfl)⟩

/-! ### The counter -/

def BootPath.counted : BootPath → ApPc → Bool
  | .cstart64, .main => true
  | .cstart64, _ => false
  | .cstart64Hsi, .off => false
  | .cstart64Hsi, .inc => false
  | .cstart64Hsi, _ => true

def BspPc.beforeSipi : BspPc → Bool
  | .storeId => true
  | .nbCpus => true
  | .sipi => true
  | _ => false

def BspPc.waited : BspPc → Bool
  | .setFlag => true
  | .done => true
  | _ => false

def Boot.online (path : BootPath) (s : Boot m) : Nat :=
  (Finset.univ.filter fun k => path.counted (s.ap k) = true).card

structure Boot.Counted (path : BootPath) (s : Boot m) : Prop where
  count : s.cpuOnlineCount.toNat = 1 + s.online path
  off : s.bsp.beforeSipi = true → ∀ k, s.ap k = .off
  waited : s.bsp.waited = true → ∀ k, path.counted (s.ap k) = true
  flag : s.isAllCpuInit = true → s.bsp = .done

theorem counted_off (path : BootPath) : path.counted .off = false := by cases path <;> rfl

theorem counted_inc (path : BootPath) : path.counted .inc = false := by cases path <;> rfl

theorem counted_entry (path : BootPath) : path.counted path.entry = false := by cases path <;> rfl

theorem counted_afterInc (path : BootPath) : path.counted path.afterInc = true := by
  cases path <;> rfl

/-- Only the increment changes whether a processor is counted. -/
theorem counted_apNext {pc : ApPc} (hinc : pc ≠ .inc) :
    path.counted (apNext path s pc) = path.counted pc := by
  unfold apNext
  cases path <;> cases pc <;> dsimp only <;>
    first | exact absurd rfl hinc | rfl | (split_ifs <;> rfl)

theorem Boot.online_le (path : BootPath) (s : Boot m) : s.online path ≤ m :=
  (Finset.card_le_univ _).trans_eq (Fintype.card_fin m)

theorem Boot.online_eq_zero (h : ∀ k, path.counted (s.ap k) = false) : s.online path = 0 := by
  unfold Boot.online
  rw [Finset.card_eq_zero, Finset.filter_eq_empty_iff]
  intro k _
  rw [h k]
  exact Bool.false_ne_true

/-- When the counter has reached the number of cores, every processor is counted. -/
theorem Boot.counted_of_online (h : m ≤ s.online path) (k : Fin m) :
    path.counted (s.ap k) = true := by
  have hcard : (Finset.univ.filter fun k => path.counted (s.ap k) = true).card =
      Fintype.card (Fin m) :=
    (s.online_le path |>.antisymm h).trans (Fintype.card_fin m).symm
  have hmem : k ∈ Finset.univ.filter fun k => path.counted (s.ap k) = true := by
    rw [(Finset.card_eq_iff_eq_univ _).mp hcard]
    exact Finset.mem_univ k
  exact (Finset.mem_filter.mp hmem).2

/-- The counter is read as a signed short; it never leaves the small numbers. -/
theorem Boot.Counted.toInt_count (h : s.Counted path) (cpus : Cpus m) :
    s.cpuOnlineCount.toInt = (1 + s.online path : Nat) := by
  have hle := s.online_le path
  have hlt := cpus.count_lt
  have hcount := h.count
  rw [BitVec.toInt_eq_toNat_of_lt (by omega), hcount]

theorem Boot.Counted.bspStep (h : s.Counted path) : (bspStep cpus path s).Counted path := by
  have hflag : ∀ pc, s.bsp = pc → pc ≠ .done → s.isAllCpuInit = true → False :=
    fun pc hpc hne hset => hne (hpc.symm.trans (h.flag hset))
  unfold AcrnGuest.bspStep
  cases hbsp : s.bsp with
  | storeId =>
      exact ⟨h.count, fun _ => h.off (by rw [hbsp]; rfl), fun hw => absurd hw Bool.false_ne_true,
        fun hset => (hflag _ hbsp (by decide) hset).elim⟩
  | nbCpus =>
      have hoff := h.off (by rw [hbsp]; rfl)
      dsimp only
      split_ifs with hone
      · refine ⟨h.count, fun _ => hoff, fun _ k => ?_, fun hset =>
          (hflag _ hbsp (by decide) hset).elim⟩
        -- a single core: there is no other processor
        exact absurd k.isLt (by omega)
      · exact ⟨h.count, fun _ => hoff, fun hw => absurd hw Bool.false_ne_true,
          fun hset => (hflag _ hbsp (by decide) hset).elim⟩
  | sipi =>
      have hoff := h.off (by rw [hbsp]; rfl)
      refine ⟨?_, fun hb => absurd hb Bool.false_ne_true, fun hw => absurd hw Bool.false_ne_true,
        fun hset => (hflag _ hbsp (by decide) hset).elim⟩
      have hbefore : s.online path = 0 :=
        Boot.online_eq_zero fun k => by rw [hoff k, counted_off]
      rw [Boot.online_eq_zero fun k => counted_entry path]
      exact hbefore ▸ h.count
  | wait =>
      have hint := h.toInt_count cpus
      dsimp only
      split_ifs with hlt
      · exact h
      · refine ⟨h.count, fun hb => absurd hb Bool.false_ne_true, fun _ => ?_,
          fun hset => (hflag _ hbsp (by decide) hset).elim⟩
        have hall : m ≤ s.online path := by omega
        exact Boot.counted_of_online hall
  | setFlag =>
      exact ⟨h.count, fun hb => absurd hb Bool.false_ne_true, fun _ => h.waited (by rw [hbsp]; rfl),
        fun _ => rfl⟩
  | done => exact h

theorem apStep_online (k : Fin m) (hinc : s.ap k ≠ .inc) :
    (apStep cpus path s k).online path = s.online path := by
  unfold Boot.online
  refine congrArg Finset.card (Finset.filter_congr fun k' _ => ?_)
  by_cases hk : k' = k
  · rw [hk, apStep_ap_self, counted_apNext hinc]
  · rw [apStep_ap_of_ne hk]

theorem apStep_online_inc (k : Fin m) (hinc : s.ap k = .inc) :
    (apStep cpus path s k).online path = s.online path + 1 := by
  have hnot : k ∉ Finset.univ.filter fun k => path.counted (s.ap k) = true := by
    rw [Finset.mem_filter, hinc, counted_inc]
    exact fun hmem => Bool.false_ne_true hmem.2
  unfold Boot.online
  rw [← Finset.card_insert_of_notMem hnot]
  refine congrArg Finset.card (Finset.ext fun k' => ?_)
  rw [Finset.mem_insert, Finset.mem_filter, Finset.mem_filter]
  by_cases hk : k' = k
  · rw [hk, apStep_ap_self, hinc]
    simp [apNext, counted_afterInc]
  · rw [apStep_ap_of_ne hk]
    simp [hk]

theorem Boot.Counted.apStep (h : s.Counted path) (cpus : Cpus m) (k : Fin m) :
    (apStep cpus path s k).Counted path := by
  refine ⟨?_, ?_, ?_, ?_⟩
  · by_cases hinc : s.ap k = .inc
    · have hle := s.online_le path
      have hlt := cpus.count_lt
      have hadd : (AcrnGuest.apStep cpus path s k).cpuOnlineCount = s.cpuOnlineCount + 1#16 := by
        unfold AcrnGuest.apStep
        rw [hinc]
        rfl
      rw [apStep_online_inc k hinc, hadd, BitVec.toNat_add_of_lt]
      · rw [h.count]
        rfl
      · rw [h.count]
        change 1 + s.online path + 1 < 2 ^ 16
        omega
    · rw [apStep_cpuOnlineCount hinc, apStep_online k hinc]
      exact h.count
  · rw [apStep_bsp]
    intro hb k'
    by_cases hk : k' = k
    · rw [hk, apStep_ap_self, h.off hb k]
      rfl
    · rw [apStep_ap_of_ne hk, h.off hb k']
  · rw [apStep_bsp]
    intro hw k'
    by_cases hk : k' = k
    · have hcounted := h.waited hw k
      have hinc : s.ap k ≠ .inc := by
        intro hinc
        rw [hinc, counted_inc] at hcounted
        exact Bool.false_ne_true hcounted
      rw [hk, apStep_ap_self, counted_apNext hinc, hcounted]
    · rw [apStep_ap_of_ne hk, h.waited hw k']
  · rw [apStep_bsp, apStep_isAllCpuInit]
    exact h.flag

end Invariants

end AcrnGuest
