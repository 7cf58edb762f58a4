import Mathlib.Data.Fintype.EquivFin
import AcrnGuest.SmpBoot

/-!
# The map of local APIC ids after the boot

`Boot.Recorded` describes the map in the middle of the boot by the list of the
processors that have stored their id. It holds in every state of every schedule, on
both boot paths, and at the end of the boot it decides whether the map is complete:
on the path of `cstart64.S` no processor comes too late, on the path of
`cstart64_hsi.S` one may.
-/

namespace AcrnGuest

section Records

variable {m : Nat} {cpus : Cpus m} {path : BootPath} {s : Boot m} {log : List (Fin m)}

/-! ### The records in the middle of the boot -/

def BootPath.past : BootPath → ApPc → Bool
  | _, .bump _ => true
  | _, .unlock => true
  | _, .main => true
  | .cstart64, .inc => true
  | _, _ => false

/-- `log` is the list of the processors that have stored their id, in order. -/
structure Boot.Recorded (cpus : Cpus m) (path : BootPath) (s : Boot m) (log : List (Fin m)) :
    Prop where
  bspId : s.bsp ≠ .storeId → s.lapicidMap 0 = cpus.bspId
  slot : ∀ j (h : j < log.length), s.lapicidMap (j + 1) = cpus.apId log[j]
  zero : ∀ i, log.length < i → s.lapicidMap i = 0#8
  nodup : log.Nodup
  logged : ∀ k ∈ log, path.past (s.ap k) = true ∧ s.late k = false
  late : ∀ k, s.late k = true → path.past (s.ap k) = true
  past : ∀ k, path.past (s.ap k) = true → k ∈ log ∨ s.late k = true
  store : ∀ k r, s.ap k = .store r → r = s.recorded
  bump : ∀ k r, s.ap k = .bump r → r.toNat = log.length
  recorded : (∀ k r, s.ap k ≠ .bump r) → s.recorded.toNat = log.length + 1

theorem past_entry (path : BootPath) : path.past path.entry = false := by cases path <;> rfl

theorem past_afterRecord (path : BootPath) : path.past path.afterRecord = true := by
  cases path <;> rfl

theorem length_le_of_nodup (h : log.Nodup) : log.length ≤ m :=
  h.length_le_card.trans_eq (Fintype.card_fin m)

theorem length_lt_of_notMem (h : log.Nodup) {k : Fin m} (hk : k ∉ log) : log.length < m := by
  have hcons := length_le_of_nodup (List.nodup_cons.mpr ⟨hk, h⟩)
  rwa [List.length_cons] at hcons

theorem Boot.Recorded.notMem (h : s.Recorded cpus path log) {k : Fin m}
    (hpast : path.past (s.ap k) = false) : k ∉ log :=
  fun hmem => Bool.false_ne_true (hpast.symm.trans (h.logged k hmem).1)

theorem Boot.Recorded.late_eq_false (h : s.Recorded cpus path log) {k : Fin m}
    (hpast : path.past (s.ap k) = false) : s.late k = false :=
  Bool.eq_false_iff.mpr fun hlate => Bool.false_ne_true (hpast.symm.trans (h.late k hlate))

theorem storedByte_zero (id : BitVec 8) :
    ((id.setWidth 32 : BitVec 32) >>> (8 * 0)).setWidth 8 = id := by
  apply BitVec.eq_of_toNat_eq
  have hid := id.isLt
  simp only [Nat.mul_zero, BitVec.ushiftRight_zero, BitVec.toNat_setWidth]
  omega

theorem storedByte_pos (id : BitVec 8) {i : Nat} (hi : 1 ≤ i) :
    ((id.setWidth 32 : BitVec 32) >>> (8 * i)).setWidth 8 = 0#8 := by
  apply BitVec.eq_of_toNat_eq
  have hid := id.isLt
  have hpow : 2 ^ 8 ≤ 2 ^ (8 * i) := Nat.pow_le_pow_right (by decide) (by omega)
  have hwide : id.toNat % 2 ^ 32 = id.toNat := Nat.mod_eq_of_lt (by omega)
  rw [BitVec.toNat_setWidth, BitVec.toNat_ushiftRight, BitVec.toNat_setWidth, hwide,
    Nat.shiftRight_eq_div_pow, Nat.div_eq_of_lt (lt_of_lt_of_le hid hpow)]
  rfl

theorem Boot.Recorded.log_eq_nil (h : s.Recorded cpus path log) (hoff : ∀ k, s.ap k = .off) :
    log = [] := by
  apply List.eq_nil_iff_forall_not_mem.mpr
  intro k
  apply h.notMem
  rw [hoff k]
  cases path <;> rfl

theorem Boot.Recorded.bspStep (h : s.Recorded cpus path log) (hcounted : s.Counted path) :
    (bspStep cpus path s).Recorded cpus path log := by
  unfold AcrnGuest.bspStep
  cases hbsp : s.bsp with
  | storeId =>
      have hnil := h.log_eq_nil (hcounted.off (by rw [hbsp]; rfl))
      subst hnil
      refine { h with bspId := ?_, slot := ?_, zero := ?_ }
      · intro _
        exact storedByte_zero cpus.bspId
      · intro j hj
        exact absurd hj (Nat.not_lt_zero j)
      · intro i hi
        dsimp only
        split_ifs
        · exact storedByte_pos cpus.bspId hi
        · exact h.zero i hi
  | nbCpus => exact { h with bspId := fun _ => h.bspId (by rw [hbsp]; decide) }
  | sipi =>
      have hoff := hcounted.off (by rw [hbsp]; rfl)
      have hnil := h.log_eq_nil hoff
      subst hnil
      have hentry : ∀ r, path.entry ≠ .bump r ∧
          path.entry ≠ .store r := by cases path <;> simp [BootPath.entry]
      refine { h with
        bspId := fun _ => h.bspId (by rw [hbsp]; decide)
        logged := fun k hk => absurd hk List.not_mem_nil
        late := ?_, past := ?_, store := ?_, bump := ?_, recorded := ?_ }
      · intro k hlate
        rw [h.late_eq_false (by rw [hoff k]; cases path <;> rfl)] at hlate
        exact absurd hlate Bool.false_ne_true
      · intro k hpast
        rw [past_entry] at hpast
        exact absurd hpast Bool.false_ne_true
      · exact fun _ r hr => absurd hr (hentry r).2
      · exact fun _ r hr => absurd hr (hentry r).1
      · intro _
        exact h.recorded fun k r hr => by simp [hoff k] at hr
  | wait =>
      dsimp only
      split_ifs
      · exact h
      · exact { h with bspId := fun _ => h.bspId (by rw [hbsp]; decide) }
  | setFlag => exact { h with bspId := fun _ => h.bspId (by rw [hbsp]; decide) }
  | done => exact h

theorem Boot.Recorded.of_same_log {s' : Boot m} (h : s.Recorded cpus path log) (k : Fin m)
    (hmap : s'.lapicidMap = s.lapicidMap) (hbsp : s'.bsp = s.bsp)
    (hap : ∀ k', k' ≠ k → s'.ap k' = s.ap k') (hlate : ∀ k', k' ≠ k → s'.late k' = s.late k')
    (hlogged : k ∈ log → path.past (s'.ap k) = true ∧ s'.late k = false)
    (hself : s'.late k = true → path.past (s'.ap k) = true)
    (hpast : path.past (s'.ap k) = true → k ∈ log ∨ s'.late k = true)
    (hstore : ∀ k' r, s'.ap k' = .store r → r = s'.recorded)
    (hbump : ∀ k' r, s'.ap k' = .bump r → r.toNat = log.length)
    (hrecorded : (∀ k' r, s'.ap k' ≠ .bump r) → s'.recorded.toNat = log.length + 1) :
    s'.Recorded cpus path log where
  bspId hne := by rw [hmap]; exact h.bspId (hbsp ▸ hne)
  slot j hj := by rw [hmap]; exact h.slot j hj
  zero i hi := by rw [hmap]; exact h.zero i hi
  nodup := h.nodup
  logged k' hk' := by
    by_cases hk : k' = k
    · exact hk ▸ hlogged (hk ▸ hk')
    · rw [hap k' hk, hlate k' hk]
      exact h.logged k' hk'
  late k' := by
    by_cases hk : k' = k
    · exact hk ▸ hself
    · rw [hap k' hk, hlate k' hk]
      exact h.late k'
  past k' := by
    by_cases hk : k' = k
    · exact hk ▸ hpast
    · rw [hap k' hk, hlate k' hk]
      exact h.past k'
  store := hstore
  bump := hbump
  recorded := hrecorded

theorem Boot.Recorded.of_same_position {s' : Boot m} (h : s.Recorded cpus path log) (k : Fin m)
    (hmap : s'.lapicidMap = s.lapicidMap) (hbsp : s'.bsp = s.bsp) (hrec : s'.recorded = s.recorded)
    (hap : ∀ k', k' ≠ k → s'.ap k' = s.ap k') (hlate : ∀ k', k' ≠ k → s'.late k' = s.late k')
    (hlogged : k ∈ log → path.past (s'.ap k) = true ∧ s'.late k = false)
    (hself : s'.late k = true → path.past (s'.ap k) = true)
    (hpast : path.past (s'.ap k) = true → k ∈ log ∨ s'.late k = true)
    (hpc : ∀ r, s.ap k ≠ .bump r) (hbump : ∀ r, s'.ap k ≠ .bump r)
    (hstore : ∀ r, s'.ap k = .store r → r = s.recorded) : s'.Recorded cpus path log := by
  refine h.of_same_log k hmap hbsp hap hlate hlogged hself hpast ?_ ?_ ?_
  · intro k' r hr
    rw [hrec]
    by_cases hk : k' = k
    · exact hstore r (hk ▸ hr)
    · exact h.store k' r (hap k' hk ▸ hr)
  · intro k' r hr
    by_cases hk : k' = k
    · exact absurd (hk ▸ hr) (hbump r)
    · exact h.bump k' r (hap k' hk ▸ hr)
  · intro hnone
    rw [hrec]
    apply h.recorded
    intro k' r hr
    by_cases hk : k' = k
    · exact hpc r (hk ▸ hr)
    · exact hnone k' r ((hap k' hk).trans hr)

/-- The steps that touch neither the map nor the position in it nor the history. -/
def ApPc.plain : ApPc → Bool
  | .off => true
  | .inc => true
  | .lock => true
  | .unlock => true
  | .main => true
  | _ => false

theorem past_apNext_of_plain {pc : ApPc} (h : pc.plain = true) :
    path.past (apNext path s pc) = path.past pc := by
  cases pc <;> first | exact absurd h Bool.false_ne_true | skip
  all_goals cases path <;> cases hlock : s.lock <;>
    simp [apNext, BootPath.past, BootPath.afterInc, BootPath.afterRecord, hlock]

theorem apNext_ne_of_plain {pc : ApPc} (h : pc.plain = true) (r : BitVec 8) :
    apNext path s pc ≠ .store r ∧ apNext path s pc ≠ .bump r := by
  cases pc <;> first | exact absurd h Bool.false_ne_true | skip
  all_goals cases path <;> cases hlock : s.lock <;>
    simp [apNext, BootPath.afterInc, BootPath.afterRecord, hlock]

theorem Boot.Recorded.apStep_of_plain (h : s.Recorded cpus path log) {k : Fin m}
    (hplain : (s.ap k).plain = true) : (apStep cpus path s k).Recorded cpus path log := by
  have hne : ∀ pc : ApPc, pc.plain = false → s.ap k ≠ pc := by
    intro pc hpc heq
    rw [heq, hpc] at hplain
    exact Bool.false_ne_true hplain
  have hlate : (AcrnGuest.apStep cpus path s k).late = s.late := apStep_late (hne _ rfl)
  have hpast : path.past ((AcrnGuest.apStep cpus path s k).ap k) = path.past (s.ap k) := by
    rw [apStep_ap_self, past_apNext_of_plain hplain]
  refine h.of_same_position k (apStep_lapicidMap fun _ => hne _ rfl) (apStep_bsp k)
    (apStep_recorded fun _ => hne _ rfl) (fun _ => apStep_ap_of_ne)
    (fun k' _ => congrFun hlate k') ?_ ?_ ?_ (fun _ => hne _ rfl) ?_ ?_
  · rw [hpast, hlate]
    exact h.logged k
  · rw [hpast, hlate]
    exact h.late k
  · rw [hpast, hlate]
    exact h.past k
  · intro r
    rw [apStep_ap_self]
    exact (apNext_ne_of_plain hplain r).2
  · intro r hr
    rw [apStep_ap_self] at hr
    exact absurd hr (apNext_ne_of_plain hplain r).1

/-- A processor that finds the flag set goes on without a record. -/
theorem Boot.Recorded.apStep_test (h : s.Recorded cpus path log) {k : Fin m}
    (hpc : s.ap k = .test) : (apStep cpus path s k).Recorded cpus path log := by
  have hnot : path.past (s.ap k) = false := by rw [hpc]; cases path <;> rfl
  have hnext : (AcrnGuest.apStep cpus path s k).ap k =
      if s.isAllCpuInit then path.afterRecord else .lock := by
    rw [apStep_ap_self, hpc]
    rfl
  have hlate : (AcrnGuest.apStep cpus path s k).late =
      Function.update s.late k (s.late k || s.isAllCpuInit) := by
    unfold AcrnGuest.apStep
    rw [hpc]
    rfl
  have hself : (AcrnGuest.apStep cpus path s k).late k = s.isAllCpuInit := by
    rw [hlate, Function.update_self, h.late_eq_false hnot, Bool.false_or]
  have hpast : path.past ((AcrnGuest.apStep cpus path s k).ap k) = s.isAllCpuInit := by
    rw [hnext]
    cases s.isAllCpuInit with
    | true => exact past_afterRecord path
    | false => cases path <;> rfl
  have hne : ∀ r, (AcrnGuest.apStep cpus path s k).ap k ≠ .store r ∧
      (AcrnGuest.apStep cpus path s k).ap k ≠ .bump r := by
    intro r
    rw [hnext]
    cases path <;> cases s.isAllCpuInit <;> simp [BootPath.afterRecord]
  refine h.of_same_position k (apStep_lapicidMap (by simp [hpc])) (apStep_bsp k)
    (apStep_recorded (by simp [hpc])) (fun _ => apStep_ap_of_ne) ?_ ?_ ?_ ?_ ?_ ?_ ?_
  · intro k' hk
    rw [hlate, Function.update_of_ne hk]
  · exact fun hmem => absurd hmem (h.notMem hnot)
  · rw [hself, hpast]
    exact id
  · rw [hself, hpast]
    exact Or.inr
  · intro r hr
    simp [hpc] at hr
  · exact fun r => (hne r).2
  · exact fun r hr => absurd hr (hne r).1

/-- In the critical section no other processor is between its store and its increment. -/
theorem Boot.Recorded.recorded_of_critical (h : s.Recorded cpus path log) (hlocked : s.Locked)
    {k : Fin m} (hk : (s.ap k).critical = true) (hpc : ∀ r, s.ap k ≠ .bump r) :
    s.recorded.toNat = log.length + 1 := by
  apply h.recorded
  intro k' r hr
  have heq : k' = k := hlocked.unique (by rw [hr]; rfl) hk
  exact hpc r (heq ▸ hr)

/-- There is room for every processor: the bound on `recorded` never stops one. -/
theorem Boot.Recorded.apStep_load (h : s.Recorded cpus path log) (hlocked : s.Locked) {k : Fin m}
    (hpc : s.ap k = .load) : (apStep cpus path s k).Recorded cpus path log := by
  have hnot : path.past (s.ap k) = false := by rw [hpc]; cases path <;> rfl
  have hrec := h.recorded_of_critical hlocked (k := k) (by rw [hpc]; rfl) (by rw [hpc]; simp)
  have hroom := length_lt_of_notMem h.nodup (h.notMem hnot)
  have hnext : (AcrnGuest.apStep cpus path s k).ap k = .store s.recorded := by
    rw [apStep_ap_self, hpc, apNext, if_pos (by omega)]
  have hpast : path.past ((AcrnGuest.apStep cpus path s k).ap k) = false := by
    rw [hnext]
    cases path <;> rfl
  have hlate : (AcrnGuest.apStep cpus path s k).late = s.late := apStep_late (by simp [hpc])
  refine h.of_same_position k (apStep_lapicidMap (by simp [hpc])) (apStep_bsp k)
    (apStep_recorded (by simp [hpc])) (fun _ => apStep_ap_of_ne)
    (fun k' _ => congrFun hlate k') ?_ ?_ ?_ ?_ ?_ ?_
  · exact fun hmem => absurd hmem (h.notMem hnot)
  · rw [hlate, h.late_eq_false hnot]
    exact fun hfalse => absurd hfalse Bool.false_ne_true
  · rw [hpast]
    exact fun hfalse => absurd hfalse Bool.false_ne_true
  · rw [hpc]
    simp
  · rw [hnext]
    simp
  · intro r hr
    rw [hnext] at hr
    exact (ApPc.store.inj hr).symm

theorem Boot.Recorded.apStep_store (h : s.Recorded cpus path log) (hlocked : s.Locked) {k : Fin m}
    {r : BitVec 8} (hpc : s.ap k = .store r) :
    (apStep cpus path s k).Recorded cpus path (log ++ [k]) := by
  have hnot : path.past (s.ap k) = false := by rw [hpc]; cases path <;> rfl
  have hk : (s.ap k).critical = true := by rw [hpc]; rfl
  have hrec := h.recorded_of_critical hlocked hk (by rw [hpc]; simp)
  have hr : r.toNat = log.length + 1 := by rw [h.store k r hpc, hrec]
  have hnext : (AcrnGuest.apStep cpus path s k).ap k = .bump r := by
    rw [apStep_ap_self, hpc]
    rfl
  have hmap : (AcrnGuest.apStep cpus path s k).lapicidMap =
      Function.update s.lapicidMap (log.length + 1) (cpus.apId k) := by
    unfold AcrnGuest.apStep
    rw [hpc, ← hr]
    rfl
  have hlate : (AcrnGuest.apStep cpus path s k).late = s.late := apStep_late (by simp [hpc])
  refine ⟨?_, ?_, ?_, ?_, ?_, ?_, ?_, ?_, ?_, ?_⟩
  · intro hne
    rw [apStep_bsp] at hne
    rw [hmap, Function.update_of_ne (by omega)]
    exact h.bspId hne
  · intro j hj
    rw [List.length_append, List.length_singleton] at hj
    rw [hmap]
    by_cases hlast : j = log.length
    · subst hlast
      rw [Function.update_self, List.getElem_concat_length rfl]
    · rw [Function.update_of_ne (by omega), List.getElem_append_left (by omega)]
      exact h.slot j (by omega)
  · intro i hi
    rw [List.length_append, List.length_singleton] at hi
    rw [hmap, Function.update_of_ne (by omega)]
    exact h.zero i (by omega)
  · rw [← List.concat_eq_append, List.nodup_concat]
    exact ⟨h.notMem hnot, h.nodup⟩
  · intro k' hk'
    rw [hlate]
    by_cases heq : k' = k
    · rw [heq, hnext]
      exact ⟨by cases path <;> rfl, h.late_eq_false hnot⟩
    · rw [apStep_ap_of_ne heq]
      exact h.logged k' (by simpa [heq] using hk')
  · intro k' hk'
    rw [hlate] at hk'
    by_cases heq : k' = k
    · rw [heq, hnext]
      cases path <;> rfl
    · rw [apStep_ap_of_ne heq]
      exact h.late k' hk'
  · intro k' hk'
    rw [hlate]
    by_cases heq : k' = k
    · exact Or.inl (by simp [heq])
    · rw [apStep_ap_of_ne heq] at hk'
      exact (h.past k' hk').imp_left fun hmem => by simp [hmem]
  · intro k' r' hr'
    exact absurd hr' (hlocked.apStep_ne hk rfl (by rw [hnext]; simp) k')
  · intro k' r' hr'
    by_cases heq : k' = k
    · rw [heq, hnext] at hr'
      rw [← ApPc.bump.inj hr', hr, List.length_append, List.length_singleton]
    · rw [apStep_ap_of_ne heq] at hr'
      exact absurd hr' (hlocked.ne_of_critical hk heq rfl)
  · intro hnone
    exact absurd hnext (hnone k r)

theorem Boot.Recorded.apStep_bump (h : s.Recorded cpus path log) (hlocked : s.Locked) {k : Fin m}
    {r : BitVec 8} (hpc : s.ap k = .bump r) : (apStep cpus path s k).Recorded cpus path log := by
  have hk : (s.ap k).critical = true := by rw [hpc]; rfl
  have hr := h.bump k r hpc
  have hlen := length_le_of_nodup h.nodup
  have hlt := cpus.count_lt
  have hpast : path.past ((AcrnGuest.apStep cpus path s k).ap k) = path.past (s.ap k) := by
    rw [apStep_ap_self, hpc]
    cases path <;> rfl
  have hnext : (AcrnGuest.apStep cpus path s k).ap k = .unlock := by
    rw [apStep_ap_self, hpc]
    rfl
  have hlate : (AcrnGuest.apStep cpus path s k).late = s.late := apStep_late (by simp [hpc])
  have hrec : (AcrnGuest.apStep cpus path s k).recorded = r + 1#8 := by
    unfold AcrnGuest.apStep
    rw [hpc]
    rfl
  refine h.of_same_log k (apStep_lapicidMap (by simp [hpc])) (apStep_bsp k)
    (fun _ => apStep_ap_of_ne) (fun k' _ => congrFun hlate k') ?_ ?_ ?_ ?_ ?_ ?_
  · rw [hpast, hlate]
    exact h.logged k
  · rw [hpast, hlate]
    exact h.late k
  · rw [hpast, hlate]
    exact h.past k
  · intro k' r' hr'
    exact absurd hr' (hlocked.apStep_ne hk rfl (by rw [hnext]; simp) k')
  · intro k' r' hr'
    by_cases heq : k' = k
    · rw [heq, hnext] at hr'
      exact absurd hr' (by simp)
    · exact h.bump k' r' (apStep_ap_of_ne heq ▸ hr')
  · intro _
    rw [hrec, BitVec.toNat_add_of_lt, hr]
    · rfl
    · rw [hr]
      change log.length + 1 < 2 ^ 8
      omega

theorem Boot.Recorded.apStep (h : s.Recorded cpus path log) (hlocked : s.Locked) (k : Fin m) :
    ∃ log', (apStep cpus path s k).Recorded cpus path log' := by
  cases hpc : s.ap k with
  | test => exact ⟨log, h.apStep_test hpc⟩
  | load => exact ⟨log, h.apStep_load hlocked hpc⟩
  | store r => exact ⟨log ++ [k], h.apStep_store hlocked hpc⟩
  | bump r => exact ⟨log, h.apStep_bump hlocked hpc⟩
  | _ => exact ⟨log, h.apStep_of_plain (by rw [hpc]; rfl)⟩

/-! ### Whole runs -/

/-- On the path of `cstart64.S` the flag is set only when everybody has recorded. -/
def Boot.Punctual (path : BootPath) (s : Boot m) : Prop :=
  path = .cstart64 → ∀ k, s.late k = false

theorem bspStep_late : (bspStep cpus path s).late = s.late := by
  unfold bspStep
  cases s.bsp with
  | wait => dsimp only; split_ifs <;> rfl
  | _ => rfl

theorem Boot.Punctual.apStep (h : s.Punctual path) (hcounted : s.Counted path) (k : Fin m) :
    (apStep cpus path s k).Punctual path := by
  intro hpath k'
  by_cases hpc : s.ap k = .test
  · have hclear : s.isAllCpuInit = false := by
      apply Bool.eq_false_iff.mpr
      intro hset
      -- with the flag set every processor is past the increment, hence past the test
      have hpast := hcounted.waited (by rw [hcounted.flag hset]; rfl) k
      rw [hpath, hpc] at hpast
      exact Bool.false_ne_true hpast
    have hlate : (AcrnGuest.apStep cpus path s k).late =
        Function.update s.late k (s.late k || s.isAllCpuInit) := by
      unfold AcrnGuest.apStep
      rw [hpc]
      rfl
    rw [hlate, hclear, Bool.or_false, Function.update_eq_self]
    exact h hpath k'
  · rw [apStep_late hpc]
    exact h hpath k'

structure Boot.Sound (cpus : Cpus m) (path : BootPath) (s : Boot m) : Prop where
  locked : s.Locked
  counted : s.Counted path
  punctual : s.Punctual path
  recorded : ∃ log, s.Recorded cpus path log

theorem sound_bootStart (cpus : Cpus m) (path : BootPath) : (bootStart m).Sound cpus path where
  locked := ⟨none, rfl, fun k => by simp [bootStart, ApPc.critical]⟩
  counted := by
    refine ⟨?_, fun _ _ => rfl, fun hw => absurd hw Bool.false_ne_true,
      fun hset => absurd hset Bool.false_ne_true⟩
    rw [Boot.online_eq_zero fun k => counted_off path]
    rfl
  punctual := fun _ _ => rfl
  recorded := by
    have hoff : path.past .off = false := by cases path <;> rfl
    refine ⟨[], ?_, ?_, ?_, List.nodup_nil, ?_, ?_, ?_, ?_, ?_, fun _ => rfl⟩
    · exact fun hne => absurd rfl hne
    · exact fun j hj => absurd hj (Nat.not_lt_zero j)
    · exact fun _ _ => rfl
    · exact fun k hk => absurd hk List.not_mem_nil
    · exact fun k hlate => absurd hlate Bool.false_ne_true
    · exact fun k hpast => absurd (hoff.symm.trans hpast) Bool.false_ne_true
    · exact fun k r hr => ApPc.noConfusion hr
    · exact fun k r hr => ApPc.noConfusion hr

theorem Boot.Sound.bootStep (h : s.Sound cpus path) (agent : Agent m) :
    (bootStep cpus path s agent).Sound cpus path := by
  obtain ⟨log, hlog⟩ := h.recorded
  cases agent with
  | bsp =>
      refine ⟨h.locked.bspStep ?_, h.counted.bspStep, ?_, log, hlog.bspStep h.counted⟩
      · intro hbsp
        exact h.counted.off (by rw [hbsp]; rfl)
      · intro hpath k
        exact (congrFun bspStep_late k).trans (h.punctual hpath k)
  | ap k =>
      exact ⟨h.locked.apStep k, h.counted.apStep cpus k, h.punctual.apStep h.counted k,
        hlog.apStep h.locked k⟩

theorem sound_bootRun (cpus : Cpus m) (path : BootPath) (schedule : List (Agent m)) :
    (bootRun cpus path schedule).Sound cpus path :=
  List.foldlRecOn schedule (bootStep cpus path) (sound_bootStart cpus path)
    fun _ h agent _ => h.bootStep agent

/-! ### The map at the end of the boot -/

/-- An entry behind the first one that holds the id of `k` is the one `k` has
    written, or it is still zero and so is the id. -/
theorem Boot.Recorded.entry (h : s.Recorded cpus path log) {i : Nat} (hi : 1 ≤ i) {k : Fin m}
    (hentry : s.lapicidMap i = cpus.apId k) :
    (∃ hlt : i - 1 < log.length, log[i - 1] = k) ∨ (log.length < i ∧ cpus.apId k = 0#8) := by
  by_cases hlt : i - 1 < log.length
  · have hslot := h.slot (i - 1) hlt
    rw [Nat.sub_add_cancel hi, hentry] at hslot
    exact Or.inl ⟨hlt, (cpus.apId_injective hslot).symm⟩
  · have hlen : log.length < i := by omega
    exact Or.inr ⟨hlen, hentry.symm.trans (h.zero i hlen)⟩

theorem Boot.Recorded.entry_of_mem (h : s.Recorded cpus path log) {k : Fin m} (hk : k ∈ log)
    (hzero : ∀ k', k' ∉ log → cpus.apId k' = 0#8) :
    ∃! i, 1 ≤ i ∧ i < m + 1 ∧ s.lapicidMap i = cpus.apId k := by
  obtain ⟨j, hj, hjk⟩ := List.getElem_of_mem hk
  have hlen := length_le_of_nodup h.nodup
  refine ⟨j + 1, ⟨by omega, by omega, hjk ▸ h.slot j hj⟩, ?_⟩
  rintro i ⟨hi, him, hentry⟩
  rcases h.entry hi hentry with ⟨hlt, heq⟩ | ⟨hlt, hk0⟩
  · have hindex : i - 1 = j := (h.nodup.getElem_inj_iff).mp (heq.trans hjk.symm)
    omega
  · -- a free entry belongs to a processor that has not recorded, and only one id is zero
    obtain ⟨k', hk'⟩ : ∃ k', k' ∉ log := by
      by_contra hall
      push Not at hall
      have hcard := Finset.card_le_card (fun k _ => List.mem_toFinset.mpr (hall k) :
        (Finset.univ : Finset (Fin m)) ⊆ log.toFinset)
      rw [Finset.card_univ, Fintype.card_fin, List.toFinset_card_of_nodup h.nodup] at hcard
      omega
    have heq : k' = k := cpus.apId_injective ((hzero k' hk').trans hk0.symm)
    exact absurd hk (heq ▸ hk')

theorem Boot.Recorded.entry_of_notMem (h : s.Recorded cpus path log) {k : Fin m} (hk : k ∉ log)
    (hzero : ∀ k', k' ∉ log → cpus.apId k' = 0#8) :
    ∃! i, 1 ≤ i ∧ i < m + 1 ∧ s.lapicidMap i = cpus.apId k := by
  have hlt := length_lt_of_notMem h.nodup hk
  -- every other processor has recorded, so that just one entry is left
  have hall : ∀ k', k' ∈ k :: log := by
    intro k'
    by_contra hk'
    rw [List.mem_cons, not_or] at hk'
    exact hk'.1 (cpus.apId_injective ((hzero k' hk'.2).trans (hzero k hk).symm))
  have hcard := Finset.card_le_card (fun k' _ => List.mem_toFinset.mpr (hall k') :
    (Finset.univ : Finset (Fin m)) ⊆ (k :: log).toFinset)
  rw [Finset.card_univ, Fintype.card_fin,
    List.toFinset_card_of_nodup (List.nodup_cons.mpr ⟨hk, h.nodup⟩), List.length_cons] at hcard
  refine ⟨m, ⟨by omega, by omega, ?_⟩, ?_⟩
  · rw [h.zero m hlt, hzero k hk]
  · rintro i ⟨hi, him, hentry⟩
    rcases h.entry hi hentry with ⟨hlt', heq⟩ | ⟨hlt', -⟩
    · exact absurd (heq ▸ List.getElem_mem hlt') hk
    · omega

/-- When everybody is past the record, the map is complete exactly if those who came
    too late have the id zero, which the untouched entries hold. -/
theorem Boot.Recorded.mapComplete_iff (h : s.Recorded cpus path log) (hbsp : s.bsp ≠ .storeId)
    (hpast : ∀ k, path.past (s.ap k) = true) :
    MapComplete cpus s.lapicidMap ↔ ∀ k, s.late k = true → cpus.apId k = 0#8 := by
  constructor
  · rintro ⟨-, hmap⟩ k hlate
    obtain ⟨i, ⟨hi, -, hentry⟩, -⟩ := hmap k
    rcases h.entry hi hentry with ⟨hlt, heq⟩ | ⟨-, hzero⟩
    · have hmem : k ∈ log := heq ▸ List.getElem_mem hlt
      rw [(h.logged k hmem).2] at hlate
      exact absurd hlate Bool.false_ne_true
    · exact hzero
  · intro hlate
    have hzero : ∀ k, k ∉ log → cpus.apId k = 0#8 :=
      fun k hk => hlate k ((h.past k (hpast k)).resolve_left hk)
    refine ⟨h.bspId hbsp, fun k => ?_⟩
    by_cases hk : k ∈ log
    · exact h.entry_of_mem hk hzero
    · exact h.entry_of_notMem hk hzero

/-! ### Looking up a processor -/

theorem getCpuIdLoop_eq {lapicidMap : Nat → BitVec 8} {lapicId : BitVec 8} {left first i : Nat}
    (hle : first ≤ i) (hlt : i < first + left) (hentry : lapicidMap i = lapicId)
    (hfirst : ∀ j, j < i → lapicidMap j ≠ lapicId) :
    getCpuIdLoop lapicidMap (lapicId.setWidth 32) left first = i := by
  induction left generalizing first with
  | zero => omega
  | succ left ih =>
      unfold getCpuIdLoop
      rcases Nat.eq_or_lt_of_le hle with heq | hbefore
      · rw [if_pos (by rw [heq, hentry]), heq]
      · have hne : (lapicidMap first).setWidth 32 ≠ lapicId.setWidth 32 := by
          intro heq
          apply hfirst first hbefore
          apply BitVec.eq_of_toNat_eq
          have hwide := congrArg BitVec.toNat heq
          have hleft := (lapicidMap first).isLt
          have hright := lapicId.isLt
          rw [BitVec.toNat_setWidth, BitVec.toNat_setWidth] at hwide
          omega
        rw [if_neg hne]
        exact ih hbefore (by omega)

/-- A complete map has no other entries: the indices of the processors exhaust it. -/
theorem MapComplete.entry {lapicidMap : Nat → BitVec 8} (h : MapComplete cpus lapicidMap) {j : Nat}
    (hj : 1 ≤ j) (hjm : j < m + 1) : ∃ k, lapicidMap j = cpus.apId k := by
  choose index hindex using fun k => (h.2 k).exists
  have hinj : Function.Injective fun k => (⟨index k - 1, by grind⟩ : Fin m) := by
    intro a b hab
    have hsame : index a = index b := by grind
    apply cpus.apId_injective
    rw [← (hindex a).2.2, ← (hindex b).2.2, hsame]
  obtain ⟨k, hk⟩ := Finite.surjective_of_injective hinj ⟨j - 1, by omega⟩
  have hjk : index k = j := by grind
  exact ⟨k, hjk ▸ (hindex k).2.2⟩

/-- In a complete map each id has one index, and `get_cpu_id` finds it. -/
theorem MapComplete.getCpuId {lapicidMap : Nat → BitVec 8} (h : MapComplete cpus lapicidMap)
    {lapicId : BitVec 8} (hcpu : lapicId = cpus.bspId ∨ ∃ k, lapicId = cpus.apId k) :
    ∃ i, i < m + 1 ∧ getCpuId (m + 1) lapicidMap (lapicId.setWidth 32) = i ∧
      lapicidMap i = lapicId ∧ ∀ j, j < m + 1 → lapicidMap j = lapicId → j = i := by
  rcases hcpu with rfl | ⟨k, rfl⟩
  · refine ⟨0, by omega, ?_, h.1, ?_⟩
    · exact getCpuIdLoop_eq le_rfl (by omega) h.1 fun j hj => absurd hj (Nat.not_lt_zero j)
    · intro j hj hentry
      by_contra hne
      obtain ⟨k, hk⟩ := h.entry (Nat.one_le_iff_ne_zero.mpr hne) hj
      exact cpus.apId_ne_bspId k (hk.symm.trans hentry)
  · obtain ⟨i, ⟨hi, him, hentry⟩, hunique⟩ := h.2 k
    have honly : ∀ j, j < m + 1 → lapicidMap j = cpus.apId k → j = i := by
      intro j hj hjk
      apply hunique j
      refine ⟨Nat.one_le_iff_ne_zero.mpr ?_, hj, hjk⟩
      rintro rfl
      exact cpus.apId_ne_bspId k (hjk.symm.trans h.1)
    refine ⟨i, him, getCpuIdLoop_eq (Nat.zero_le i) (by omega) hentry ?_, hentry, honly⟩
    intro j hj hjk
    exact absurd (honly j (by omega) hjk) (by omega)

theorem past_of_counted_cstart64 {pc : ApPc} (h : BootPath.cstart64.counted pc = true) :
    BootPath.cstart64.past pc = true := by
  cases pc with
  | main => rfl
  | _ => exact absurd h Bool.false_ne_true

theorem bsp_ne_storeId_of_waited {pc : BspPc} (h : pc.waited = true) : pc ≠ .storeId := by
  rintro rfl
  exact Bool.false_ne_true h

end Records

/-! ### The path of `cstart64_hsi.S` -/

section Results

variable {m : Nat}

/-- A processor is counted before it records its id, so it may find the flag set. The
    map is complete exactly if this happens to no processor but one with the id zero. -/
theorem cstart64Hsi_map_complete_iff (cpus : Cpus m) (schedule : List (Agent m))
    (hdone : (bootRun cpus .cstart64Hsi schedule).bsp = .done)
    (hmain : ∀ k, (bootRun cpus .cstart64Hsi schedule).ap k = .main) :
    MapComplete cpus (bootRun cpus .cstart64Hsi schedule).lapicidMap ↔
      ∀ k, (bootRun cpus .cstart64Hsi schedule).late k = true → cpus.apId k = 0#8 := by
  obtain ⟨log, hlog⟩ := (sound_bootRun cpus .cstart64Hsi schedule).recorded
  apply hlog.mapComplete_iff
  · rw [hdone]
    decide
  · intro k
    rw [hmain k]
    rfl

def twoCpus : Cpus 1 where
  bspId := 0#8
  apId _ := 1#8
  apId_injective _ _ _ := Subsingleton.elim _ _
  apId_ne_bspId _ := by decide
  count_lt := by decide

def untilWait : List (Agent 1) := [.bsp, .bsp, .bsp]

/-- The other processor increments the counter, the boot processor goes through the
    rest of `smp_init`, and only then the other one tests the flag. -/
theorem cstart64Hsi_id_lost :
    let s := bootRun twoCpus .cstart64Hsi (untilWait ++ [.ap 0, .bsp, .bsp, .ap 0])
    s.bsp = .done ∧ (∀ k, s.ap k = .main) ∧ s.lapicidMap 1 = 0#8 ∧
      ¬ MapComplete twoCpus s.lapicidMap := by
  intro s
  have hentry : s.lapicidMap 1 = 0#8 := by decide
  refine ⟨by decide, by decide, hentry, ?_⟩
  rintro ⟨-, hmap⟩
  obtain ⟨i, ⟨hi, hi2, hid⟩, -⟩ := hmap 0
  obtain rfl : i = 1 := by omega
  rw [hentry] at hid
  exact absurd hid (by decide)

theorem cstart64Hsi_map_complete_in_time :
    let s := bootRun twoCpus .cstart64Hsi
      (untilWait ++ List.replicate 7 (.ap 0) ++ [.bsp, .bsp])
    s.bsp = .done ∧ (∀ k, s.ap k = .main) ∧ MapComplete twoCpus s.lapicidMap := by
  refine ⟨by decide, by decide, ?_⟩
  exact (cstart64Hsi_map_complete_iff twoCpus _ (by decide) (by decide)).mpr (by decide)

/-! ### The path of `cstart64.S` -/

theorem mapComplete_of_waited (cpus : Cpus m) (schedule : List (Agent m))
    (hwaited : (bootRun cpus .cstart64 schedule).bsp.waited = true) :
    MapComplete cpus (bootRun cpus .cstart64 schedule).lapicidMap := by
  have hsound := sound_bootRun cpus .cstart64 schedule
  obtain ⟨log, hlog⟩ := hsound.recorded
  apply (hlog.mapComplete_iff (bsp_ne_storeId_of_waited hwaited) fun k =>
    past_of_counted_cstart64 (hsound.counted.waited hwaited k)).mpr
  intro k hlate
  rw [hsound.punctual rfl k] at hlate
  exact absurd hlate Bool.false_ne_true

/-- When the boot processor stops waiting the map is complete, and on every processor
    `get_cpu_id` returns the one index at which `get_lapicid_map` has its id. -/
theorem cstart64_map_complete (cpus : Cpus m) (schedule : List (Agent m))
    (hwaited : (bootRun cpus .cstart64 schedule).bsp.waited = true) :
    let lapicidMap := (bootRun cpus .cstart64 schedule).lapicidMap
    MapComplete cpus lapicidMap ∧
      ∀ lapicId, (lapicId = cpus.bspId ∨ ∃ k, lapicId = cpus.apId k) →
        ∃ cpu : BitVec 8, cpu.toNat < m + 1 ∧
          getCpuId (m + 1) lapicidMap (lapicId.setWidth 32) = cpu.toNat ∧
          getLapicidMap (m + 1) lapicidMap cpu = lapicId ∧
          ∀ other : BitVec 8, other.toNat < m + 1 →
            getLapicidMap (m + 1) lapicidMap other = lapicId → other = cpu := by
  intro lapicidMap
  have hcomplete : MapComplete cpus lapicidMap := mapComplete_of_waited cpus schedule hwaited
  refine ⟨hcomplete, fun lapicId hcpu => ?_⟩
  obtain ⟨i, hi, hget, hentry, hunique⟩ := hcomplete.getCpuId hcpu
  have hlt := cpus.count_lt
  have htoNat : (BitVec.ofNat 8 i).toNat = i := by
    rw [BitVec.toNat_ofNat]
    omega
  refine ⟨BitVec.ofNat 8 i, by rw [htoNat]; exact hi, by rw [htoNat]; exact hget, ?_, ?_⟩
  · rw [getLapicidMap, htoNat, if_pos hi]
    exact hentry
  · intro other hother hget'
    rw [getLapicidMap, if_pos hother] at hget'
    apply BitVec.eq_of_toNat_eq
    rw [htoNat]
    exact hunique other.toNat hother hget'

/-- Three cores with the ids 0, 1 and 2. -/
def threeCpus : Cpus 2 where
  bspId := 0#8
  apId k := BitVec.ofNat 8 (k.val + 1)
  apId_injective := by decide
  apId_ne_bspId := by decide
  count_lt := by decide

/-- The two other processors come up one after the other, `first` before `second`. -/
def oneByOne (first second : Fin 2) : List (Agent 2) :=
  [Agent.bsp, Agent.bsp, Agent.bsp] ++ List.replicate 7 (Agent.ap first) ++
    List.replicate 7 (Agent.ap second) ++
    [Agent.bsp]

theorem cstart64_map_complete_three_cpus :
    let s := bootRun threeCpus .cstart64 (oneByOne 1 0)
    s.bsp = .setFlag ∧ MapComplete threeCpus s.lapicidMap :=
  ⟨by decide, (cstart64_map_complete threeCpus _ (by decide)).1⟩

end Results

end AcrnGuest
