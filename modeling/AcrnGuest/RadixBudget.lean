import AcrnGuest.RadixTable
import Mathlib.Data.Finset.Card
import Mathlib.Order.Interval.Finset.Nat

/-!
# The pages that several installations take

An installation takes one page for each table that is missing on its way. A table that one
installation creates may serve later ones, so that what a sequence of installations takes is
the number of different tables that are missing at the start. `missing` names these tables by
their level and the indices that lead to them, and `card_missingOn_cons` is the rule for one
installation after another.
-/

namespace AcrnGuest.Radix

variable {α A E P I V : Type*}

namespace Layout

variable (L : Layout α A E P I)

/-- The table of level `k` on the way of `va`, by the indices that lead to it from level `l`. -/
def tableOf (l k : Nat) (va : α) : Nat × List I :=
  (k, (List.range' (k + 1) (l - k)).map (L.idx · va))

/-- The tables of level `tgt` and above that the walk of `va` does not find. -/
def missing [DecidableEq I] (m : A → E) (tgt l : Nat) (p : P) (va : α) : Finset (Nat × List I) :=
  (Finset.Ico tgt (L.eval stopLevel m l p va)).image (L.tableOf l · va)

def missingOn [DecidableEq I] (m : A → E) (tgt l : Nat) (p : P) : List α → Finset (Nat × List I)
  | [] => ∅
  | va :: vas => L.missing m tgt l p va ∪ missingOn m tgt l p vas

variable {L} {m m' : A → E} {tgt l k k' : Nat} {p : P} {va va' : α}

theorem tableOf_eq_iff :
    L.tableOf l k va = L.tableOf l k' va' ↔
      k = k' ∧ ∀ j, k < j → j ≤ l → L.idx j va = L.idx j va' := by
  rw [tableOf, tableOf, Prod.mk.injEq]
  refine and_congr_right ?_
  rintro rfl
  rw [List.map_inj_left]
  refine forall_congr' fun j => ?_
  rw [List.mem_range'_1]
  constructor
  · exact fun h hk hl => h ⟨hk, by omega⟩
  · exact fun h hj => h hj.1 (by omega)

variable [DecidableEq I]

theorem mem_missing {t : Nat × List I} :
    t ∈ L.missing m tgt l p va ↔ ∃ k, (tgt ≤ k ∧ k < L.eval stopLevel m l p va) ∧
      L.tableOf l k va = t := by
  simp only [missing, Finset.mem_image, Finset.mem_Ico]

theorem card_missing (m : A → E) (tgt l : Nat) (p : P) (va : α) :
    (L.missing m tgt l p va).card = L.eval stopLevel m l p va - tgt := by
  rw [missing, Finset.card_image_of_injective, Nat.card_Ico]
  exact fun k k' h => (tableOf_eq_iff.mp h).1

theorem tableOf_mem_missing_iff (htgt : tgt ≤ k) (hk : k < L.eval stopLevel m l p va') :
    L.tableOf l k va' ∈ L.missing m tgt l p va ↔ ∀ j, k < j → j ≤ l → L.idx j va' = L.idx j va := by
  rw [mem_missing]
  constructor
  · rintro ⟨k', -, heq⟩
    exact (tableOf_eq_iff.mp heq.symm).2
  · intro hidx
    have hstop : L.eval stopLevel m l p va = L.eval stopLevel m l p va' :=
      eval_congr_idx (fun j hj hjl => (hidx j (Nat.lt_of_lt_of_le hk hj) hjl).symm) fun _ _ => rfl
    exact ⟨k, ⟨htgt, hstop ▸ hk⟩, tableOf_eq_iff.mpr ⟨rfl, fun j hj hjl => (hidx j hj hjl).symm⟩⟩

end Layout

section Installed

variable [DecidableEq I] {L : Layout α A E P I} {good : Nat → E → Prop} {r : Reading α E V}
  {m m' : A → E} {tgt l k : Nat} {va va' : α} {e : E} {p : P} {taken : List P}

/-- After an installation only tables off its way are missing. -/
theorem Installed.lt_stopLevel_iff (h : Installed L good r m m' tgt va e l p taken) (hk : tgt ≤ k) :
    k < L.eval stopLevel m' l p va' ↔
      k < L.eval stopLevel m l p va' ∧ ¬ ∀ j, k < j → j ≤ l → L.idx j va' = L.idx j va := by
  by_cases hsame : ∀ j, tgt ≤ j → j ≤ l → L.idx j va' = L.idx j va
  · obtain ⟨path, -, -, htarget⟩ := h.reads_target
    have hstop := htarget Nat stopLevel va' hsame
    rw [Reading.climb_of_node_eq fun _ _ _ => rfl] at hstop
    have hstop' : L.eval stopLevel m' l p va' = tgt := hstop
    refine iff_of_false (by omega) fun hand => hand.2 fun j hj hjl => hsame j (by omega) hjl
  · push Not at hsame
    obtain ⟨i, hi, hil, hne⟩ := hsame
    obtain ⟨j, hij, hjl, hdiff, habove⟩ := exists_highest_ne (L.idx · va') (L.idx · va) hil hne
    rw [h.stops_other va' j (by omega) hjl habove hdiff, lt_min_iff]
    refine and_congr_right fun _ => ⟨fun hkj hall => hdiff (hall j hkj hjl), fun hnot => ?_⟩
    by_contra hjk
    exact hnot fun i hi hil => habove i (by omega) hil

theorem Installed.missing_eq (h : Installed L good r m m' tgt va e l p taken) (va' : α) :
    L.missing m' tgt l p va' = L.missing m tgt l p va' \ L.missing m tgt l p va := by
  ext t
  rw [Finset.mem_sdiff, Layout.mem_missing, Layout.mem_missing]
  constructor
  · rintro ⟨k, ⟨htgt, hk⟩, rfl⟩
    obtain ⟨hk', hdiff⟩ := (h.lt_stopLevel_iff htgt).mp hk
    exact ⟨⟨k, ⟨htgt, hk'⟩, rfl⟩, mt (Layout.tableOf_mem_missing_iff htgt hk').mp hdiff⟩
  · rintro ⟨⟨k, ⟨htgt, hk⟩, rfl⟩, hnot⟩
    exact ⟨k, ⟨htgt, (h.lt_stopLevel_iff htgt).mpr
      ⟨hk, mt (Layout.tableOf_mem_missing_iff htgt hk).mpr hnot⟩⟩, rfl⟩

theorem Installed.missingOn_eq (h : Installed L good r m m' tgt va e l p taken) (vas : List α) :
    L.missingOn m' tgt l p vas = L.missingOn m tgt l p vas \ L.missing m tgt l p va := by
  induction vas with
  | nil => exact (Finset.empty_sdiff _).symm
  | cons va' vas ih =>
    rw [Layout.missingOn, h.missing_eq, ih, ← Finset.union_sdiff_distrib, Layout.missingOn]

/-- **One installation after another**: the first one takes the tables on its way, the later ones
the tables that are missing then. -/
theorem Installed.card_missingOn_cons (h : Installed L good r m m' tgt va e l p taken)
    (vas : List α) :
    (L.missingOn m tgt l p (va :: vas)).card =
      L.eval stopLevel m l p va - tgt + (L.missingOn m' tgt l p vas).card := by
  rw [h.missingOn_eq, ← Layout.card_missing, Layout.missingOn, ← Finset.union_sdiff_self_eq_union,
    Finset.card_union_of_disjoint Finset.disjoint_sdiff]

end Installed

end AcrnGuest.Radix
