/-
# Extents over segments

An extent is an interval of units. Units are grouped into segments of `M` units each. The
usage of a segment by a set of units is the number of the units it has in the segment:
usages of disjoint sets add up, and that of an extent has a closed form.
-/

import Mathlib.Tactic
import Mathlib.Data.Set.Card
import Mathlib.Order.CompletePartialOrder
import Mathlib.Order.Interval.Set.Nat

namespace Senna.Lib

/-- The units of the segment `s`. -/
def segment (M s : Nat) : Set Nat := Set.Ico (s * M) (s * M + M)

/-- How many units of the segment `s` are in `U`. -/
noncomputable def usage (M : Nat) (U : Set Nat) (s : Nat) : Nat := (U ∩ segment M s).ncard

/-- How many units the extent of `n` units from `a` on has in the segment `s`. -/
def overlap (M a n s : Nat) : Nat := min (a + n) (s * M + M) - max a (s * M)

variable {M : Nat} {U V : Set Nat} {s : Nat}

theorem finite_segment (M s : Nat) : (segment M s).Finite := Set.finite_Ico _ _

theorem mem_segment_iff (hM : 0 < M) {u : Nat} : u ∈ segment M s ↔ u / M = s := by
  rw [segment, Set.mem_Ico, Nat.div_eq_iff hM]
  have : (s + 1) * M = s * M + M := by ring
  omega

@[simp]
theorem usage_empty : usage M ∅ s = 0 := by simp [usage]

theorem usage_le : usage M U s ≤ M := by
  have h := Set.ncard_le_ncard (Set.inter_subset_right : U ∩ segment M s ⊆ _) (finite_segment M s)
  have hcard : (segment M s).ncard = M := by
    rw [segment, Set.ncard_eq_toFinset_card', Set.toFinset_Ico, Nat.card_Ico]
    omega
  rw [hcard] at h
  exact h

/-- Usages of disjoint sets add up. -/
theorem usage_union (h : Disjoint U V) : usage M (U ∪ V) s = usage M U s + usage M V s := by
  unfold usage
  rw [Set.union_inter_distrib_right]
  apply Set.ncard_union_eq
  · exact h.mono Set.inter_subset_left Set.inter_subset_left
  · exact (finite_segment M s).inter_of_right U
  · exact (finite_segment M s).inter_of_right V

theorem usage_diff (h : V ⊆ U) : usage M (U \ V) s = usage M U s - usage M V s := by
  have hunion : (U \ V) ∪ V = U := Set.sdiff_union_of_subset h
  have hadd : usage M ((U \ V) ∪ V) s = usage M (U \ V) s + usage M V s :=
    usage_union Set.disjoint_sdiff_left
  rw [hunion] at hadd
  omega

theorem usage_mono (h : V ⊆ U) : usage M V s ≤ usage M U s :=
  Set.ncard_le_ncard (Set.inter_subset_inter_left _ h) ((finite_segment M s).inter_of_right U)

theorem usage_Ico (a n : Nat) : usage M (Set.Ico a (a + n)) s = overlap M a n s := by
  unfold usage overlap segment
  rw [Set.Ico_inter_Ico, Set.ncard_eq_toFinset_card', Set.toFinset_Ico, Nat.card_Ico]

/-- Two segments do not meet. -/
theorem segment_lt {k : Nat} (h : k < s) : k * M + M ≤ s * M := by
  have := Nat.mul_le_mul_right M (Nat.succ_le_of_lt h)
  rwa [Nat.succ_mul] at this

/-- An extent inside of one segment. -/
theorem overlap_inside {k o n : Nat} (hfit : o + n ≤ M) :
    overlap M (k * M + o) n s = if s = k then n else 0 := by
  unfold overlap
  split_ifs with hs
  · subst hs
    omega
  · rcases Nat.lt_or_gt_of_ne hs with hlt | hgt
    · have := segment_lt (M := M) hlt
      omega
    · have := segment_lt (M := M) hgt
      omega

/-- An extent that fills the segment it starts and goes on in the next one. -/
theorem overlap_whole {k n : Nat} :
    overlap M (k * M) (M + n) s = if s = k then M else overlap M ((k + 1) * M) n s := by
  have hnext : (k + 1) * M = k * M + M := Nat.succ_mul k M
  unfold overlap
  split_ifs with hs
  · subst hs
    omega
  · rcases Nat.lt_or_gt_of_ne hs with hlt | hgt
    · have := segment_lt (M := M) hlt
      omega
    · have := segment_lt (M := M) hgt
      omega

/-- An extent has nothing in the segments before its own. -/
theorem overlap_before {k n : Nat} (h : s < k) : overlap M (k * M) n s = 0 := by
  have := segment_lt (M := M) h
  unfold overlap
  omega

/-- The segments an extent has units in. -/
theorem exists_mem_of_overlap {a n : Nat} (h : overlap M a n s ≠ 0) :
    ∃ u, a ≤ u ∧ u < a + n ∧ s * M ≤ u ∧ u < s * M + M := by
  unfold overlap at h
  exact ⟨max a (s * M), by omega, by omega, by omega, by omega⟩

/-- A segment without usage has none of the units. -/
theorem not_mem_of_usage_eq_zero (hM : 0 < M) (h : usage M U s = 0) {u : Nat} (hu : u / M = s) :
    u ∉ U := by
  intro hmem
  have hempty := (Set.ncard_eq_zero ((finite_segment M s).inter_of_right U)).mp h
  have : u ∈ U ∩ segment M s := ⟨hmem, (mem_segment_iff hM).mpr hu⟩
  rw [hempty] at this
  exact this

end Senna.Lib
