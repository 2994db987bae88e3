/-
# Segment counters

While all ids belong to the first segment of the table, that segment is assigned before
any value is written and `curr_pos` never points into it, so every put is safe. The
counters in `dsegs` then tell exactly how many units of each segment the values take up.
-/

import Senna.Store.JaPut

namespace Senna.Store

open Senna.Io Senna.Lib

variable {ja ja' : Ja} {vals : Nat → List UInt8} {id : Nat} {value : List UInt8}

/-- The jagged arrays that successful puts of ids below `1 << JA_ESEG_WIDTH` lead to from the
empty one, with the values last put. -/
inductive Ja.Fills : Ja → (Nat → List UInt8) → Prop
  | create : Fills Ja.create fun _ => []
  | put {ja ja' : Ja} {vals : Nat → List UInt8} {id : Nat} {value : List UInt8}
      (h : Fills ja vals) (hid : id < 2 ^ 17) (hlen : value.length < 2 ^ 31)
      (hput : ja.put id value = some (.success, ja')) :
      Fills ja' (Function.update vals id value)

/-- The table has the segment 0 only, from the first put on. -/
structure Ja.OneTable (ja : Ja) : Prop where
  empty : ja.esegs 0 = segNotAssigned → ja = Ja.create
  eseg : ∀ s, ja.dsegs s = segEseg → s = 0
  behind : ja.currPos ≠ 0 → ja.currPos / 2 ^ 16 ≠ 0

namespace Ja.OneTable

theorem create : Ja.create.OneTable :=
  ⟨fun _ => rfl, fun _ h => absurd (show 0 = segEseg from h) (by decide), fun h => absurd rfl h⟩

/-- Every put is safe. -/
theorem safe (h : ja.OneTable) (hid : id < 2 ^ 17) : ja.Safe id value := by
  have hseg : id / 2 ^ 17 = 0 := Nat.div_eq_of_lt hid
  refine ⟨by omega, fun hna s _ i _ => ?_, fun _ hfits => ?_⟩
  · rw [hseg] at hna
    rw [h.empty hna]
    simp only [loadEinfo, loadU32, Ja.create, UInt8.toNat_zero, Nat.zero_mul, Nat.add_zero]
  · have hne : ja.currPos ≠ 0 := by
      unfold Ja.fits at hfits
      exact (of_decide_eq_true hfits).1
    refine ⟨fun heseg => h.behind hne (h.eseg _ heseg), fun hna => ?_⟩
    rw [hseg] at hna
    rw [h.empty hna] at hne
    exact absurd rfl hne

/-- A put keeps the table in its segment. -/
theorem success (h : ja.OneTable) (hid : id < 2 ^ 17) {p : Nat} {ja₁ ja₃ : Ja}
    (hs : ja.Success vals id value p ja₁ ja₃ ja') : ja'.OneTable := by
  have hseg : id / 2 ^ 17 = 0 := Nat.div_eq_of_lt hid
  have hassigned := hs.assigned
  rw [hseg] at hassigned
  have heseg₁ : ∀ s, ja₁.dsegs s = segEseg → s = 0 := by
    intro s hseg'
    rcases hs.eseg₁ s hseg' with hold | ⟨hna, hfirst⟩
    · exact h.eseg s hold
    · rw [hseg] at hna
      rw [h.empty hna] at hfirst
      exact (Option.some.inj (show some 0 = some s from hfirst)).symm
  have htable : ja₁.dsegs 0 = segEseg := by
    have htable := hs.holds₁.eseg 0 hassigned
    rwa [heseg₁ _ htable] at htable
  refine ⟨fun hna => ?_, fun s hs' => ?_, fun hne => ?_⟩
  · rw [hs.entry.esegs, hs.esegs₃] at hna
    exact absurd hna hassigned
  · exact heseg₁ s ((hs.eseg₃ s).mp ((hs.entry.eseg s).mp hs'))
  · rw [hs.entry.currPos] at hne ⊢
    by_cases hnil : value = []
    · rw [hs.nil hnil, hs.currPos₁] at hne ⊢
      exact h.behind hne
    · have hroom := hs.room hnil
      rw [(hs.currPos₃ hnil hne).1]
      have hdata := hroom.data p le_rfl (Nat.lt_add_of_pos_right hroom.shaped.pos)
      intro hzero
      have hp : p / 2 ^ 16 = 0 := by omega
      rw [hp] at hdata
      exact hdata htable

end Ja.OneTable

theorem Ja.Fills.inv (h : Ja.Fills ja vals) :
    ja.Holds vals ∅ ∧ ja.OneTable ∧ ∀ id, vals id ≠ [] → id < 2 ^ 17 := by
  induction h with
  | create => exact ⟨Ja.Runs.create.holds, .create, fun _ hne => absurd rfl hne⟩
  | @put ja ja' vals id value _ hid hlen hput ih =>
      obtain ⟨hholds, htable, hids⟩ := ih
      rcases hholds.put_stages (htable.safe hid) hlen with hfail | ⟨_, hfail, -⟩ |
        ⟨p, ja₁, ja₃, ja'', hput', hs⟩
      · exact absurd (hput.symm.trans hfail) (by simp)
      · exact absurd (hput.symm.trans hfail) (by simp)
      · obtain ⟨-, rfl⟩ := Prod.mk.inj (Option.some.inj (hput.symm.trans hput'))
        refine ⟨hs.holds, htable.success hid hs, fun id' hne => ?_⟩
        by_cases heq : id' = id
        · exact heq ▸ hid
        · rw [Function.update_of_ne heq] at hne
          exact hids id' hne

/-- The units of the records of the live ids. -/
def Ja.liveUnits (ja : Ja) (vals : Nat → List UInt8) : Set Nat :=
  {u | ∃ id < 2 ^ 17, vals id ≠ [] ∧ (ja.einfo id).pos ≤ u ∧
    u < (ja.einfo id).pos + unitsOf (ja.einfo id).size}

/-- **The counters are exact.** After any sequence of successful puts, the counter of each data
segment is the number of its units that the records of the live ids take up, and it is zero
exactly when no byte of a live record is in the segment. -/
theorem Ja.Fills.counters_exact (h : Ja.Fills ja vals) (s : Nat) (hs : s < maxDsegs)
    (hdata : ja.dsegs s ≠ segEseg) :
    ja.dsegs s = usage (2 ^ 16) (ja.liveUnits vals) s ∧
      (ja.dsegs s = 0 ↔ ∀ id < 2 ^ 17, vals id ≠ [] → ∀ i ∈ ja.bytesOf id, i / 2 ^ 20 ≠ s) := by
  obtain ⟨hholds, -, hids⟩ := h.inv
  have hused : used ja.einfo ∪ ∅ = ja.liveUnits vals := by
    ext u
    rw [Set.union_empty]
    constructor
    · rintro ⟨id, hid, hu⟩
      have hne : vals id ≠ [] := by
        intro hnil
        rw [extent_of_size_eq_zero ((hholds.nil_iff hid).mp hnil)] at hu
        exact hu
      rw [hholds.extent_eq hid hne, ← hholds.size id hid] at hu
      exact ⟨id, hids id hne, hne, hu.1, hu.2⟩
    · rintro ⟨id, hid, hne, hle, hlt⟩
      have hid : id < 2 ^ 28 := by omega
      refine ⟨id, hid, ?_⟩
      rw [hholds.extent_eq hid hne, ← hholds.size id hid]
      exact ⟨hle, hlt⟩
  have hcount := hholds.balanced.count s hs hdata
  rw [hused] at hcount
  refine ⟨hcount, ?_⟩
  rw [hcount]
  constructor
  · intro hzero id hid hne i hi hseg
    refine not_mem_of_usage_eq_zero (by decide) hzero (u := i / 16) ?_ ?_
    · rw [div_unit, hseg]
    · have hin := mem_Ico_of_byte (p := (ja.einfo id).pos) (n := (ja.einfo id).size) hi.1
        (by rw [← Nat.add_assoc]; exact hi.2)
      exact ⟨id, hid, hne, hin.1, hin.2⟩
  · intro hnone
    apply (Set.ncard_eq_zero ((finite_segment _ _).inter_of_right _)).mpr
    apply Set.eq_empty_of_forall_notMem
    rintro u ⟨⟨id, hid, hne, hle, hlt⟩, hseg⟩
    rw [mem_segment_iff (by decide)] at hseg
    apply hnone id hid hne (16 * u)
    · unfold unitsOf at hlt
      exact ⟨by omega, by omega⟩
    · omega

/-- Two values are put, and then another one in the place of the first. -/
theorem Ja.Fills.counters_exact_replaced :
    ∃ ja₁ ja₂ ja₃ : Ja, Ja.create.put 1 [97] = some (.success, ja₁) ∧
      ja₁.put 2 [98, 99] = some (.success, ja₂) ∧ ja₂.put 1 [100] = some (.success, ja₃) ∧
      ja₃.dsegs 1 = usage (2 ^ 16) (ja₃.liveUnits (Function.update (Function.update
        (Function.update (fun _ => ([] : List UInt8)) 1 [97]) 2 [98, 99]) 1 [100])) 1 := by
  obtain ⟨ja₁, ja₂, ja₃, hput₁, hput₂, hput₃, hdata⟩ : ∃ ja₁ ja₂ ja₃ : Ja,
      Ja.create.put 1 [97] = some (.success, ja₁) ∧ ja₁.put 2 [98, 99] = some (.success, ja₂) ∧
      ja₂.put 1 [100] = some (.success, ja₃) ∧ ja₃.dsegs 1 ≠ segEseg :=
    ⟨_, _, _, rfl, rfl, rfl, by decide⟩
  have hlen {value : List UInt8} (hle : value.length ≤ 2) : value.length < 2 ^ 31 := by omega
  have hfills₁ := Ja.Fills.put .create (by decide) (hlen (by decide)) hput₁
  have hfills₂ := Ja.Fills.put hfills₁ (by decide) (hlen (by decide)) hput₂
  have hfills₃ := Ja.Fills.put hfills₂ (by decide) (hlen (by decide)) hput₃
  exact ⟨ja₁, ja₂, ja₃, hput₁, hput₂, hput₃,
    (Ja.Fills.counters_exact hfills₃ 1 (by decide) hdata).1⟩

end Senna.Store
