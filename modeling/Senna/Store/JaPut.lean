/-
# Putting values into a jagged array

The stages of `sen_ja_put`, each with what it keeps of the invariant, and from them what
holds of a jagged array after any sequence of puts.
-/

import Senna.Store.JaSpace

namespace Senna.Store

open Senna.Io Senna.Lib

variable {ja ja' : Ja} {vals : Nat → List UInt8} {N : Set Nat} {id : Nat} {value : List UInt8}

theorem extent_of_size_eq_zero {e : Einfo} (h : e.size = 0) : extent e = ∅ := if_pos h

theorem extent_of_size_ne_zero {e : Einfo} (h : e.size ≠ 0) :
    extent e = Set.Ico e.pos (e.pos + unitsOf e.size) := if_neg h

/-- An entry of the table lies in its segment. -/
theorem Ja.div_of_epAddr {i : Nat} (hle : ja.epAddr id ≤ i) (hlt : i < ja.epAddr id + 8) :
    i / 2 ^ 20 = ja.esegs (id / 2 ^ 17) := by
  unfold Ja.epAddr segAddr at hle hlt
  omega

/-- Entries of different ids do not overlap. -/
theorem Ja.epAddr_disjoint (hinj : ∀ l l', ja.esegs l ≠ segNotAssigned → ja.esegs l = ja.esegs l' →
    l = l') {id' : Nat} (hassigned : ja.esegs (id / 2 ^ 17) ≠ segNotAssigned) (hne : id ≠ id') :
    ja.epAddr id + 8 ≤ ja.epAddr id' ∨ ja.epAddr id' + 8 ≤ ja.epAddr id := by
  unfold Ja.epAddr segAddr
  by_cases hseg : ja.esegs (id / 2 ^ 17) = ja.esegs (id' / 2 ^ 17)
  · have hlseg := hinj _ _ hassigned hseg
    rw [← hseg]
    omega
  · omega

/-- The entry at an address depends on its eight bytes only. -/
theorem loadEinfo_congr {m m' : Memory UInt8} {a : Nat}
    (h : ∀ i, a ≤ i → i < a + 8 → m' i = m i) : loadEinfo m' a = loadEinfo m a := by
  unfold loadEinfo
  congr 1
  · apply loadU32_congr
    apply Memory.read_congr
    intro i hle hlt
    exact h i hle (by omega)
  · apply loadU32_congr
    apply Memory.read_congr
    intro i hle hlt
    exact h i (by omega) (by omega)

/-- An entry that has been written is read back. -/
theorem loadEinfo_write {m : Memory UInt8} {a : Nat} {e : Einfo} (hpos : e.pos < 2 ^ 32)
    (hsize : e.size < 2 ^ 32) : loadEinfo (m.write a (le32 e.pos ++ le32 e.size)) a = e := by
  have h := Memory.read_write m a (le32 e.pos ++ le32 e.size)
  rw [List.length_append, length_le32, length_le32, Memory.read_add] at h
  obtain ⟨hfst, hsnd⟩ := List.append_inj h (by simp)
  unfold loadEinfo
  rw [loadU32_of_read hpos hfst, loadU32_of_read hsize hsnd]

/-- The table is the same when the bytes of its segments are. -/
theorem Ja.einfo_congr (heseg : ∀ l, ja.esegs l ≠ segNotAssigned → ja.dsegs (ja.esegs l) = segEseg)
    (hesegs : ja'.esegs = ja.esegs)
    (hmem : ∀ i, ja.dsegs (i / 2 ^ 20) = segEseg → ja'.mem i = ja.mem i) :
    ja'.einfo = ja.einfo := by
  funext id
  unfold Ja.einfo
  rw [hesegs]
  split_ifs with hna
  · rfl
  · have haddr : ja'.epAddr id = ja.epAddr id := by
      unfold Ja.epAddr
      rw [hesegs]
    rw [haddr]
    apply loadEinfo_congr
    intro i hle hlt
    apply hmem
    rw [Ja.div_of_epAddr hle hlt]
    exact heseg _ hna

/-- The segment of a unit is that of its bytes. -/
theorem div_unit (i : Nat) : i / 16 / 2 ^ 16 = i / 2 ^ 20 := by
  omega

/-- The bytes of a value lie in its units. -/
theorem mem_Ico_of_byte {p n i : Nat} (hle : 16 * p ≤ i) (hlt : i < 16 * p + (8 + n)) :
    i / 16 ∈ Set.Ico p (p + unitsOf n) := by
  unfold unitsOf
  exact ⟨by omega, by omega⟩

theorem Ja.firstFree_spec {dsegs : Nat → Nat} {k i s : Nat}
    (h : Ja.firstFree dsegs k i = some s) : dsegs s = 0 ∧ s < i + k := by
  induction k generalizing i with
  | zero => simp [Ja.firstFree] at h
  | succ k ih =>
      rw [Ja.firstFree] at h
      split_ifs at h with hfree
      · obtain rfl := Option.some.inj h
        exact ⟨hfree, by omega⟩
      · obtain ⟨hzero, hlt⟩ := ih h
        exact ⟨hzero, by omega⟩

/-- The run found consists of free segments of the file. -/
theorem Ja.findRun_spec {dsegs : Nat → Nat} {nseg k i j p : Nat} (hj : j < nseg) (hji : j ≤ i)
    (hfree : ∀ m, i - j ≤ m → m < i → dsegs m = 0) (h : Ja.findRun dsegs nseg k i j = some p) :
    ∃ s, p = s * 2 ^ 16 ∧ s + nseg ≤ i + k ∧ ∀ m, s ≤ m → m < s + nseg → dsegs m = 0 := by
  induction k generalizing i j with
  | zero => simp [Ja.findRun] at h
  | succ k ih =>
      simp only [Ja.findRun] at h
      split_ifs at h with hzero hfull
      · refine ⟨i + 1 - (j + 1), (Option.some.inj h).symm, by omega, fun m hle hlt => ?_⟩
        by_cases hm : m = i
        · exact hm ▸ hzero
        · exact hfree m (by omega) (by omega)
      · obtain ⟨s, hp, hend, hall⟩ := ih (by omega) (by omega) (by
          intro m hle hlt
          by_cases hm : m = i
          · exact hm ▸ hzero
          · exact hfree m (by omega) (by omega)) h
        exact ⟨s, hp, by omega, hall⟩
      · obtain ⟨s, hp, hend, hall⟩ := ih (by omega) (by omega) (by
          intro m hle hlt
          omega) h
        exact ⟨s, hp, by omega, hall⟩

namespace Ja.Holds

theorem nil_iff (h : ja.Holds vals N) (hid : id < 2 ^ 28) :
    vals id = [] ↔ (ja.einfo id).size = 0 := by
  rw [h.size id hid, List.length_eq_zero_iff]

theorem extent_eq (h : ja.Holds vals N) (hid : id < 2 ^ 28) (hne : vals id ≠ []) :
    extent (ja.einfo id) =
      Set.Ico (ja.einfo id).pos ((ja.einfo id).pos + unitsOf (vals id).length) := by
  rw [extent_of_size_ne_zero (mt (h.nil_iff hid).mpr hne), h.size id hid]

/-- A free segment has no units of a value. -/
theorem not_mem_of_free (h : ja.Holds vals N) {s u : Nat} (hs : s < maxDsegs)
    (hfree : ja.dsegs s = 0) (hu : u / 2 ^ 16 = s) : u ∉ used ja.einfo ∪ N := by
  have hne : ja.dsegs s ≠ segEseg := by
    rw [hfree]
    decide
  exact not_mem_of_usage_eq_zero (by decide) ((h.balanced.count s hs hne).symm.trans hfree) hu

/-- Entries without a value may change what else they say. -/
theorem of_similar (h : ja.Holds vals N) (hmem : ja'.mem = ja.mem)
    (hcurr : ja'.currPos = ja.currPos)
    (heinfo : ∀ id, ja'.einfo id = ja.einfo id ∨ (ja'.einfo id).size = 0 ∧ (ja.einfo id).size = 0)
    (heseg : ∀ l, ja'.esegs l ≠ segNotAssigned → ja'.dsegs (ja'.esegs l) = segEseg)
    (hinj : ∀ l l', ja'.esegs l ≠ segNotAssigned → ja'.esegs l = ja'.esegs l' → l = l')
    (hbalanced : Balanced ja'.dsegs (used ja.einfo ∪ N)) : ja'.Holds vals N := by
  have hextent : ∀ id, extent (ja'.einfo id) = extent (ja.einfo id) := by
    intro id
    rcases heinfo id with heq | ⟨hzero', hzero⟩
    · rw [heq]
    · rw [extent_of_size_eq_zero hzero', extent_of_size_eq_zero hzero]
  have hused : used ja'.einfo = used ja.einfo := by
    unfold used
    simp only [hextent]
  have hsize : ∀ id, (ja'.einfo id).size = (ja.einfo id).size := by
    intro id
    rcases heinfo id with heq | ⟨hzero', hzero⟩
    · rw [heq]
    · rw [hzero', hzero]
  have hvalue : ∀ id < 2 ^ 28, vals id ≠ [] → ja'.einfo id = ja.einfo id := by
    intro id hid hne
    exact (heinfo id).resolve_right fun hzero => hne ((h.nil_iff hid).mpr hzero.2)
  refine ⟨heseg, hinj, fun id hid => ?_, fun id hid hne => ?_, fun id hid hne => ?_,
    fun id hid id' hid' hne => ?_, ?_, ?_, ?_⟩
  · rw [hsize, h.size id hid]
  · rw [hmem, hvalue id hid hne]
    exact h.bytes id hid hne
  · rw [hvalue id hid hne]
    exact h.shaped id hid hne
  · rw [hextent, hextent]
    exact h.disjoint id hid id' hid' hne
  · rw [hused]
    exact h.fresh
  · rw [hused]
    exact hbalanced
  · rw [hcurr, hused]
    exact h.behind

/-- **The first stage.** Assigning a clean segment to the table changes nothing in it. -/
theorem needEseg (h : ja.Holds vals ∅) (hclean : ja.esegs (id / 2 ^ 17) = segNotAssigned →
      ∀ s, Ja.firstFree ja.dsegs maxDsegs 0 = some s →
        ∀ i < 2 ^ 17, (loadEinfo ja.mem (segAddr s (i * 8))).size = 0)
    (hneed : ja.needEseg id = some ja') :
    ja'.Holds vals ∅ ∧ ja'.esegs (id / 2 ^ 17) ≠ segNotAssigned ∧ ja'.currPos = ja.currPos ∧
      (∀ s, ja'.dsegs s = segEseg → ja.dsegs s = segEseg ∨
        (ja.esegs (id / 2 ^ 17) = segNotAssigned ∧
          Ja.firstFree ja.dsegs maxDsegs 0 = some s)) ∧
      (∀ s, ja.dsegs s = segEseg → ja'.dsegs s = segEseg) ∧
      ∀ id' < 2 ^ 28, vals id' ≠ [] → ja'.einfo id' = ja.einfo id' := by
  unfold Ja.needEseg at hneed
  split_ifs at hneed with hna
  · unfold Ja.assignEseg at hneed
    obtain ⟨s, hfirst, rfl⟩ := Option.map_eq_some_iff.mp hneed
    obtain ⟨hfree, hlt⟩ := Ja.firstFree_spec hfirst
    have hs : s < maxDsegs := by omega
    have hsna : s ≠ segNotAssigned := by
      unfold maxDsegs at hs
      unfold segNotAssigned
      omega
    have hseg : ∀ l, ja.esegs l ≠ segNotAssigned → ja.esegs l ≠ s := by
      intro l hl heq
      have := h.eseg l hl
      rw [heq, hfree] at this
      exact absurd this (by decide)
    refine ⟨h.of_similar rfl rfl ?_ ?_ ?_ ?_, ?_, rfl, ?_, ?_, ?_⟩
    · -- the entries of the new segment are empty, as they were before
      intro id'
      by_cases hl : id' / 2 ^ 17 = id / 2 ^ 17
      · right
        unfold Ja.einfo Ja.epAddr
        simp only [hl, Function.update_self, hsna, if_false, hna, if_true, and_true]
        exact hclean hna s hfirst _ (Nat.mod_lt _ (by decide))
      · left
        unfold Ja.einfo Ja.epAddr
        simp only [ne_eq, hl, not_false_eq_true, Function.update_of_ne]
    · intro l hl
      by_cases hid : l = id / 2 ^ 17
      · simp only [hid, Function.update_self]
      · simp only [ne_eq, hid, not_false_eq_true, Function.update_of_ne] at hl ⊢
        rw [Function.update_of_ne (hseg l hl)]
        exact h.eseg l hl
    · intro l l' hl heq
      by_cases hid : l = id / 2 ^ 17 <;> by_cases hid' : l' = id / 2 ^ 17
      · rw [hid, hid']
      · simp only [hid, Function.update_self, ne_eq, hid', not_false_eq_true,
          Function.update_of_ne] at heq
        exact absurd heq.symm (hseg l' (heq ▸ hsna))
      · simp only [ne_eq, hid, not_false_eq_true, Function.update_of_ne, hid',
          Function.update_self] at hl heq
        exact absurd heq (hseg l hl)
      · simp only [ne_eq, hid, not_false_eq_true, Function.update_of_ne, hid'] at hl heq
        exact h.esegInj l l' hl heq
    · refine ⟨fun u hu => ?_, fun t ht hne => ?_⟩
      · have hne : u / 2 ^ 16 ≠ s := fun heq => h.not_mem_of_free hs hfree heq hu
        simp only [ne_eq, hne, not_false_eq_true, Function.update_of_ne]
        exact h.balanced.data u hu
      · by_cases hts : t = s
        · simp only [hts, Function.update_self, ne_eq, not_true_eq_false] at hne
        · simp only [ne_eq, hts, not_false_eq_true, Function.update_of_ne] at hne ⊢
          exact h.balanced.count t ht hne
    · simpa only [Function.update_self] using hsna
    · intro t ht
      by_cases hts : t = s
      · exact .inr ⟨hna, hts ▸ hfirst⟩
      · simp only [ne_eq, hts, not_false_eq_true, Function.update_of_ne] at ht
        exact .inl ht
    · intro t ht
      have hts : t ≠ s := by
        rintro rfl
        rw [hfree] at ht
        exact absurd ht (by decide)
      simpa only [ne_eq, hts, not_false_eq_true, Function.update_of_ne] using ht
    · intro id' hid' hne
      have hl : id' / 2 ^ 17 ≠ id / 2 ^ 17 := by
        intro hl
        apply hne
        rw [h.nil_iff hid', Ja.einfo, hl, if_pos hna]
      unfold Ja.einfo Ja.epAddr
      simp only [ne_eq, hl, not_false_eq_true, Function.update_of_ne]
  · obtain rfl := Option.some.inj hneed
    exact ⟨h, hna, rfl, fun s hs => .inl hs, fun s hs => hs, fun _ _ _ => rfl⟩

end Ja.Holds

/-- `n` units from `p` on are free, and no value is behind them in their segments. -/
structure Ja.Room (ja : Ja) (p n : Nat) : Prop where
  shaped : Shaped p n
  data : ∀ u, p ≤ u → u < p + n → ja.dsegs (u / 2 ^ 16) ≠ segEseg
  behind : ∀ u ∈ used ja.einfo, p / 2 ^ 16 ≤ u / 2 ^ 16 → u / 2 ^ 16 ≤ (p + n - 1) / 2 ^ 16 → u < p

namespace Ja.Holds

/-- **The second stage.** The place `assign_rec` chooses has room for the value. -/
theorem assignRec (h : ja.Holds vals ∅) {len : Nat} (hpos : 0 < len) (hlen : len < 2 ^ 31)
    (hapart : ja.fits len = true → ja.dsegs (ja.currPos / 2 ^ 16) ≠ segEseg)
    (hrec : ja.assignRec len = some ja') :
    ∃ p, ja' = { ja with currPos := p } ∧ ja.Room p (unitsOf len) ∧
      (p % 2 ^ 16 = 0 ∨ p = ja.currPos) := by
  have hunits : unitsOf len < 2 ^ 31 := by
    unfold unitsOf
    omega
  unfold Ja.assignRec at hrec
  split_ifs at hrec with hfits
  · obtain rfl := Option.some.inj hrec
    have hfits' := hfits
    simp only [Ja.fits, ne_eq, decide_eq_true_eq] at hfits'
    obtain ⟨hne, hroom⟩ := hfits'
    obtain ⟨hlt, hbehind⟩ := h.behind hne
    -- the rest of the segment of `curr_pos` is free
    have hinside : ja.currPos % 2 ^ 16 + unitsOf len ≤ 2 ^ 16 := by
      unfold unitsOf
      omega
    have hseg : ∀ u, ja.currPos ≤ u → u < ja.currPos + unitsOf len →
        u / 2 ^ 16 = ja.currPos / 2 ^ 16 := by
      intro u hle hlt
      omega
    refine ⟨ja.currPos, rfl, ⟨⟨unitsOf_pos len, hunits, by omega, .inr hinside⟩, ?_, ?_⟩, .inr rfl⟩
    · intro u hle hlt
      rw [hseg u hle hlt]
      exact hapart hfits
    · intro u hu hlo hhi
      have hup := unitsOf_pos len
      rw [hseg (ja.currPos + unitsOf len - 1) (by omega) (by omega)] at hhi
      exact hbehind u (.inl hu) (le_antisymm hhi hlo)
  · obtain ⟨p, hrun, rfl⟩ := Option.map_eq_some_iff.mp hrec
    obtain ⟨s, rfl, hend, hfree⟩ := Ja.findRun_spec (i := 0) (j := 0) (by omega) le_rfl
      (fun m _ hlt => absurd hlt (Nat.not_lt_zero m)) hrun
    have hfit : unitsOf len ≤ (len + 8 + 0xfffff) / 2 ^ 20 * 2 ^ 16 := by
      unfold unitsOf
      omega
    unfold maxDsegs at hend
    have hwithin : ∀ u, s * 2 ^ 16 ≤ u → u < s * 2 ^ 16 + unitsOf len →
        s ≤ u / 2 ^ 16 ∧ u / 2 ^ 16 < s + (len + 8 + 0xfffff) / 2 ^ 20 := by
      intro u hle hlt
      omega
    refine ⟨s * 2 ^ 16, rfl, ⟨⟨unitsOf_pos len, hunits, by omega,
      .inl (Nat.mul_mod_left s _)⟩, ?_, ?_⟩, .inl (Nat.mul_mod_left s _)⟩
    · intro u hle hlt
      obtain ⟨hlo, hhi⟩ := hwithin u hle hlt
      rw [hfree _ hlo hhi]
      decide
    · intro u hu hlo hhi
      have hup := unitsOf_pos len
      have hlast := hwithin (s * 2 ^ 16 + unitsOf len - 1) (by omega) (by omega)
      have hzero : ja.dsegs (u / 2 ^ 16) = 0 := hfree _ (by omega) (by omega)
      have hlt : u / 2 ^ 16 < maxDsegs := by
        unfold maxDsegs
        omega
      exact absurd (.inl hu) (h.not_mem_of_free hlt hzero rfl)

/-- **The third stage.** Writing the value takes its units and leaves the table and the other
values alone. -/
theorem writeRec {p : Nat} (h : ja.Holds vals ∅)
    (hroom : ja.Room p (unitsOf value.length)) :
    ∃ ja', ({ ja with currPos := p } : Ja).writeRec id value = some ja' ∧
      ja'.Holds vals (Set.Ico p (p + unitsOf value.length)) ∧ ja'.esegs = ja.esegs ∧
      ja'.mem.read (16 * p) (8 + value.length) = ehead value.length id ++ value ∧
      (∀ i, i / 16 ∉ Set.Ico p (p + unitsOf value.length) → ja'.mem i = ja.mem i) ∧
      (∀ s, ja'.dsegs s = segEseg ↔ ja.dsegs s = segEseg) ∧
      (ja'.currPos ≠ 0 → ja'.currPos = p + unitsOf value.length ∧
        (p + unitsOf value.length) % 2 ^ 16 ≠ 0) ∧
      ja'.einfo = ja.einfo := by
  set n := unitsOf value.length with hn
  have hpos := hroom.shaped.pos
  have hle := hroom.shaped.le
  have hfresh : Disjoint (used ja.einfo) (Set.Ico p (p + n)) := by
    rw [Set.disjoint_left]
    rintro u hu ⟨hlo, hhi⟩
    have := hroom.behind u hu (by omega) (by omega)
    omega
  have hbal : Balanced ja.dsegs (used ja.einfo) := by simpa using h.balanced
  obtain ⟨dsegs', hfill, hsum⟩ := Ja.fill_spec hroom.shaped
    fun s hs => hbal.room hroom.shaped hfresh hroom.data hs
  obtain ⟨hbal', heseg⟩ := hbal.union hroom.shaped hfresh hroom.data hsum
  have haddr : segAddr (p / 2 ^ 16) (p % 2 ^ 16 * 16) = 16 * p := by
    unfold segAddr
    omega
  have hbytes : (ehead value.length id ++ value).length = 8 + value.length := by
    simp only [ehead, List.length_append, length_le32]
  let ja₁ : Ja := { ja with
    currPos := if (p + n) % 2 ^ 32 % 2 ^ 16 ≠ 0 then (p + n) % 2 ^ 32 else 0
    dsegs := dsegs'
    mem := ja.mem.write (16 * p) (ehead value.length id ++ value) }
  have hmem : ∀ i, i / 16 ∉ Set.Ico p (p + n) → ja₁.mem i = ja.mem i := by
    intro i hi
    apply Memory.write_of_not_mem
    rw [hbytes]
    rintro ⟨hlo, hhi⟩
    exact hi (mem_Ico_of_byte hlo hhi)
  have heinfo : ja₁.einfo = ja.einfo := by
    refine Ja.einfo_congr h.eseg rfl fun i hi => hmem i ?_
    rintro ⟨hlo, hhi⟩
    have hdata := hroom.data _ hlo hhi
    rw [div_unit] at hdata
    exact hdata hi
  have hend (hne : ja₁.currPos ≠ 0) :
      ja₁.currPos = p + n ∧ p + n < 2 ^ 32 ∧ (p + n) % 2 ^ 16 ≠ 0 := by
    simp only [ja₁] at hne ⊢
    split_ifs at hne ⊢ with hmod
    · omega
    · exact absurd rfl hne
  refine ⟨ja₁, ?_, ⟨?_, h.esegInj, ?_, ?_, ?_, ?_, ?_, ?_, ?_⟩, rfl, ?_, hmem, heseg,
    fun hne => ⟨(hend hne).1, (hend hne).2.2⟩, heinfo⟩
  · unfold Ja.writeRec
    rw [← hn]
    simp only [hfill, Option.map_some, haddr]
    rfl
  · intro l hl
    exact (heseg _).mpr (h.eseg l hl)
  · rw [heinfo]
    exact h.size
  · intro id' hid' hne
    rw [heinfo, ← h.bytes id' hid' hne]
    apply Memory.read_congr
    intro i hlo hhi
    apply hmem
    refine Set.disjoint_left.mp hfresh ⟨id', hid', ?_⟩
    rw [h.extent_eq hid' hne]
    exact mem_Ico_of_byte hlo hhi
  · rw [heinfo]
    exact h.shaped
  · rw [heinfo]
    exact h.disjoint
  · rw [heinfo]
    exact hfresh
  · rw [heinfo]
    exact hbal'
  · intro hne
    obtain ⟨hcurr, hlt, hmod⟩ := hend hne
    rw [hcurr, heinfo]
    refine ⟨hlt, ?_⟩
    rintro u (hu | ⟨-, hhi⟩) hseg
    · have := hroom.behind u hu (by omega) (by omega)
      omega
    · exact hhi
  · rw [← hbytes]
    exact Memory.read_write _ _ _

end Ja.Holds

/-- The new table entry of `id` tells where its value is. -/
structure Ja.Places (ja : Ja) (id : Nat) (value : List UInt8) (ne : Einfo) : Prop where
  size : ne.size = value.length
  size_lt : value.length < 2 ^ 31
  pos_lt : ne.pos < 2 ^ 32
  shaped : value ≠ [] → Shaped ne.pos (unitsOf value.length)
  bytes : value ≠ [] →
    ja.mem.read (16 * ne.pos) (8 + value.length) = ehead value.length id ++ value

/-- What setting a table entry does: it gives the units of the old value back, and touches
only the entry and those units. -/
structure Ja.EntrySet (ja : Ja) (id : Nat) (ne : Einfo) (ja' : Ja) : Prop where
  esegs : ja'.esegs = ja.esegs
  currPos : ja'.currPos = ja.currPos
  einfo : ∀ id' < 2 ^ 28, ja'.einfo id' = if id' = id then ne else ja.einfo id'
  eseg : ∀ s, ja'.dsegs s = segEseg ↔ ja.dsegs s = segEseg
  mem : ∀ i, ¬ (ja.epAddr id ≤ i ∧ i < ja.epAddr id + 8) → i / 16 ∉ extent (ja.einfo id) →
    ja'.mem i = ja.mem i

namespace Ja.Holds

/-- The value of an id is where its table entry says, outside of the table. -/
theorem extent_data (h : ja.Holds vals N) (hid : id < 2 ^ 28) {u : Nat}
    (hu : u ∈ extent (ja.einfo id)) : ja.dsegs (u / 2 ^ 16) ≠ segEseg :=
  h.balanced.data u (.inl ⟨id, hid, hu⟩)

theorem setEinfo_spec (h : ja.Holds vals N) (hid : id < 2 ^ 28)
    (hassigned : ja.esegs (id / 2 ^ 17) ≠ segNotAssigned) {ne : Einfo}
    (hplaces : ja.Places id value ne) :
    ∃ ja', ja.setEinfo id ne = some ja' ∧ ja.EntrySet id ne ja' ∧
      Balanced ja'.dsegs ((used ja.einfo ∪ N) \ extent (ja.einfo id)) := by
  have hsize := hplaces.size_lt
  obtain ⟨m₁, hm₁⟩ : ∃ m, m = ja.mem.write (ja.epAddr id) (le32 ne.pos ++ le32 ne.size) :=
    ⟨_, rfl⟩
  let ja₁ : Ja := { ja with mem := m₁ }
  have hold : ja.einfo id = loadEinfo ja.mem (ja.epAddr id) := if_neg hassigned
  have hlen : (le32 ne.pos ++ le32 ne.size).length = 8 := rfl
  have hwrite : ∀ i, ¬ (ja.epAddr id ≤ i ∧ i < ja.epAddr id + 8) → m₁ i = ja.mem i := by
    intro i hi
    rw [hm₁]
    exact Memory.write_of_not_mem (by rwa [hlen])
  -- the table after the write
  have heinfo : ∀ id', ja₁.einfo id' = if id' = id then ne else ja.einfo id' := by
    intro id'
    have haddr : ∀ id, ja₁.epAddr id = ja.epAddr id := fun _ => rfl
    by_cases hna : ja.esegs (id' / 2 ^ 17) = segNotAssigned
    · have hne : id' ≠ id := by
        rintro rfl
        exact hassigned hna
      rw [if_neg hne]
      unfold Ja.einfo
      rw [if_pos hna, if_pos hna]
    · unfold Ja.einfo
      rw [if_neg hna, if_neg hna, haddr]
      split_ifs with heq
      · rw [heq]
        show loadEinfo m₁ _ = ne
        rw [hm₁]
        exact loadEinfo_write hplaces.pos_lt (by rw [hplaces.size]; omega)
      · apply loadEinfo_congr
        intro i hlo hhi
        apply hwrite
        have := Ja.epAddr_disjoint h.esegInj hna heq
        omega
  by_cases hzero : (ja.einfo id).size = 0
  · refine ⟨ja₁, ?_, ⟨rfl, rfl, fun id' _ => heinfo id', fun s => Iff.rfl,
      fun i hi _ => hwrite i hi⟩, ?_⟩
    · unfold Ja.setEinfo
      simp only [← hold, hzero, ne_eq, not_true_eq_false, if_false, ← hm₁]
      rfl
    · rw [extent_of_size_eq_zero hzero, Set.sdiff_empty]
      exact h.balanced
  · have hvals : vals id ≠ [] := mt (h.nil_iff hid).mp hzero
    have hshaped := h.shaped id hid hvals
    have hextent := h.extent_eq hid hvals
    rw [← h.size id hid] at hshaped hextent
    have hsub : Set.Ico (ja.einfo id).pos ((ja.einfo id).pos + unitsOf (ja.einfo id).size) ⊆
        used ja.einfo ∪ N := by
      rw [← hextent]
      exact fun u hu => .inl ⟨id, hid, hu⟩
    obtain ⟨ja', hrelease, hesegs, hcurr, hsum, hmem⟩ :=
      @Ja.release_spec ja₁ _ hshaped fun s hs => h.balanced.counted hshaped hsub hs
    obtain ⟨hbal, heseg⟩ := h.balanced.diff hshaped hsub hsum
    have hmem' : ∀ i, i / 16 ∉ extent (ja.einfo id) → ja'.mem i = ja₁.mem i := by
      intro i hi
      rw [hextent, Set.mem_Ico] at hi
      exact hmem i hi
    have heinfo' : ja'.einfo = ja₁.einfo := by
      refine @Ja.einfo_congr ja₁ _ h.eseg hesegs fun i hi => hmem' i fun hu => ?_
      have := h.extent_data hid hu
      rw [div_unit] at this
      exact this hi
    refine ⟨ja', ?_, ⟨hesegs, hcurr, fun id' _ => ?_, heseg, fun i hi hu => ?_⟩, ?_⟩
    · unfold Ja.setEinfo
      simp only [← hold, hzero, ne_eq, not_false_eq_true, if_true, ← hm₁]
      exact hrelease
    · rw [heinfo', heinfo]
    · rw [hmem' i hu]
      exact hwrite i hi
    · rw [hextent]
      exact hbal

/-- **The last stage.** Once the table entry is set, the array holds the value. -/
theorem setEinfo {ne : Einfo} (h : ja.Holds vals (extent ne)) (hid : id < 2 ^ 28)
    (hassigned : ja.esegs (id / 2 ^ 17) ≠ segNotAssigned) (hplaces : ja.Places id value ne) :
    ∃ ja', ja.setEinfo id ne = some ja' ∧ ja'.Holds (Function.update vals id value) ∅ ∧
      ja.EntrySet id ne ja' := by
  obtain ⟨ja', hset, hentry, hbal⟩ := h.setEinfo_spec hid hassigned hplaces
  have hself : ja'.einfo id = ne := by rw [hentry.einfo id hid, if_pos rfl]
  have hother : ∀ id' < 2 ^ 28, id' ≠ id → ja'.einfo id' = ja.einfo id' := by
    intro id' hid' hne
    rw [hentry.einfo id' hid', if_neg hne]
  have hnew : ∀ id' < 2 ^ 28, Disjoint (extent (ja.einfo id')) (extent ne) := by
    intro id' hid'
    apply h.fresh.mono_left
    intro u hu
    exact ⟨id', hid', hu⟩
  have hused : used ja'.einfo = (used ja.einfo ∪ extent ne) \ extent (ja.einfo id) := by
    ext u
    constructor
    · rintro ⟨id', hid', hu⟩
      by_cases heq : id' = id
      · rw [heq, hself] at hu
        exact ⟨.inr hu, Set.disjoint_right.mp (hnew id hid) hu⟩
      · rw [hother id' hid' heq] at hu
        exact ⟨.inl ⟨id', hid', hu⟩, Set.disjoint_left.mp (h.disjoint id' hid' id hid heq) hu⟩
    · rintro ⟨⟨id', hid', hu⟩ | hu, hnot⟩
      · have heq : id' ≠ id := by
          rintro rfl
          exact hnot hu
        exact ⟨id', hid', by rwa [hother id' hid' heq]⟩
      · exact ⟨id, hid, by rwa [hself]⟩
  -- the bytes of a value are neither in the table nor in the old value
  have hbytes : ∀ {p len : Nat}, (∀ u ∈ Set.Ico p (p + unitsOf len),
      ja.dsegs (u / 2 ^ 16) ≠ segEseg ∧ u ∉ extent (ja.einfo id)) →
      ja'.mem.read (16 * p) (8 + len) = ja.mem.read (16 * p) (8 + len) := by
    intro p len hapart
    apply Memory.read_congr
    intro i hlo hhi
    obtain ⟨hdata, hnot⟩ := hapart _ (mem_Ico_of_byte hlo hhi)
    refine hentry.mem i ?_ hnot
    rintro ⟨hle, hlt⟩
    rw [div_unit] at hdata
    exact hdata ((congrArg ja.dsegs (Ja.div_of_epAddr hle hlt)).trans (h.eseg _ hassigned))
  refine ⟨ja', hset, ⟨?_, ?_, ?_, ?_, ?_, ?_, Set.disjoint_empty _, ?_, ?_⟩, hentry⟩
  · intro l hl
    rw [hentry.esegs] at hl ⊢
    exact (hentry.eseg _).mpr (h.eseg l hl)
  · rw [hentry.esegs]
    exact h.esegInj
  · intro id' hid'
    by_cases heq : id' = id
    · rw [heq, hself, Function.update_self, hplaces.size]
    · rw [hother id' hid' heq, Function.update_of_ne heq, h.size id' hid']
  · intro id' hid' hne
    by_cases heq : id' = id
    · rw [heq, Function.update_self] at hne
      rw [heq, hself, Function.update_self, ← hplaces.bytes hne]
      have hsize : ne.size ≠ 0 := by
        rw [hplaces.size]
        exact mt List.length_eq_zero_iff.mp hne
      apply hbytes
      rw [← hplaces.size, ← extent_of_size_ne_zero hsize]
      exact fun u hu => ⟨h.balanced.data u (.inr hu), Set.disjoint_right.mp (hnew id hid) hu⟩
    · rw [Function.update_of_ne heq] at hne ⊢
      rw [hother id' hid' heq, ← h.bytes id' hid' hne]
      apply hbytes
      rw [← h.extent_eq hid' hne]
      exact fun u hu => ⟨h.extent_data hid' hu,
        Set.disjoint_left.mp (h.disjoint id' hid' id hid heq) hu⟩
  · intro id' hid' hne
    by_cases heq : id' = id
    · rw [heq, Function.update_self] at hne ⊢
      rw [hself]
      exact hplaces.shaped hne
    · rw [Function.update_of_ne heq] at hne ⊢
      rw [hother id' hid' heq]
      exact h.shaped id' hid' hne
  · intro id₁ hid₁ id₂ hid₂ hne
    by_cases h₁ : id₁ = id <;> by_cases h₂ : id₂ = id
    · exact absurd (h₁.trans h₂.symm) hne
    · rw [h₁, hself, hother id₂ hid₂ h₂]
      exact (hnew id₂ hid₂).symm
    · rw [h₂, hself, hother id₁ hid₁ h₁]
      exact hnew id₁ hid₁
    · rw [hother id₁ hid₁ h₁, hother id₂ hid₂ h₂]
      exact h.disjoint id₁ hid₁ id₂ hid₂ hne
  · rw [Set.union_empty, hused]
    exact hbal
  · rw [hentry.currPos, Set.union_empty, hused]
    intro hne
    obtain ⟨hlt, hbehind⟩ := h.behind hne
    exact ⟨hlt, fun u hu => hbehind u hu.1⟩

theorem no_value (h : ja.Holds vals ∅) : ja.Holds vals (extent ⟨0, 0⟩) := by
  rw [extent_of_size_eq_zero rfl]
  exact h

/-- In the segments of the table, setting an entry touches only the entry. -/
theorem entrySet_mem (h : ja.Holds vals N) (hid : id < 2 ^ 28) {ne : Einfo}
    (hentry : ja.EntrySet id ne ja') {i : Nat} (hi : ja'.dsegs (i / 2 ^ 20) = segEseg)
    (hnot : ¬ (ja'.epAddr id ≤ i ∧ i < ja'.epAddr id + 8)) : ja'.mem i = ja.mem i := by
  have haddr : ja'.epAddr id = ja.epAddr id := by
    unfold Ja.epAddr
    rw [hentry.esegs]
  rw [haddr] at hnot
  refine hentry.mem i hnot fun hu => ?_
  have hdata := h.extent_data hid hu
  rw [div_unit] at hdata
  exact hdata ((hentry.eseg _).mp hi)

end Ja.Holds

/-- A successful put: `ja₁` has the table segment of `id`, `ja₃` has the value at `p` and not yet
in the table. -/
structure Ja.Success (ja : Ja) (vals : Nat → List UInt8) (id : Nat) (value : List UInt8) (p : Nat)
    (ja₁ ja₃ ja' : Ja) : Prop where
  need : ja.needEseg id = some ja₁
  mem₁ : ja₁.mem = ja.mem
  currPos₁ : ja₁.currPos = ja.currPos
  eseg₁ : ∀ s, ja₁.dsegs s = segEseg → ja.dsegs s = segEseg ∨
    (ja.esegs (id / 2 ^ 17) = segNotAssigned ∧ Ja.firstFree ja.dsegs maxDsegs 0 = some s)
  eseg_le : ∀ s, ja.dsegs s = segEseg → ja₁.dsegs s = segEseg
  einfo₁ : ∀ id' < 2 ^ 28, vals id' ≠ [] → ja₁.einfo id' = ja.einfo id'
  einfo₃ : ja₃.einfo = ja₁.einfo
  holds₁ : ja₁.Holds vals ∅
  assigned : ja₁.esegs (id / 2 ^ 17) ≠ segNotAssigned
  nil : value = [] → ja₃ = ja₁
  room : value ≠ [] → ja₁.Room p (unitsOf value.length)
  place : value ≠ [] → p % 2 ^ 16 = 0 ∨ p = ja₁.currPos
  holds₃ : ja₃.Holds vals (extent ⟨p, value.length⟩)
  esegs₃ : ja₃.esegs = ja₁.esegs
  eseg₃ : ∀ s, ja₃.dsegs s = segEseg ↔ ja₁.dsegs s = segEseg
  mem₃ : ∀ i, i / 16 ∉ extent ⟨p, value.length⟩ → ja₃.mem i = ja₁.mem i
  bytes₃ : value ≠ [] →
    ja₃.mem.read (16 * p) (8 + value.length) = ehead value.length id ++ value
  currPos₃ : value ≠ [] → ja₃.currPos ≠ 0 → ja₃.currPos = p + unitsOf value.length ∧
    (p + unitsOf value.length) % 2 ^ 16 ≠ 0
  set : ja₃.setEinfo id ⟨p, value.length⟩ = some ja'
  entry : ja₃.EntrySet id ⟨p, value.length⟩ ja'
  holds : ja'.Holds (Function.update vals id value) ∅

namespace Ja.Holds

/-- **The stages of a put.** It fails before the value is written, or goes through all stages. -/
theorem put_stages (h : ja.Holds vals ∅) (hsafe : ja.Safe id value)
    (hlen : value.length < 2 ^ 31) :
    ja.put id value = some (.internalError, ja) ∨
    (∃ ja₁, ja.put id value = some (.otherError, ja₁) ∧ ja.needEseg id = some ja₁ ∧
      ja₁.Holds vals ∅) ∨
    ∃ p ja₁ ja₃ ja', ja.put id value = some (.success, ja') ∧
      ja.Success vals id value p ja₁ ja₃ ja' := by
  have hid := hsafe.id_lt
  have hrange : ¬ maxEsegs ≤ id / 2 ^ 17 := by
    unfold maxEsegs
    omega
  unfold Ja.put
  rw [if_neg hrange]
  cases hneed : ja.needEseg id with
  | none => exact .inl rfl
  | some ja₁ =>
      obtain ⟨h₁, hassigned, hcurr, hfrom, hle, heinfo₁⟩ := h.needEseg hsafe.clean hneed
      have hmem₁ : ja₁.mem = ja.mem := by
        unfold Ja.needEseg at hneed
        split_ifs at hneed
        · obtain ⟨s, -, rfl⟩ := Option.map_eq_some_iff.mp hneed
          rfl
        · rw [Option.some.inj hneed]
      simp only
      by_cases hnil : value = []
      · subst hnil
        have hplaces : ja₁.Places id [] ⟨0, 0⟩ :=
          ⟨rfl, by decide, by decide, fun hne => absurd rfl hne, fun hne => absurd rfl hne⟩
        obtain ⟨ja', hset, hholds, hentry⟩ := h₁.no_value.setEinfo hid hassigned hplaces
        rw [if_pos rfl, hset]
        exact .inr (.inr ⟨0, ja₁, ja₁, ja', rfl, hneed, hmem₁, hcurr, hfrom, hle,
          heinfo₁, rfl, h₁, hassigned, fun _ => rfl, fun hne => absurd rfl hne, fun hne =>
              absurd rfl hne, h₁.no_value, rfl,
          fun s => Iff.rfl, fun i _ => rfl, fun hne => absurd rfl hne, fun hne => absurd rfl hne,
          hset, hentry, hholds⟩)
      · have hpos : 0 < value.length := List.length_pos_of_ne_nil hnil
        rw [if_neg hnil]
        cases hrec : ja₁.assignRec value.length with
        | none => exact .inr (.inl ⟨ja₁, rfl, rfl, h₁⟩)
        | some ja₂ =>
            have hapart : ja₁.fits value.length = true →
                ja₁.dsegs (ja₁.currPos / 2 ^ 16) ≠ segEseg := by
              intro hfits
              unfold Ja.fits at hfits
              rw [hcurr] at hfits ⊢
              obtain ⟨hbefore, hnew⟩ := hsafe.apart hnil hfits
              intro heseg
              rcases hfrom _ heseg with heseg | ⟨hna, hfirst⟩
              · exact hbefore heseg
              · exact hnew hna hfirst
            obtain ⟨p, rfl, hroom, hplace⟩ := h₁.assignRec hpos hlen hapart hrec
            obtain ⟨ja₃, hwrite, h₃, hesegs₃, hbytes, hmem₃, heseg₃, hend, heinfo₃⟩ :=
              @writeRec _ _ id _ _ h₁ hroom
            have hplaces : ja₃.Places id value ⟨p, value.length⟩ := by
              refine ⟨rfl, hlen, ?_, fun _ => hroom.shaped, fun _ => hbytes⟩
              exact lt_of_lt_of_le (Nat.lt_add_of_pos_right hroom.shaped.pos) hroom.shaped.le
            have hextent : extent ⟨p, value.length⟩ = Set.Ico p (p + unitsOf value.length) :=
              extent_of_size_ne_zero hpos.ne'
            rw [← hextent] at h₃ hmem₃
            obtain ⟨ja', hset, hholds, hentry⟩ :=
              h₃.setEinfo hid (by rwa [hesegs₃]) hplaces
            refine .inr (.inr ⟨p, ja₁, ja₃, ja', ?_, hneed, hmem₁, hcurr, hfrom, hle,
              heinfo₁, heinfo₃, h₁, hassigned, fun heq => absurd heq hnil, fun _ => hroom, fun _ =>
                  hplace, h₃, hesegs₃, heseg₃,
              hmem₃, fun _ => hbytes, fun _ => hend, hset, hentry, hholds⟩)
            show (Ja.writeRec _ id value).bind _ = _
            rw [hwrite, Option.bind_some, hset, Option.map_some]

/-- **A put** keeps the invariant, and in the segments of the table it changes the entry of
its id only. -/
theorem put (h : ja.Holds vals ∅) (hsafe : ja.Safe id value) (hlen : value.length < 2 ^ 31) :
    ∃ rc ja', ja.put id value = some (rc, ja') ∧
      (rc = .success → ja'.Holds (Function.update vals id value) ∅ ∧
        ∀ i, ja'.dsegs (i / 2 ^ 20) = segEseg →
          ¬ (ja'.epAddr id ≤ i ∧ i < ja'.epAddr id + 8) → ja'.mem i = ja.mem i) := by
  rcases h.put_stages hsafe hlen with hput | ⟨ja₁, hput, -⟩ | ⟨p, ja₁, ja₃, ja', hput, hs⟩
  · exact ⟨_, _, hput, fun hrc => SenRc.noConfusion hrc⟩
  · exact ⟨_, _, hput, fun hrc => SenRc.noConfusion hrc⟩
  · refine ⟨_, _, hput, fun _ => ⟨hs.holds, fun i hi hnot => ?_⟩⟩
    rw [hs.holds₃.entrySet_mem hsafe.id_lt hs.entry hi hnot, ← hs.mem₁]
    apply hs.mem₃
    intro hu
    have hdata := hs.holds₃.balanced.data _ (.inr hu)
    rw [div_unit] at hdata
    exact hdata ((hs.entry.eseg _).mp hi)

/-- **Looking up** finds the value that was put last. -/
theorem ref_eq (h : ja.Holds vals N) (hid : id < 2 ^ 28) :
    ja.ref id = some (if vals id = [] then none else some (vals id)) := by
  have hrange : ¬ maxEsegs ≤ id / 2 ^ 17 := by
    unfold maxEsegs
    omega
  have hsize := h.size id hid
  unfold Ja.ref
  rw [if_neg hrange]
  by_cases hna : ja.esegs (id / 2 ^ 17) = segNotAssigned
  · have hzero : vals id = [] := by
      rw [h.nil_iff hid, Ja.einfo, if_pos hna]
    rw [if_pos hna, if_pos hzero]
  · have hload : loadEinfo ja.mem (ja.epAddr id) = ja.einfo id := (if_neg hna).symm
    rw [if_neg hna]
    simp only [hload]
    by_cases hnil : vals id = []
    · rw [if_pos ((h.nil_iff hid).mp hnil), if_pos hnil]
    · rw [if_neg (mt (h.nil_iff hid).mpr hnil), if_neg hnil]
      have hbytes := h.bytes id hid hnil
      have hlen : (vals id).length < 2 ^ 32 := by
        rw [← hsize, ← hload]
        exact loadU32_lt _ _
      have haddr : segAddr ((ja.einfo id).pos / 2 ^ 16) ((ja.einfo id).pos % 2 ^ 16 * 16) =
          16 * (ja.einfo id).pos := by
        unfold segAddr
        omega
      rw [Memory.read_add] at hbytes
      obtain ⟨hhead, hvalue⟩ := List.append_inj hbytes (by simp [ehead])
      rw [show (8 : Nat) = 4 + 4 from rfl, Memory.read_add] at hhead
      obtain ⟨hlo, hhi⟩ := List.append_inj hhead (by simp)
      unfold Ja.readJa
      simp only [haddr, loadU32_of_read (by omega) hhi, loadU32_of_read hlen hlo, hsize, hvalue,
        ne_eq, not_true_eq_false, if_false]

end Ja.Holds

/-- The jagged arrays that safe puts lead to from the empty one, with the values last put. -/
inductive Ja.Runs : Ja → (Nat → List UInt8) → Prop
  | create : Runs Ja.create fun _ => []
  | put {ja ja' : Ja} {vals : Nat → List UInt8} {id : Nat} {value : List UInt8}
      (h : Runs ja vals) (hsafe : ja.Safe id value) (hlen : value.length < 2 ^ 31)
      (hput : ja.put id value = some (.success, ja')) :
      Runs ja' (Function.update vals id value)

theorem Ja.Runs.holds (h : Ja.Runs ja vals) : ja.Holds vals ∅ := by
  induction h with
  | create =>
      have heinfo : ∀ id, Ja.create.einfo id = ⟨0, 0⟩ := fun _ => rfl
      have hused : used Ja.create.einfo = ∅ := by
        ext u
        simp [used, heinfo, extent]
      refine ⟨fun l hl => absurd rfl hl, fun l _ hl => absurd rfl hl, fun _ _ => rfl,
        fun _ _ hne => absurd rfl hne, fun _ _ hne => absurd rfl hne, fun _ _ _ _ _ => ?_,
        Set.disjoint_empty _, ⟨?_, fun s _ _ => ?_⟩, fun hne => absurd rfl hne⟩
      · simp [heinfo, extent]
      · simp [hused]
      · rw [hused, Set.union_empty, usage_empty]
        rfl
  | put _ hsafe hlen hput ih =>
      obtain ⟨rc, ja', hrun, hkeeps⟩ := ih.put hsafe hlen
      obtain ⟨rfl, rfl⟩ := Prod.mk.inj (Option.some.inj (hput.symm.trans hrun))
      exact (hkeeps rfl).1

/-- The bytes of the value of `id`, with its header. -/
def Ja.bytesOf (ja : Ja) (id : Nat) : Set Nat :=
  Set.Ico (16 * (ja.einfo id).pos) (16 * (ja.einfo id).pos + 8 + (ja.einfo id).size)

/-- **A put never disturbs another id.** After any sequence of safe puts, every lookup finds
the value last put; the bytes of different values are disjoint, and none of them is in a
segment of the table; and a further safe put is defined and changes, in the segments of the
table, only the entry of its id. -/
theorem Ja.Runs.spec (h : Ja.Runs ja vals) :
    (∀ id < 2 ^ 28, ja.ref id = some (if vals id = [] then none else some (vals id))) ∧
    (∀ id < 2 ^ 28, ∀ id' < 2 ^ 28, vals id ≠ [] → vals id' ≠ [] → id ≠ id' →
      Disjoint (ja.bytesOf id) (ja.bytesOf id')) ∧
    (∀ l, ja.esegs l ≠ segNotAssigned → ja.dsegs (ja.esegs l) = segEseg ∧
      ∀ id < 2 ^ 28, vals id ≠ [] → ∀ i ∈ ja.bytesOf id, i / 2 ^ 20 ≠ ja.esegs l) ∧
    ∀ id value, ja.Safe id value → value.length < 2 ^ 31 →
      ∃ rc ja', ja.put id value = some (rc, ja') ∧
        (rc = .success → ∀ l, ja'.esegs l ≠ segNotAssigned → ∀ i, i / 2 ^ 20 = ja'.esegs l →
          ¬ (ja'.epAddr id ≤ i ∧ i < ja'.epAddr id + 8) → ja'.mem i = ja.mem i) := by
  have hholds := h.holds
  have hunits : ∀ id < 2 ^ 28, vals id ≠ [] → ∀ i ∈ ja.bytesOf id,
      i / 16 ∈ extent (ja.einfo id) := by
    intro id hid hne i hi
    rw [hholds.extent_eq hid hne]
    unfold Ja.bytesOf at hi
    rw [hholds.size id hid, Nat.add_assoc] at hi
    exact mem_Ico_of_byte hi.1 hi.2
  refine ⟨fun id hid => hholds.ref_eq hid, ?_, fun l hl => ⟨hholds.eseg l hl, ?_⟩, ?_⟩
  · intro id hid id' hid' hne hne' hdiff
    rw [Set.disjoint_left]
    intro i hi hi'
    exact Set.disjoint_left.mp (hholds.disjoint id hid id' hid' hdiff) (hunits id hid hne i hi)
      (hunits id' hid' hne' i hi')
  · intro id hid hne i hi heq
    have hdata := hholds.extent_data hid (hunits id hid hne i hi)
    rw [div_unit] at hdata
    exact hdata ((congrArg ja.dsegs heq).trans (hholds.eseg l hl))
  · intro id value hsafe hlen
    obtain ⟨rc, ja', hput, hkeeps⟩ := hholds.put hsafe hlen
    refine ⟨rc, ja', hput, fun hrc l hl i hi hnot => ?_⟩
    obtain ⟨hholds', hmem⟩ := hkeeps hrc
    refine hmem i ?_ hnot
    rw [hi]
    exact hholds'.eseg l hl

/-- A value in the empty array. -/
theorem Ja.safe_create : Ja.create.Safe 1 [97] := by
  refine ⟨by omega, fun _ s _ i _ => ?_, fun _ hfits => ?_⟩
  · simp [loadEinfo, loadU32, Ja.create]
  · simp [Ja.fits, Ja.create] at hfits

/-- Two values are put, and the first one is taken out again. -/
theorem Ja.Runs.spec_deleted :
    ∃ ja₁ ja₂ ja₃ : Ja, Ja.create.put 1 [97] = some (.success, ja₁) ∧
      ja₁.put 2 [98, 99] = some (.success, ja₂) ∧ ja₂.put 1 [] = some (.success, ja₃) ∧
      ja₃.ref 1 = some none ∧ ja₃.ref 2 = some (some [98, 99]) := by
  obtain ⟨ja₁, ja₂, ja₃, hput₁, hput₂, hput₃, htable₁, heseg₁, htable₂⟩ : ∃ ja₁ ja₂ ja₃ : Ja,
      Ja.create.put 1 [97] = some (.success, ja₁) ∧ ja₁.put 2 [98, 99] = some (.success, ja₂) ∧
      ja₂.put 1 [] = some (.success, ja₃) ∧ ja₁.esegs 0 ≠ segNotAssigned ∧
      ja₁.dsegs (ja₁.currPos / 2 ^ 16) ≠ segEseg ∧ ja₂.esegs 0 ≠ segNotAssigned :=
    ⟨_, _, _, rfl, rfl, rfl, by decide, by decide, by decide⟩
  have hlen {value : List UInt8} (hle : value.length ≤ 2) : value.length < 2 ^ 31 := by omega
  have hsafe₁ : ja₁.Safe 2 [98, 99] :=
    ⟨by decide, fun hnone => absurd hnone htable₁,
      fun _ _ => ⟨heseg₁, fun hnone => absurd hnone htable₁⟩⟩
  have hsafe₂ : ja₂.Safe 1 [] :=
    ⟨by decide, fun hnone => absurd hnone htable₂, fun hne => absurd rfl hne⟩
  have hruns := Ja.Runs.put (.put (.put .create Ja.safe_create (hlen (by decide)) hput₁) hsafe₁
    (hlen (by decide)) hput₂) hsafe₂ (hlen (by decide)) hput₃
  have hrefs := (Ja.Runs.spec hruns).1
  exact ⟨ja₁, ja₂, ja₃, hput₁, hput₂, hput₃, by simpa using hrefs 1 (by decide),
    by simpa using hrefs 2 (by decide)⟩

/-- A value is put and taken out again; the segment `curr_pos` points into is free then, and
becomes a segment of the table for the next value, which is put into this very segment. -/
theorem put_after_eseg :
    ∃ ja₁ ja₂ ja₃ : Ja, Ja.create.put 1 [97] = some (.success, ja₁) ∧
      ja₁.put 1 [] = some (.success, ja₂) ∧ ja₂.put 131072 [98] = some (.success, ja₃) ∧
      ja₃.esegs 1 = 1 ∧ ja₃.einfo 131072 = ⟨65537, 1⟩ ∧
      ∀ i ∈ ja₃.bytesOf 131072, i / 2 ^ 20 = ja₃.esegs 1 := by
  refine ⟨_, _, _, rfl, rfl, rfl, rfl, rfl, ?_⟩
  rintro i ⟨hle, hlt⟩
  change 16 * 65537 ≤ i at hle
  change i < 16 * 65537 + 8 + 1 at hlt
  change i / 2 ^ 20 = 1
  omega

end Senna.Store
