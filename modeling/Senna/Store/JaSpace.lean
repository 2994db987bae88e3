/-
# Where a jagged array puts its values

`Ja.Holds` is the invariant of a jagged array that holds the values `vals`: the extents of
the values are disjoint and avoid the table, `dsegs` counts the units they take up, and no
value lies behind `curr_pos` in its segment. A put goes through three stages: the table
segment is assigned, the value is written to units `N` that no value uses, and the table
entry is changed, which gives the old extent back.

The invariant breaks when the table gets a segment that is not clean, and when a value is
continued in a segment that has become part of the table meanwhile. `Ja.Safe` says that a
put does neither. `sen_ja_put` does not look out for it: `put_after_eseg` is a run in
which a value is put into the table.
-/

import Senna.Lib.Extent
import Senna.Store.Ja

namespace Senna.Store

open Senna.Io Senna.Lib

/-- The units of a value. -/
def extent (e : Einfo) : Set Nat :=
  if e.size = 0 then ∅ else Set.Ico e.pos (e.pos + unitsOf e.size)

/-- The units of all values. -/
def used (es : Nat → Einfo) : Set Nat := {u | ∃ id, id < 2 ^ 28 ∧ u ∈ extent (es id)}

/-- The counts are those of the units `U`, which avoid the table. -/
structure Balanced (dsegs : Nat → Nat) (U : Set Nat) : Prop where
  data : ∀ u ∈ U, dsegs (u / 2 ^ 16) ≠ segEseg
  count : ∀ s < maxDsegs, dsegs s ≠ segEseg → dsegs s = usage (2 ^ 16) U s

/-- An extent of `n` units from `p` on lies in one segment or starts one. -/
structure Shaped (p n : Nat) : Prop where
  pos : 0 < n
  lt : n < 2 ^ 31
  le : p + n ≤ 2 ^ 32
  shape : p % 2 ^ 16 = 0 ∨ p % 2 ^ 16 + n ≤ 2 ^ 16

theorem unitsOf_pos (size : Nat) : 0 < unitsOf size := by
  unfold unitsOf
  omega

/-- The loop that adds a value's units, in the last segment of the value. -/
theorem Ja.fill_last {dsegs : Nat → Nat} {dseg inc : Nat} (k : Nat)
    (hroom : dsegs dseg + inc ≤ 2 ^ 16) :
    Ja.fill (k + 1) dsegs dseg inc =
      some (Function.update dsegs dseg (dsegs dseg + inc)) := by
  have hmod : (dsegs dseg + inc) % 2 ^ 32 = dsegs dseg + inc := Nat.mod_eq_of_lt (by omega)
  rw [Ja.fill, hmod, if_neg (not_lt.mpr hroom)]

/-- The loop that adds a value's units, from the start of a run. -/
theorem Ja.fill_run {inc k dseg : Nat} {dsegs : Nat → Nat} (hpos : 0 < inc) (hlt : inc < 2 ^ 31)
    (hfuel : inc ≤ k * 2 ^ 16)
    (hroom : ∀ s, overlap (2 ^ 16) (dseg * 2 ^ 16) inc s ≠ 0 →
      dsegs s + overlap (2 ^ 16) (dseg * 2 ^ 16) inc s ≤ 2 ^ 16) :
    ∃ dsegs', Ja.fill k dsegs dseg inc = some dsegs' ∧
      ∀ s, dsegs' s = dsegs s + overlap (2 ^ 16) (dseg * 2 ^ 16) inc s := by
  induction k generalizing dsegs dseg inc with
  | zero => omega
  | succ k ih =>
      have hhere := hroom dseg
      by_cases hlast : inc ≤ 2 ^ 16
      · have hover : ∀ s, overlap (2 ^ 16) (dseg * 2 ^ 16) inc s = if s = dseg then inc else 0 := by
          intro s
          have h := overlap_inside (M := 2 ^ 16) (s := s) (k := dseg) (o := 0) (n := inc) (by omega)
          rwa [Nat.add_zero] at h
        rw [hover, if_pos rfl] at hhere
        refine ⟨_, Ja.fill_last k (hhere hpos.ne'), fun s => ?_⟩
        rw [hover]
        by_cases hs : s = dseg
        · rw [hs, Function.update_self, if_pos rfl]
        · rw [Function.update_of_ne hs, if_neg hs, Nat.add_zero]
      · obtain ⟨rest, rfl⟩ := Nat.exists_eq_add_of_lt (not_le.mp hlast)
        have hinc : 2 ^ 16 + rest + 1 = 2 ^ 16 + (rest + 1) := rfl
        rw [hinc] at hroom hhere ⊢
        simp only [overlap_whole] at hroom hhere ⊢
        have hempty : dsegs dseg = 0 := by
          have := hhere (by simp)
          simp only [if_true] at this
          omega
        have hrest := @ih (rest + 1) (dseg + 1) (Function.update dsegs dseg (2 ^ 16))
          (by omega) (by omega) (by omega) (by
            intro s hs
            have hne : s ≠ dseg := by
              rintro rfl
              exact hs (overlap_before (Nat.lt_succ_self _))
            rw [Function.update_of_ne hne]
            have := hroom s
            rw [if_neg hne] at this
            exact this hs)
        obtain ⟨dsegs', hfill, hsum⟩ := hrest
        refine ⟨dsegs', ?_, fun s => ?_⟩
        · have hsub : u32Sub (2 ^ 16 + (rest + 1)) (u32Sub (2 ^ 16) 0) = rest + 1 := by
            rw [u32Sub_of_le (Nat.zero_le _) (by decide), u32Sub_of_le (by omega) (by omega)]
            omega
          rw [Ja.fill, hempty, Nat.zero_add, Nat.mod_eq_of_lt (by omega), if_pos (by omega), hsub]
          exact hfill
        · rw [hsum]
          by_cases hs : s = dseg
          · rw [hs, Function.update_self, if_pos rfl, hempty, overlap_before (Nat.lt_succ_self _),
              Nat.add_zero, Nat.zero_add]
          · rw [Function.update_of_ne hs, if_neg hs]

/-- The same for an extent of any shape. -/
theorem Ja.fill_spec {p n : Nat} {dsegs : Nat → Nat} (h : Shaped p n)
    (hroom : ∀ s, overlap (2 ^ 16) p n s ≠ 0 → dsegs s + overlap (2 ^ 16) p n s ≤ 2 ^ 16) :
    ∃ dsegs', Ja.fill (maxDsegs - p / 2 ^ 16) dsegs (p / 2 ^ 16) n = some dsegs' ∧
      ∀ s, dsegs' s = dsegs s + overlap (2 ^ 16) p n s := by
  have hpos := h.pos
  have hle := h.le
  have hp : p / 2 ^ 16 * 2 ^ 16 + p % 2 ^ 16 = p := Nat.div_add_mod' p _
  rcases h.shape with hstart | hinside
  · rw [hstart, Nat.add_zero] at hp
    rw [← hp] at hroom
    obtain ⟨dsegs', hfill, hsum⟩ := Ja.fill_run (k := maxDsegs - p / 2 ^ 16) hpos h.lt
      (by unfold maxDsegs; omega) hroom
    rw [hp] at hsum
    exact ⟨dsegs', hfill, hsum⟩
  · have hover : ∀ s, overlap (2 ^ 16) p n s = if s = p / 2 ^ 16 then n else 0 := by
      intro s
      rw [← overlap_inside (s := s) (k := p / 2 ^ 16) hinside, hp]
    have hhere := hroom (p / 2 ^ 16)
    rw [hover, if_pos rfl] at hhere
    obtain ⟨k, hk⟩ : ∃ k, maxDsegs - p / 2 ^ 16 = k + 1 :=
      ⟨maxDsegs - p / 2 ^ 16 - 1, by unfold maxDsegs; omega⟩
    rw [hk]
    refine ⟨_, Ja.fill_last k (hhere hpos.ne'), fun s => ?_⟩
    rw [hover]
    by_cases hs : s = p / 2 ^ 16
    · rw [hs, Function.update_self, if_pos rfl]
    · rw [Function.update_of_ne hs, if_neg hs, Nat.add_zero]

/-- The loop that takes a value's units away, with the subtraction after it. -/
theorem Ja.releaseWhole_spec {dec k dseg : Nat} {dsegs : Nat → Nat} (hpos : 0 < dec)
    (hfuel : dec ≤ k * 2 ^ 16)
    (hroom : ∀ s, overlap (2 ^ 16) (dseg * 2 ^ 16) dec s ≠ 0 →
      overlap (2 ^ 16) (dseg * 2 ^ 16) dec s ≤ dsegs s ∧ dsegs s ≤ 2 ^ 16) :
    ∃ dsegs' last d, Ja.releaseWhole k dsegs dseg dec = some (dsegs', last, d) ∧ 0 < d ∧
      d ≤ 2 ^ 16 ∧ dseg ≤ last ∧ last * 2 ^ 16 + d = dseg * 2 ^ 16 + dec ∧
      ∀ s, Function.update dsegs' last (u32Sub (dsegs' last) d) s =
        dsegs s - overlap (2 ^ 16) (dseg * 2 ^ 16) dec s := by
  induction k generalizing dsegs dseg dec with
  | zero => omega
  | succ k ih =>
      have hhere := hroom dseg
      by_cases hlast : dec ≤ 2 ^ 16
      · have hover : ∀ s, overlap (2 ^ 16) (dseg * 2 ^ 16) dec s = if s = dseg then dec else 0 := by
          intro s
          have h := overlap_inside (M := 2 ^ 16) (s := s) (k := dseg) (o := 0) (n := dec) (by omega)
          rwa [Nat.add_zero] at h
        rw [hover, if_pos rfl] at hhere
        obtain ⟨hle, hmax⟩ := hhere hpos.ne'
        refine ⟨dsegs, dseg, dec, ?_, hpos, hlast, le_rfl, by omega, fun s => ?_⟩
        · rw [Ja.releaseWhole, if_neg (not_lt.mpr hlast)]
        · rw [hover]
          by_cases hs : s = dseg
          · rw [hs, Function.update_self, if_pos rfl, u32Sub_of_le hle (by omega)]
          · rw [Function.update_of_ne hs, if_neg hs, Nat.sub_zero]
      · obtain ⟨rest, rfl⟩ := Nat.exists_eq_add_of_lt (not_le.mp hlast)
        have hdec : 2 ^ 16 + rest + 1 = 2 ^ 16 + (rest + 1) := rfl
        rw [hdec] at hroom hhere ⊢
        simp only [overlap_whole] at hroom hhere ⊢
        obtain ⟨dsegs', last, d, hrun, hd, hdle, hlast', hend, hsum⟩ := @ih
          (rest + 1) (dseg + 1) (Function.update dsegs dseg 0)
          (by omega) (by omega) (by
            intro s hs
            have hne : s ≠ dseg := by
              rintro rfl
              exact hs (overlap_before (Nat.lt_succ_self _))
            rw [Function.update_of_ne hne]
            have := hroom s
            rw [if_neg hne] at this
            exact this hs)
        have hend' : last * 2 ^ 16 + d = dseg * 2 ^ 16 + (2 ^ 16 + (rest + 1)) := by
          rw [hend, Nat.succ_mul, Nat.add_assoc]
        refine ⟨dsegs', last, d, ?_, hd, hdle, Nat.le_of_succ_le hlast', hend', fun s => ?_⟩
        · have hsub : 2 ^ 16 + (rest + 1) - 2 ^ 16 = rest + 1 := by omega
          rw [Ja.releaseWhole, if_pos (by omega), hsub]
          exact hrun
        · rw [hsum]
          by_cases hs : s = dseg
          · have := hhere (by simp)
            simp only [if_true] at this
            rw [hs, Function.update_self, if_pos rfl, overlap_before (Nat.lt_succ_self _)]
            omega
          · rw [Function.update_of_ne hs, if_neg hs]

/-- **Releasing a value** takes its units away from each segment, and changes no byte
outside of it. -/
theorem Ja.release_spec {ja : Ja} {oe : Einfo} (h : Shaped oe.pos (unitsOf oe.size))
    (hroom : ∀ s, overlap (2 ^ 16) oe.pos (unitsOf oe.size) s ≠ 0 →
      overlap (2 ^ 16) oe.pos (unitsOf oe.size) s ≤ ja.dsegs s ∧ ja.dsegs s ≤ 2 ^ 16) :
    ∃ ja', ja.release oe = some ja' ∧ ja'.esegs = ja.esegs ∧ ja'.currPos = ja.currPos ∧
      (∀ s, ja'.dsegs s = ja.dsegs s - overlap (2 ^ 16) oe.pos (unitsOf oe.size) s) ∧
      ∀ i, ¬ (oe.pos ≤ i / 16 ∧ i / 16 < oe.pos + unitsOf oe.size) → ja'.mem i = ja.mem i := by
  have hpos := h.pos
  have hle := h.le
  have hp : oe.pos / 2 ^ 16 * 2 ^ 16 + oe.pos % 2 ^ 16 = oe.pos := Nat.div_add_mod' _ _
  have hhere := hroom (oe.pos / 2 ^ 16)
  by_cases hinside : oe.pos % 2 ^ 16 + unitsOf oe.size ≤ 2 ^ 16
  · have hover : ∀ s, overlap (2 ^ 16) oe.pos (unitsOf oe.size) s =
        if s = oe.pos / 2 ^ 16 then unitsOf oe.size else 0 := by
      intro s
      rw [← overlap_inside (s := s) (k := oe.pos / 2 ^ 16) hinside, hp]
    rw [hover, if_pos rfl] at hhere
    obtain ⟨hsub, hmax⟩ := hhere hpos.ne'
    refine ⟨{ ja with
      dsegs := Function.update ja.dsegs (oe.pos / 2 ^ 16)
        (u32Sub (ja.dsegs (oe.pos / 2 ^ 16)) (unitsOf oe.size)) }, ?_, rfl, rfl, fun s => ?_,
      fun _ _ => rfl⟩
    · rw [Ja.release, if_neg (not_lt.mpr hinside)]
    · show Function.update ja.dsegs _ _ s = _
      rw [hover]
      by_cases hs : s = oe.pos / 2 ^ 16
      · rw [hs, if_pos rfl, Function.update_self, u32Sub_of_le hsub (by omega)]
      · rw [if_neg hs, Nat.sub_zero, Function.update_of_ne hs]
  · have hstart : oe.pos % 2 ^ 16 = 0 := h.shape.resolve_right hinside
    rw [hstart, Nat.add_zero] at hp
    obtain ⟨rest, hrest⟩ : ∃ rest, unitsOf oe.size = 2 ^ 16 + (rest + 1) :=
      ⟨unitsOf oe.size - 2 ^ 16 - 1, by omega⟩
    have hover : ∀ s, overlap (2 ^ 16) oe.pos (unitsOf oe.size) s =
        if s = oe.pos / 2 ^ 16 then 2 ^ 16
        else overlap (2 ^ 16) ((oe.pos / 2 ^ 16 + 1) * 2 ^ 16) (rest + 1) s := by
      intro s
      rw [← overlap_whole, hp, hrest]
    simp only [hover] at hroom hhere ⊢
    simp only [if_true] at hhere
    obtain ⟨hsub, hmax⟩ := hhere (by decide)
    obtain ⟨dsegs', last, d, hrun, hd, hdle, hlast, hend, hsum⟩ :=
      @Ja.releaseWhole_spec (rest + 1) (maxDsegs - (oe.pos / 2 ^ 16 + 1)) (oe.pos / 2 ^ 16 + 1)
        (Function.update ja.dsegs (oe.pos / 2 ^ 16)
          (u32Sub (ja.dsegs (oe.pos / 2 ^ 16)) (2 ^ 16 - 0)))
        (by omega) (by unfold maxDsegs; omega) (by
          intro s hs
          have hne : s ≠ oe.pos / 2 ^ 16 := by
            rintro rfl
            exact hs (overlap_before (Nat.lt_succ_self _))
          rw [Function.update_of_ne hne]
          have := hroom s
          rw [if_neg hne] at this
          exact this hs)
    refine ⟨{ ja with
      dsegs := Function.update dsegs' last (u32Sub (dsegs' last) d)
      mem := ja.mem.write (segAddr last 0) (ehead (d * 16 - 8) 0) }, ?_, rfl, rfl, fun s => ?_, ?_⟩
    · have hwhole : unitsOf oe.size - (2 ^ 16 - 0) = rest + 1 := by omega
      rw [Ja.release, if_pos (by omega), hstart, hwhole, hrun]
      rfl
    · show Function.update dsegs' last _ s = _
      rw [hsum]
      by_cases hs : s = oe.pos / 2 ^ 16
      · rw [hs, Function.update_self, if_pos rfl, overlap_before (Nat.lt_succ_self _),
          u32Sub_of_le (by omega) (by omega)]
        omega
      · rw [Function.update_of_ne hs, if_neg hs]
    · intro i hi
      apply Memory.write_of_not_mem
      simp only [segAddr, ehead, List.length_append, length_le32]
      omega

/-- The segments of an extent are segments of the file. -/
theorem Shaped.div_lt {p n u : Nat} (h : Shaped p n) (hlt : u < p + n) : u / 2 ^ 16 < maxDsegs := by
  have := h.le
  unfold maxDsegs
  omega

namespace Balanced

variable {dsegs dsegs' : Nat → Nat} {U : Set Nat} {p n : Nat}

/-- A segment an extent has units in, with one of them. -/
theorem exists_unit {s : Nat} (h : overlap (2 ^ 16) p n s ≠ 0) :
    ∃ u, p ≤ u ∧ u < p + n ∧ u / 2 ^ 16 = s := by
  obtain ⟨u, hle, hlt, hlo, hhi⟩ := exists_mem_of_overlap h
  exact ⟨u, hle, hlt, by omega⟩

/-- There is room for units that are not taken, outside of the table. -/
theorem room (h : Balanced dsegs U) (hshape : Shaped p n) (hdisj : Disjoint U (Set.Ico p (p + n)))
    (hdata : ∀ u, p ≤ u → u < p + n → dsegs (u / 2 ^ 16) ≠ segEseg) {s : Nat}
    (hs : overlap (2 ^ 16) p n s ≠ 0) : dsegs s + overlap (2 ^ 16) p n s ≤ 2 ^ 16 := by
  obtain ⟨u, hle, hlt, rfl⟩ := exists_unit hs
  rw [h.count _ (hshape.div_lt hlt) (hdata u hle hlt), ← usage_Ico, ← usage_union hdisj]
  exact usage_le

/-- Counting the units of a new value keeps the balance. -/
theorem union (h : Balanced dsegs U) (hshape : Shaped p n) (hdisj : Disjoint U (Set.Ico p (p + n)))
    (hdata : ∀ u, p ≤ u → u < p + n → dsegs (u / 2 ^ 16) ≠ segEseg)
    (hsum : ∀ s, dsegs' s = dsegs s + overlap (2 ^ 16) p n s) :
    Balanced dsegs' (U ∪ Set.Ico p (p + n)) ∧ ∀ s, dsegs' s = segEseg ↔ dsegs s = segEseg := by
  have heseg : ∀ s, dsegs' s = segEseg ↔ dsegs s = segEseg := by
    intro s
    rw [hsum]
    by_cases hs : overlap (2 ^ 16) p n s = 0
    · rw [hs, Nat.add_zero]
    · have hroom := h.room hshape hdisj hdata hs
      obtain ⟨u, hle, hlt, rfl⟩ := exists_unit hs
      have hne := hdata u hle hlt
      refine ⟨fun heq => ?_, fun heq => absurd heq hne⟩
      rw [heq] at hroom
      exact absurd hroom (by decide)
  refine ⟨⟨fun u hu => ?_, fun s hs hne => ?_⟩, heseg⟩
  · rw [Ne, heseg]
    rcases hu with hu | ⟨hle, hlt⟩
    · exact h.data u hu
    · exact hdata u hle hlt
  · rw [Ne, heseg] at hne
    rw [hsum, usage_union hdisj, usage_Ico, h.count s hs hne]

/-- The units of a value are counted. -/
theorem counted (h : Balanced dsegs U) (hshape : Shaped p n) (hsub : Set.Ico p (p + n) ⊆ U)
    {s : Nat} (hs : overlap (2 ^ 16) p n s ≠ 0) :
    overlap (2 ^ 16) p n s ≤ dsegs s ∧ dsegs s ≤ 2 ^ 16 := by
  obtain ⟨u, hle, hlt, rfl⟩ := exists_unit hs
  rw [h.count _ (hshape.div_lt hlt) (h.data u (hsub ⟨hle, hlt⟩)), ← usage_Ico]
  exact ⟨usage_mono hsub, usage_le⟩

/-- Taking away the units of a value keeps the balance. -/
theorem diff (h : Balanced dsegs U) (hshape : Shaped p n) (hsub : Set.Ico p (p + n) ⊆ U)
    (hsum : ∀ s, dsegs' s = dsegs s - overlap (2 ^ 16) p n s) :
    Balanced dsegs' (U \ Set.Ico p (p + n)) ∧ ∀ s, dsegs' s = segEseg ↔ dsegs s = segEseg := by
  have heseg : ∀ s, dsegs' s = segEseg ↔ dsegs s = segEseg := by
    intro s
    rw [hsum]
    by_cases hs : overlap (2 ^ 16) p n s = 0
    · rw [hs, Nat.sub_zero]
    · obtain ⟨-, hmax⟩ := h.counted hshape hsub hs
      unfold segEseg
      omega
  refine ⟨⟨fun u hu => ?_, fun s hs hne => ?_⟩, heseg⟩
  · rw [Ne, heseg]
    exact h.data u hu.1
  · rw [Ne, heseg] at hne
    rw [hsum, usage_diff hsub, usage_Ico, h.count s hs hne]

end Balanced

/-- What the table says of an id: nothing while its segment is not assigned. -/
def Ja.einfo (ja : Ja) (id : Nat) : Einfo :=
  if ja.esegs (id / 2 ^ 17) = segNotAssigned then ⟨0, 0⟩ else loadEinfo ja.mem (ja.epAddr id)

/-- The array holds the values `vals`, and the units `N` are taken as well. -/
structure Ja.Holds (ja : Ja) (vals : Nat → List UInt8) (N : Set Nat) : Prop where
  eseg : ∀ l, ja.esegs l ≠ segNotAssigned → ja.dsegs (ja.esegs l) = segEseg
  esegInj : ∀ l l', ja.esegs l ≠ segNotAssigned → ja.esegs l = ja.esegs l' → l = l'
  size : ∀ id < 2 ^ 28, (ja.einfo id).size = (vals id).length
  bytes : ∀ id < 2 ^ 28, vals id ≠ [] → ja.mem.read (16 * (ja.einfo id).pos)
    (8 + (vals id).length) = ehead (vals id).length id ++ vals id
  shaped : ∀ id < 2 ^ 28, vals id ≠ [] → Shaped (ja.einfo id).pos (unitsOf (vals id).length)
  disjoint : ∀ id < 2 ^ 28, ∀ id' < 2 ^ 28, id ≠ id' →
    Disjoint (extent (ja.einfo id)) (extent (ja.einfo id'))
  fresh : Disjoint (used ja.einfo) N
  balanced : Balanced ja.dsegs (used ja.einfo ∪ N)
  behind : ja.currPos ≠ 0 → ja.currPos < 2 ^ 32 ∧
    ∀ u ∈ used ja.einfo ∪ N, u / 2 ^ 16 = ja.currPos / 2 ^ 16 → u < ja.currPos

/-- The condition on a put: the id is one of the table's; a table segment that has to be
assigned is clean; and the value is not continued in a segment of the table. -/
structure Ja.Safe (ja : Ja) (id : Nat) (value : List UInt8) : Prop where
  id_lt : id < 2 ^ 28
  clean : ja.esegs (id / 2 ^ 17) = segNotAssigned → ∀ s, Ja.firstFree ja.dsegs maxDsegs 0 = some s →
    ∀ i < 2 ^ 17, (loadEinfo ja.mem (segAddr s (i * 8))).size = 0
  apart : value ≠ [] → ja.fits value.length = true → ja.dsegs (ja.currPos / 2 ^ 16) ≠ segEseg ∧
    (ja.esegs (id / 2 ^ 17) = segNotAssigned →
      Ja.firstFree ja.dsegs maxDsegs 0 ≠ some (ja.currPos / 2 ^ 16))

end Senna.Store
