/-
# Where a new record is placed

`buffer_new` looks for a buffer segment that can take a record of a given size. It tries the
logical segments `seg0`, `seg0 + nseg0`, … below `segmax` first, which grows with the size of all
chunks, then the first `nseg0` ones, then the rest, and takes a new segment where it finds a
logical segment that is not assigned.

Reading `binfo` behind its end is undefined in the source and `none` here. Mapping a segment
is taken to succeed. What a shift of a word by its width or more gives is left open (`shr`).
-/

import Senna.Inv.Record

namespace Senna.Inv

/-- `SEN_INV_MAX_SEGMENT`. -/
def senInvMaxSegment : Nat := 0x4000

/-- `SEN_INV_SEGMENT_SIZE`. -/
def senInvSegmentSize : Nat := 0x40000

/-- `SEG_NOT_ASSIGNED`. -/
def segNotAssigned : Nat := 0xffff

/-- `sizeof(buffer_header)`. -/
def sizeofBufferHeader : Nat := 16

/-- `sizeof(buffer_term)`. -/
def sizeofBufferTerm : Nat := 16

/-- `sen_inv_header` with the buffers in the physical segments. -/
structure SegTable where
  initialNSegments : Nat
  totalChunkSize : Nat
  bmax : Nat
  ainfo : Nat → Nat
  binfo : Nat → Nat
  buffers : Nat → Buffer

/-- A segment after `memset`, as `buffer_new` sets it up. -/
def Buffer.fresh : Buffer := ⟨none, 0, senInvSegmentSize - sizeofBufferHeader, 0, [], []⟩

namespace SegTable

variable (shr : Nat → Nat → Nat) (t : SegTable) (size : Nat)

/-- Whether a physical segment is in use. -/
def usedSeg (pseg : Nat) : Prop := ∃ i < senInvMaxSegment, t.ainfo i = pseg ∨ t.binfo i = pseg

instance (pseg : Nat) : Decidable (t.usedSeg pseg) :=
  inferInstanceAs (Decidable (∃ i < senInvMaxSegment, t.ainfo i = pseg ∨ t.binfo i = pseg))

/-- The first number from `i` on, of `n`, that has the property, or the one behind them. -/
def firstFrom (p : Nat → Bool) : Nat → Nat → Nat
  | 0, i => i
  | n + 1, i => if p i then i else firstFrom p n (i + 1)

/-- `segment_get`. -/
def segmentGet : Nat := firstFrom (fun pseg => ¬t.usedSeg pseg) senInvMaxSegment 0

/-- `buffer_segment_new`: the logical and the physical segment. -/
def bufferSegmentNew (segno : Nat) : Option (Nat × Nat × SegTable) :=
  if segno < senInvMaxSegment ∧ t.binfo segno ≠ segNotAssigned then none
  else
    let lseg := if segno < senInvMaxSegment then segno
      else firstFrom (fun lseg => t.binfo lseg = segNotAssigned) senInvMaxSegment 0
    if lseg = senInvMaxSegment then none
    else if t.segmentGet < senInvMaxSegment then
      some (lseg, t.segmentGet, { t with
        binfo := Function.update t.binfo lseg t.segmentGet
        bmax := if t.bmax ≤ lseg then lseg + 1 else t.bmax })
    else none

/-- `total_chunk_size >> ((nterms >> 8) - 6)`. -/
def chunkShare (nterms : Nat) : Nat :=
  let n := nterms / 2 ^ 8 - 6
  if n < 32 then t.totalChunkSize / 2 ^ n else shr t.totalChunkSize n

/-- The test of `buffer_open_if_capable`. -/
def capable (b : Buffer) : Bool :=
  let nterms := b.terms.length - b.ntermsVoid
  (nterms < 4096 ∨ b.chunkSize < t.chunkShare shr nterms) ∧ size + sizeofBufferTerm ≤ b.bufferFree

/-- How a loop of `buffer_new` ends: a capable segment, a segment that is not assigned, or `seg`
out of its range. -/
inductive Probe
  | capable (seg : Nat)
  | free (seg : Nat)
  | past (seg : Nat)
  deriving DecidableEq, Repr

/-- The three loops of `buffer_new`, with their test and their step. -/
def probe (inRange : Nat → Bool) (next : Nat → Nat) : Nat → Nat → Option Probe
  | 0, _ => none
  | n + 1, seg =>
      if inRange seg = false then some (.past seg)
      else if senInvMaxSegment ≤ seg then none
      else if t.binfo seg = segNotAssigned then some (.free seg)
      else if t.capable shr size (t.buffers (t.binfo seg)) then some (.capable seg)
      else probe inRange next n (next seg)

/-- `segmax`. -/
def segmax : Nat := (t.totalChunkSize / 2 ^ 7 % 2 ^ 16 + t.initialNSegments) % 2 ^ 16

/-- The rounds that the loops get. -/
def probeFuel : Nat := senInvMaxSegment + 1

/-- The search of `buffer_new` for a segment. -/
def findSeg (hint : Nat) : Option Probe :=
  let nseg0 := t.initialNSegments
  let seg0 := hint % nseg0
  (t.probe shr size (fun seg => seg < t.segmax) (fun seg => (seg + nseg0) % 2 ^ 16) probeFuel
    seg0).bind fun
  | .past _ =>
      (t.probe shr size (fun seg => seg ≠ seg0) (fun seg => (seg + 1) % nseg0) probeFuel
        ((seg0 + 1) % nseg0)).bind fun
      | .past _ =>
          t.probe shr size (fun seg => seg < senInvMaxSegment) (· + 1) probeFuel nseg0
      | p => some p
  | p => some p

/-- What `buffer_new` returns: the segments, the slot of the term, and the place of the record in
the segment in bytes. -/
structure Placed where
  pseg : Nat
  pos : Nat
  offset : Nat
  br : Nat
  deriving DecidableEq, Repr

/-- The code behind the label `exit`: a slot for the term and room for the record in the buffer
of the logical segment `seg`. -/
def place (seg pseg : Nat) : Placed × SegTable :=
  let b := t.buffers pseg
  let void : BufferTerm := ⟨0, 0, 0, 0, 0⟩
  let offset := firstFrom (fun i => (b.terms.getD i void).tid = 0) b.terms.length 0
  let fresh := { b with
    ntermsVoid := 0
    terms := b.terms ++ [void]
    bufferFree := b.bufferFree - (size + sizeofBufferTerm) }
  let (offset, b) :=
    if b.ntermsVoid ≠ 0 then
      if offset = b.terms.length then (offset, fresh)
      else (offset, { b with ntermsVoid := b.ntermsVoid - 1, bufferFree := b.bufferFree - size })
    else (b.terms.length, fresh)
  (⟨pseg, seg * senInvSegmentSize + sizeofBufferHeader + sizeofBufferTerm * offset, offset,
    sizeofBufferHeader + sizeofBufferTerm * b.terms.length + b.bufferFree⟩,
    { t with buffers := Function.update t.buffers pseg b })

/-- `buffer_new`; the inner `none` is `SEG_NOT_ASSIGNED`. -/
def bufferNew (hint : Nat) : Option (Option (Placed × SegTable)) :=
  if senInvSegmentSize < size + sizeofBufferHeader + sizeofBufferTerm then some none
  else (t.findSeg shr size hint).map fun
    | .capable seg => some (t.place size seg (t.binfo seg))
    | .free seg | .past seg => (t.bufferSegmentNew seg).map fun (lseg, pseg, t) =>
        { t with buffers := Function.update t.buffers pseg .fresh }.place size lseg pseg

variable {shr t size} {inRange : Nat → Bool} {next : Nat → Nat} {n seg hint : Nat} {p : Probe}

/-- Whether the search stops at a logical segment. -/
def stops (shr : Nat → Nat → Nat) (t : SegTable) (size seg : Nat) : Prop :=
  t.binfo seg = segNotAssigned ∨ t.capable shr size (t.buffers (t.binfo seg))

theorem firstFrom_spec (p : Nat → Bool) (n i : Nat) :
    firstFrom p n i < i + n ∧ p (firstFrom p n i) ∨
      firstFrom p n i = i + n ∧ ∀ j, i ≤ j → j < i + n → p j = false := by
  induction n generalizing i with
  | zero =>
      right
      refine ⟨rfl, fun j hle hlt => ?_⟩
      omega
  | succ n ih =>
      rw [firstFrom]
      split_ifs with hp
      · left
        exact ⟨by omega, hp⟩
      · rcases ih (i + 1) with ⟨hlt, hfound⟩ | ⟨heq, hnone⟩
        · left
          exact ⟨by omega, hfound⟩
        · right
          refine ⟨by omega, fun j hle hlt => ?_⟩
          by_cases hj : j = i
          · rw [hj]
            exact Bool.eq_false_iff.mpr hp
          · exact hnone j (by omega) (by omega)

/-- What the end of a loop says about the segment. -/
def Probe.Ends (t : SegTable) (inRange : Nat → Bool) : Probe → Prop
  | .capable seg => seg < senInvMaxSegment ∧ t.binfo seg ≠ segNotAssigned
  | .free seg => seg < senInvMaxSegment ∧ t.binfo seg = segNotAssigned
  | .past seg => inRange seg = false

theorem probe_ends (h : t.probe shr size inRange next n seg = some p) : p.Ends t inRange := by
  induction n generalizing seg with
  | zero => exact absurd h nofun
  | succ n ih =>
      rw [probe] at h
      split_ifs at h with hrange hmax hfree hcapable
      · obtain rfl := Option.some.inj h
        exact hrange
      · obtain rfl := Option.some.inj h
        exact ⟨not_le.mp hmax, hfree⟩
      · obtain rfl := Option.some.inj h
        exact ⟨not_le.mp hmax, hfree⟩
      · exact ih h

/-- A loop ends that leaves its range before it comes to the end of the table. -/
theorem probe_isSome {j : Nat} (hj : j < n) (hbefore : ∀ i < j, next^[i] seg < senInvMaxSegment)
    (hpast : inRange (next^[j] seg) = false) :
    (t.probe shr size inRange next n seg).isSome := by
  induction n generalizing seg j with
  | zero => exact absurd hj (Nat.not_lt_zero _)
  | succ n ih =>
      rw [probe]
      cases j with
      | zero =>
          have hrange : inRange seg = false := hpast
          rw [if_pos hrange]
          rfl
      | succ j =>
          have hmax : ¬senInvMaxSegment ≤ seg := not_le.mpr (hbefore 0 (Nat.succ_pos j))
          rw [if_neg hmax]
          split_ifs
          · rfl
          · rfl
          · rfl
          · apply ih (Nat.lt_of_succ_lt_succ hj)
            · intro i hi
              exact hbefore (i + 1) (Nat.succ_lt_succ hi)
            · exact hpast

/-- The first loop ends exactly if it is stopped by a segment of the table before it comes to
its end, or by `segmax`. -/
theorem probe_first_isSome_iff {nseg0 : Nat} (hpos : 0 < nseg0) (hle : nseg0 ≤ senInvMaxSegment)
    (hn : senInvMaxSegment < n + min seg senInvMaxSegment) (hseg : seg < 2 ^ 15) :
    (t.probe shr size (fun seg => seg < t.segmax) (fun seg => (seg + nseg0) % 2 ^ 16) n
        seg).isSome ↔
      ∀ i, i % nseg0 = seg % nseg0 → seg ≤ i → senInvMaxSegment ≤ i → i < t.segmax →
        ∃ i' < senInvMaxSegment, seg ≤ i' ∧ i' % nseg0 = seg % nseg0 ∧ t.stops shr size i' := by
  have hmax : senInvMaxSegment = 2 ^ 14 := rfl
  induction n generalizing seg with
  | zero => omega
  | succ n ih =>
      rw [probe]
      by_cases hrange : seg < t.segmax
      · rw [if_neg (by simpa using hrange)]
        by_cases hpast : senInvMaxSegment ≤ seg
        · rw [if_pos hpast]
          constructor
          · exact nofun
          · intro hstop
            obtain ⟨i', hlt, hge, -⟩ := hstop seg rfl le_rfl hpast hrange
            omega
        · rw [if_neg hpast]
          by_cases hstops : t.stops shr size seg
          · have hsome : (if t.binfo seg = segNotAssigned then some (Probe.free seg)
                else if t.capable shr size (t.buffers (t.binfo seg)) then some (.capable seg)
                else t.probe shr size (fun seg => seg < t.segmax)
                  (fun seg => (seg + nseg0) % 2 ^ 16) n ((seg + nseg0) % 2 ^ 16)).isSome := by
              rcases hstops with hfree | hcapable
              · rw [if_pos hfree]
                rfl
              · rw [if_pos hcapable]
                split_ifs <;> rfl
            refine ⟨fun _ i _ _ _ _ => ?_, fun _ => hsome⟩
            exact ⟨seg, not_le.mp hpast, le_rfl, rfl, hstops⟩
          · have hfree : t.binfo seg ≠ segNotAssigned := fun h => hstops (.inl h)
            have hcapable : ¬t.capable shr size (t.buffers (t.binfo seg)) := fun h =>
                hstops (.inr h)
            have hnext : (seg + nseg0) % 2 ^ 16 = seg + nseg0 := Nat.mod_eq_of_lt (by omega)
            have hrest := @ih (seg + nseg0) (by omega) (by omega)
            rw [Nat.add_mod_right] at hrest
            rw [if_neg hfree, if_neg hcapable, hnext]
            refine hrest.trans ?_
            -- the next one of the class is `nseg0` behind
            have hclass : ∀ i, i % nseg0 = seg % nseg0 → seg ≤ i → i = seg ∨ seg + nseg0 ≤ i := by
              intro i hi hle'
              obtain ⟨d, rfl⟩ := Nat.exists_eq_add_of_le hle'
              have hdvd : nseg0 ∣ d := (Nat.modEq_zero_iff_dvd).mp
                (Nat.ModEq.add_left_cancel' seg (by rw [Nat.add_zero]; exact hi))
              obtain ⟨k, rfl⟩ := hdvd
              cases k with
              | zero => exact .inl rfl
              | succ k =>
                  right
                  rw [Nat.mul_succ]
                  omega
            constructor
            · intro hstop i hi hge hle' hlt
              have hne : i ≠ seg := by
                rintro rfl
                exact hpast hle'
              obtain ⟨i', hlt', hge', hi', hstops'⟩ :=
                hstop i hi ((hclass i hi hge).resolve_left hne) hle' hlt
              exact ⟨i', hlt', by omega, hi', hstops'⟩
            · intro hstop i hi hge hle' hlt
              obtain ⟨i', hlt', hge', hi', hstops'⟩ := hstop i hi (by omega) hle' hlt
              have hne : i' ≠ seg := by
                rintro rfl
                exact hstops hstops'
              exact ⟨i', hlt', (hclass i' hi' hge').resolve_left hne, hi', hstops'⟩
      · rw [if_pos (by simpa using hrange)]
        refine ⟨fun _ i _ hge _ hlt => ?_, fun _ => rfl⟩
        omega

/-- The second loop goes once around the first `nseg0` segments. -/
theorem probe_second_isSome (shr : Nat → Nat → Nat) (t : SegTable) (size : Nat) {nseg0 seg0 : Nat}
    (hle : nseg0 ≤ senInvMaxSegment)
    (hseg0 : seg0 < nseg0) :
    (t.probe shr size (fun seg => seg ≠ seg0) (fun seg => (seg + 1) % nseg0) probeFuel
      ((seg0 + 1) % nseg0)).isSome := by
  have hiter : ∀ i, (fun seg => (seg + 1) % nseg0)^[i] ((seg0 + 1) % nseg0) =
      (seg0 + 1 + i) % nseg0 := by
    intro i
    induction i with
    | zero => rfl
    | succ i ih => rw [Function.iterate_succ_apply', ih, Nat.mod_add_mod, Nat.add_assoc _ i 1]
  have hlt : nseg0 - 1 < probeFuel := by
    unfold probeFuel
    omega
  apply probe_isSome hlt
  · intro i _
    rw [hiter]
    exact lt_of_lt_of_le (Nat.mod_lt _ (by omega)) hle
  · have hturn : seg0 + 1 + (nseg0 - 1) = seg0 + nseg0 := by omega
    rw [hiter, hturn, Nat.add_mod_right, Nat.mod_eq_of_lt hseg0]
    exact decide_eq_false (not_not.mpr rfl)

/-- The third loop goes through the rest of the table. -/
theorem probe_third_isSome {nseg0 : Nat} (hle : nseg0 ≤ senInvMaxSegment) :
    (t.probe shr size (fun seg => seg < senInvMaxSegment) (· + 1) probeFuel nseg0).isSome := by
  have hiter : ∀ i, (· + 1)^[i] nseg0 = nseg0 + i := by
    intro i
    induction i with
    | zero => rfl
    | succ i ih => rw [Function.iterate_succ_apply', ih, Nat.add_assoc]
  have hlt : senInvMaxSegment - nseg0 < probeFuel := by
    unfold probeFuel
    omega
  apply probe_isSome hlt
  · intro i hi
    rw [hiter]
    omega
  · rw [hiter]
    exact decide_eq_false (by omega)

/-- The condition: `segmax` does not reach behind the table for the class of `hint`, or a segment
of this class in the table stops the search. -/
def Stays (shr : Nat → Nat → Nat) (t : SegTable) (size hint : Nat) : Prop :=
  ∀ i, i % t.initialNSegments = hint % t.initialNSegments → senInvMaxSegment ≤ i → i < t.segmax →
    ∃ i' < senInvMaxSegment, i' % t.initialNSegments = hint % t.initialNSegments ∧
      t.stops shr size i'

/-- The search stays inside of the table exactly under this condition. -/
theorem findSeg_isSome_iff (hpos : 0 < t.initialNSegments)
    (hle : t.initialNSegments ≤ senInvMaxSegment) :
    (t.findSeg shr size hint).isSome ↔ t.Stays shr size hint := by
  have hmax : senInvMaxSegment = 2 ^ 14 := rfl
  have hseg0 : hint % t.initialNSegments < t.initialNSegments := Nat.mod_lt _ hpos
  have hfuel : senInvMaxSegment < probeFuel + min (hint % t.initialNSegments) senInvMaxSegment := by
    unfold probeFuel
    omega
  have hfirst := @probe_first_isSome_iff shr t size probeFuel (hint % t.initialNSegments) _ hpos hle
    hfuel (by omega)
  have hstays : t.Stays shr size hint ↔ (t.probe shr size (fun seg => seg < t.segmax)
      (fun seg => (seg + t.initialNSegments) % 2 ^ 16) probeFuel
      (hint % t.initialNSegments)).isSome := by
    rw [hfirst, Nat.mod_mod]
    constructor
    · intro h i hi _ hge hlt
      obtain ⟨i', hlt', hi', hstops⟩ := h i hi hge hlt
      exact ⟨i', hlt', hi' ▸ Nat.mod_le i' _, hi', hstops⟩
    · intro h i hi hge hlt
      obtain ⟨i', hlt', -, hi', hstops⟩ := h i hi (hi ▸ Nat.mod_le i _) hge hlt
      exact ⟨i', hlt', hi', hstops⟩
  rw [hstays]
  unfold findSeg
  constructor
  · intro h
    obtain ⟨p, hp⟩ := Option.isSome_iff_exists.mp h
    obtain ⟨q, hq, -⟩ := Option.bind_eq_some_iff.mp hp
    exact Option.isSome_iff_exists.mpr ⟨q, hq⟩
  · intro h
    obtain ⟨p, hp⟩ := Option.isSome_iff_exists.mp h
    simp only [hp, Option.bind_some]
    cases p with
    | capable seg => rfl
    | free seg => rfl
    | past seg =>
        obtain ⟨q, hq⟩ := Option.isSome_iff_exists.mp
          (probe_second_isSome shr t size hle hseg0)
        simp only [hq, Option.bind_some]
        cases q with
        | capable seg => rfl
        | free seg => rfl
        | past seg => exact probe_third_isSome hle

/-- A segment that the search finds is in the table, and otherwise it has come to its end. -/
theorem findSeg_ends (h : t.findSeg shr size hint = some p) :
    p.Ends t fun seg => seg < senInvMaxSegment := by
  unfold findSeg at h
  obtain ⟨q, hq, h⟩ := Option.bind_eq_some_iff.mp h
  have hends := probe_ends hq
  cases q with
  | capable seg =>
      obtain rfl := Option.some.inj h
      exact hends
  | free seg =>
      obtain rfl := Option.some.inj h
      exact hends
  | past seg =>
      obtain ⟨q, hq, h⟩ := Option.bind_eq_some_iff.mp h
      have hends := probe_ends hq
      cases q with
      | capable seg =>
          obtain rfl := Option.some.inj h
          exact hends
      | free seg =>
          obtain rfl := Option.some.inj h
          exact hends
      | past seg => exact probe_ends h

/-- A new segment is refused only when none is left. -/
theorem bufferSegmentNew_eq_none (h : t.bufferSegmentNew seg = none)
    (hseg : seg < senInvMaxSegment → t.binfo seg = segNotAssigned) :
    (∀ lseg < senInvMaxSegment, t.binfo lseg ≠ segNotAssigned) ∨
      ∀ pseg < senInvMaxSegment, t.usedSeg pseg := by
  unfold bufferSegmentNew at h
  have hgiven : ¬(seg < senInvMaxSegment ∧ t.binfo seg ≠ segNotAssigned) :=
    fun hgiven => hgiven.2 (hseg hgiven.1)
  rw [if_neg hgiven] at h
  dsimp only at h
  split_ifs at h with hlt hlast hfull hlast hfull
  · omega
  · right
    rcases firstFrom_spec (fun pseg => ¬t.usedSeg pseg) senInvMaxSegment 0 with
      ⟨hfound, -⟩ | ⟨-, hnone⟩
    · rw [Nat.zero_add] at hfound
      exact absurd hfound hfull
    · intro pseg hpseg
      have hused := hnone pseg (Nat.zero_le _) (by omega)
      exact not_not.mp (of_decide_eq_false hused)
  · left
    rcases firstFrom_spec (fun lseg => t.binfo lseg = segNotAssigned) senInvMaxSegment 0 with
      ⟨hfound, -⟩ | ⟨-, hnone⟩
    · omega
    · intro lseg hlseg
      exact of_decide_eq_false (hnone lseg (Nat.zero_le _) (by omega))
  · right
    rcases firstFrom_spec (fun pseg => ¬t.usedSeg pseg) senInvMaxSegment 0 with
      ⟨hfound, -⟩ | ⟨-, hnone⟩
    · rw [Nat.zero_add] at hfound
      exact absurd hfound hfull
    · intro pseg hpseg
      have hused := hnone pseg (Nat.zero_le _) (by omega)
      exact not_not.mp (of_decide_eq_false hused)

/-- **Buffer placement.** The search reads only entries of the table, ends, and gives up only
when the record fits no segment or no logical or physical segment is left, exactly if the
record fits no segment or the first loop is stopped in the table. -/
theorem bufferNew_stays_iff (hpos : 0 < t.initialNSegments)
    (hle : t.initialNSegments ≤ senInvMaxSegment) :
    (∃ placed, t.bufferNew shr size hint = some placed ∧ (placed = none →
      senInvSegmentSize < size + sizeofBufferHeader + sizeofBufferTerm ∨
      (∀ lseg < senInvMaxSegment, t.binfo lseg ≠ segNotAssigned) ∨
      ∀ pseg < senInvMaxSegment, t.usedSeg pseg)) ↔
    senInvSegmentSize < size + sizeofBufferHeader + sizeofBufferTerm ∨ t.Stays shr size hint := by
  unfold bufferNew
  by_cases hlarge : senInvSegmentSize < size + sizeofBufferHeader + sizeofBufferTerm
  · rw [if_pos hlarge]
    exact ⟨fun _ => .inl hlarge, fun _ => ⟨none, rfl, fun _ => .inl hlarge⟩⟩
  · rw [if_neg hlarge, ← findSeg_isSome_iff hpos hle]
    constructor
    · rintro ⟨placed, hplaced, -⟩
      obtain ⟨p, hp, -⟩ := Option.map_eq_some_iff.mp hplaced
      exact .inr (Option.isSome_iff_exists.mpr ⟨p, hp⟩)
    · intro h
      obtain ⟨p, hp⟩ := Option.isSome_iff_exists.mp (h.resolve_left hlarge)
      have hends := findSeg_ends hp
      rw [hp, Option.map_some]
      refine ⟨_, rfl, fun hnone => .inr ?_⟩
      cases p with
      | capable seg => exact absurd hnone nofun
      | free seg =>
          exact bufferSegmentNew_eq_none (Option.map_eq_none_iff.mp hnone) fun _ => hends.2
      | past seg =>
          apply bufferSegmentNew_eq_none (Option.map_eq_none_iff.mp hnone)
          intro hlt
          exact absurd hlt (of_decide_eq_false hends)

/-- An index with 512 initial segments and 2 GB of chunks, whose logical segments 0, 512, … are
assigned and full. -/
def overfull : SegTable where
  initialNSegments := 512
  totalChunkSize := 2 ^ 21
  bmax := 15873
  ainfo := fun _ => segNotAssigned
  binfo := fun seg => if seg % 512 = 0 then seg / 512 else segNotAssigned
  buffers := fun _ => ⟨some 0, 2 ^ 26, 0, 0, [], []⟩

/-- The same, but for the last of these segments, which is not assigned. -/
def lastFree : SegTable :=
  { overfull with
    binfo := fun seg => if seg % 512 = 0 ∧ seg ≠ 15872 then seg / 512 else segNotAssigned }

/-- The search is stopped by this segment. -/
theorem bufferNew_stays_iff_last : ∃ placed, lastFree.bufferNew (fun _ _ => 0) 16 0 = some placed ∧
    (placed = none → senInvSegmentSize < 16 + sizeofBufferHeader + sizeofBufferTerm ∨
      (∀ lseg < senInvMaxSegment, lastFree.binfo lseg ≠ segNotAssigned) ∨
      ∀ pseg < senInvMaxSegment, lastFree.usedSeg pseg) := by
  have hstays : lastFree.Stays (fun _ _ => 0) 16 0 :=
    fun _ _ _ _ => ⟨15872, by decide, rfl, .inl rfl⟩
  exact (bufferNew_stays_iff (by decide) (by decide)).mpr (.inr hstays)

/-- The search goes on behind the table: `segmax` is 16896. -/
theorem bufferNew_overfull : overfull.bufferNew (fun _ _ => 0) 16 0 = none := rfl

end SegTable

end Senna.Inv
