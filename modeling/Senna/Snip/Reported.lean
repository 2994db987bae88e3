/-
# What a search reports

The offsets that `sen_bm_tunedbm` reports are sums of the positive entries of `checks`. In a
text whose first entry that is not zero is positive, the occurrence reported is never empty:
its keyword starts at a positive entry, or is moved back to one.
-/

import Senna.Snip.Exec

namespace Senna.Snip

/-- The sum of the positive ones of the first `n` entries of `checks`. -/
def Text.upTo (t : Text) : Nat → Nat
  | 0 => 0
  | n + 1 => t.upTo n + (t.checks.getD n 0).toNat

/-- What `sen_nstr_open` returns: a negative entry of `checks` has a positive one before it, the
entries are of type `int16_t`, and the text fits into memory. -/
structure Text.Sound (t : Text) : Prop where
  headed : ∀ i, t.checks.getD i 0 < 0 → ∃ j < i, 0 < t.checks.getD j 0
  entry_lt : ∀ i, t.checks.getD i 0 < 2 ^ 15
  norm_lt : t.norm.length < 2 ^ 40
  orig_lt : t.orig.length < 2 ^ 32

/-- A character has one to four bytes. -/
theorem leadWidth_bounds (encoding : SenEncoding) (c : UInt8) :
    1 ≤ leadWidth encoding c ∧ leadWidth encoding c ≤ 4 := by
  unfold leadWidth
  cases encoding <;> dsimp only <;> (try split_ifs) <;> decide

/-- An entry is 0 or the width of a character. -/
theorem fakeChecks_bounds {encoding : SenEncoding} {f : Nat} {s : List UInt8} :
    ∀ c ∈ fakeChecks encoding f s, 0 ≤ c ∧ c ≤ 4 := by
  induction s generalizing f with
  | nil => cases f <;> exact nofun
  | cons b s ih =>
      cases f with
      | zero =>
          have hwidth := leadWidth_bounds encoding b
          exact List.forall_mem_cons.mpr ⟨by omega, ih⟩
      | succ f => exact List.forall_mem_cons.mpr ⟨by decide, ih⟩

/-- Without normalization no entry is negative. -/
theorem senFakenstrOpen_sound {unset encoding : SenEncoding} {str : List UInt8}
    (h : str.length < 2 ^ 32) : (senFakenstrOpen unset encoding str).Sound := by
  have hentry : ∀ i, 0 ≤ (fakeChecks encoding 0 str).getD i 0 ∧
      (fakeChecks encoding 0 str).getD i 0 ≤ 4 := by
    intro i
    rw [List.getD_eq_getElem?_getD]
    cases hget : (fakeChecks encoding 0 str)[i]? with
    | none => decide
    | some c => exact fakeChecks_bounds c (List.mem_of_getElem? hget)
  refine ⟨fun i hneg => absurd (hentry i).1 (not_le.mpr hneg), fun i => ?_, ?_, h⟩
  · exact (hentry i).2.trans_lt (by decide)
  · exact h.trans (by decide)

section

variable {t : Text}

/-- The sums grow with the place. -/
theorem Text.upTo_mono {i j : Nat} (h : i ≤ j) : t.upTo i ≤ t.upTo j := by
  induction j, h using Nat.le_induction with
  | base => exact le_rfl
  | succ j _ ih => exact ih.trans (Nat.le_add_right _ _)

/-- They grow properly across a positive entry. -/
theorem Text.upTo_lt {i j : Nat} (hi : 0 < t.checks.getD i 0) (h : i < j) :
    t.upTo i < t.upTo j := by
  have hstep : t.upTo (i + 1) = t.upTo i + (t.checks.getD i 0).toNat := rfl
  have hmono : t.upTo (i + 1) ≤ t.upTo j := Text.upTo_mono h
  omega

/-- The sums are bounded, since an entry is at most an `int16_t`. -/
theorem Text.Sound.upTo_le (h : t.Sound) (n : Nat) : t.upTo n ≤ n * 2 ^ 15 := by
  induction n with
  | zero => exact le_rfl
  | succ n ih =>
      have := h.entry_lt n
      show t.upTo n + (t.checks.getD n 0).toNat ≤ _
      omega

theorem Text.walk_self (i offset head : Nat) : t.walk i i offset head = (offset, head) := by
  unfold Text.walk
  rw [Nat.sub_self]
  rfl

/-- One entry more on the walk. -/
theorem Text.walk_succ {i j : Nat} (h : i ≤ j) (offset head : Nat) :
    t.walk i (j + 1) offset head =
      if 0 < t.checks.getD j 0 then
        (toSize ((t.walk i j offset head).1 + t.checks.getD j 0), j)
      else t.walk i j offset head := by
  obtain ⟨n, rfl⟩ := Nat.exists_eq_add_of_le h
  unfold Text.walk
  rw [Nat.add_assoc, Nat.add_sub_cancel_left, Nat.add_sub_cancel_left, List.range'_concat,
    List.foldl_append, Nat.one_mul]
  rfl

/-- The walk adds up the positive entries and remembers the last one. -/
theorem Text.walk_spec {i j : Nat} (h : i ≤ j) (offset head : Nat)
    (hlt : offset + t.upTo j < 2 ^ 64) :
    (t.walk i j offset head).1 + t.upTo i = offset + t.upTo j ∧
      (t.upTo i = t.upTo j ∧ (t.walk i j offset head).2 = head ∨
        i ≤ (t.walk i j offset head).2 ∧ (t.walk i j offset head).2 < j ∧
          0 < t.checks.getD (t.walk i j offset head).2 0 ∧
          t.upTo ((t.walk i j offset head).2 + 1) = t.upTo j) := by
  induction j, h using Nat.le_induction with
  | base =>
      rw [Text.walk_self]
      exact ⟨rfl, .inl ⟨rfl, rfl⟩⟩
  | succ j hj ih =>
      have hstep : t.upTo (j + 1) = t.upTo j + (t.checks.getD j 0).toNat := rfl
      obtain ⟨hsum, hhead⟩ := ih (by omega)
      rw [Text.walk_succ hj]
      have hmono := t.upTo_mono hj
      by_cases hpos : 0 < t.checks.getD j 0
      · rw [if_pos hpos]
        refine ⟨?_, .inr ⟨hj, Nat.lt_succ_self j, hpos, rfl⟩⟩
        show toSize _ + _ = _
        unfold toSize
        omega
      · rw [if_neg hpos]
        have hsame : t.upTo (j + 1) = t.upTo j := by omega
        rw [hsame]
        refine ⟨hsum, hhead.imp_right ?_⟩
        rintro ⟨hle, hlt, hrest⟩
        exact ⟨hle, Nat.lt_succ_of_lt hlt, hrest⟩

/-- What `SEN_BM_BM_COMPARE` finds has an entry that is not zero. -/
theorem bmCompare_checks {x : List UInt8} {p f : Nat} (h : bmCompare t x p = some (some f)) :
    t.checks.getD f 0 ≠ 0 := by
  unfold bmCompare at h
  simp only [Option.bind_eq_bind, Option.bind_eq_some_iff] at h
  obtain ⟨b, -, c, -, h⟩ := h
  split_ifs at h
  · simp only [Option.bind_eq_some_iff] at h
    obtain ⟨agree, -, h⟩ := h
    split_ifs at h
    · simp only [Option.bind_eq_some_iff] at h
      obtain ⟨check, hcheck, h⟩ := h
      split_ifs at h with hne
      · obtain rfl := Option.some.inj (Option.some.inj h)
        rw [List.getD_eq_getElem?_getD, hcheck]
        exact hne
      · exact absurd (Option.some.inj h) nofun
    · exact absurd (Option.some.inj h) nofun
  · exact absurd (Option.some.inj h) nofun

/-- So has what the search for a single byte finds, -/
theorem searchByte_checks {c : UInt8} {found f : Nat} (h : searchByte t c found = some (some f)) :
    t.checks.getD f 0 ≠ 0 := by
  unfold searchByte at h
  split_ifs at h
  · cases hidx : (t.norm.drop found).idxOf? c with
    | none =>
        simp only [hidx] at h
        exact absurd (Option.some.inj h) nofun
    | some j =>
        simp only [hidx] at h
        obtain ⟨check, hcheck, h⟩ := Option.map_eq_some_iff.mp h
        split_ifs at h with hne
        obtain rfl := Option.some.inj h
        rw [List.getD_eq_getElem?_getD, hcheck]
        exact hne
  · exact absurd (Option.some.inj h) nofun

/-- what the fast loop of `sen_bm_tunedbm` finds, -/
theorem fastLoop_checks {x : List UInt8} {bmBc : UInt8 → Nat} {shift limit k p f : Nat}
    (h : fastLoop t x bmBc shift limit k p = some (.inl f)) : t.checks.getD f 0 ≠ 0 := by
  induction k generalizing p with
  | zero => exact absurd h nofun
  | succ k ih =>
      unfold fastLoop at h
      split_ifs at h
      · simp only [Option.bind_eq_bind, Option.bind_eq_some_iff] at h
        obtain ⟨⟨p₁, check⟩, -, h⟩ := h
        cases check with
        | true =>
            simp only [if_true, Option.bind_eq_some_iff] at h
            obtain ⟨r, hcmp, h⟩ := h
            cases r with
            | some found =>
                obtain rfl := Sum.inl.inj (Option.some.inj h)
                exact bmCompare_checks hcmp
            | none => exact ih h
        | false => exact ih h
      · exact absurd (Option.some.inj h) nofun

/-- and what its slow loop finds. -/
theorem slowLoop_checks {x : List UInt8} {bmBc : UInt8 → Nat} {shift k p f : Nat}
    (h : slowLoop t x bmBc shift k p = some (some f)) : t.checks.getD f 0 ≠ 0 := by
  induction k generalizing p with
  | zero => exact absurd h nofun
  | succ k ih =>
      unfold slowLoop at h
      split_ifs at h
      · simp only [Option.bind_eq_bind, Option.bind_eq_some_iff] at h
        obtain ⟨b, -, h⟩ := h
        split_ifs at h
        · simp only [Option.bind_eq_some_iff] at h
          obtain ⟨r, hcmp, h⟩ := h
          cases r with
          | some found =>
              obtain rfl := Option.some.inj (Option.some.inj h)
              exact bmCompare_checks hcmp
          | none => exact ih h
        · exact ih h
      · exact absurd (Option.some.inj h) nofun

/-- A search finds no place whose entry is 0. -/
theorem SnipCond.search_checks {cond : SnipCond} {x : List UInt8} {f : Nat}
    (h : cond.search t x = some (some f)) : t.checks.getD f 0 ≠ 0 := by
  unfold SnipCond.search at h
  split at h
  · exact searchByte_checks h
  · dsimp only at h
    split_ifs at h
    · simp only [Option.bind_eq_bind, Option.bind_eq_some_iff] at h
      obtain ⟨r, hfast, h⟩ := h
      cases r with
      | inl found =>
          obtain rfl := Option.some.inj (Option.some.inj h)
          exact fastLoop_checks hfast
      | inr p => exact slowLoop_checks h
    · exact slowLoop_checks h

/-- A blank has at most three bytes. -/
theorem senIsspace_le {encoding : SenEncoding} {s : List UInt8} {i : Nat}
    (h : senIsspace encoding s = some i) : i ≤ 3 := by
  cases s with
  | nil => exact absurd h nofun
  | cons b s =>
      unfold senIsspace at h
      dsimp only at h
      split_ifs at h
      · obtain rfl := Option.some.inj h
        decide
      · obtain ⟨c, -, rfl⟩ := Option.map_eq_some_iff.mp h
        split_ifs <;> decide
      · obtain ⟨c, -, rfl⟩ := Option.map_eq_some_iff.mp h
        split_ifs <;> decide
      · simp only [Option.bind_eq_bind, Option.bind_eq_some_iff] at h
        obtain ⟨c, -, h⟩ := h
        split_ifs at h
        · obtain ⟨c, -, rfl⟩ := Option.map_eq_some_iff.mp h
          split_ifs <;> decide
        · obtain rfl := Option.some.inj h
          decide
      · obtain rfl := Option.some.inj h
        decide

/-- Skipping blanks ends at most two bytes behind the text. -/
theorem skipSpaces_spec {k offset r : Nat} (h : skipSpaces t k offset = some r) :
    offset ≤ r ∧ r ≤ max offset (t.orig.length + 2) := by
  induction k generalizing offset with
  | zero =>
      obtain rfl := Option.some.inj h
      exact ⟨le_rfl, le_max_left _ _⟩
  | succ k ih =>
      unfold skipSpaces at h
      split_ifs at h with hlt
      · simp only [Option.bind_eq_bind, Option.bind_eq_some_iff] at h
        obtain ⟨i, hi, h⟩ := h
        have := senIsspace_le hi
        split_ifs at h
        · obtain rfl := Option.some.inj h
          exact ⟨le_rfl, le_max_left _ _⟩
        · obtain ⟨hge, hle⟩ := ih h
          omega
      · obtain rfl := Option.some.inj h
        exact ⟨le_rfl, le_max_left _ _⟩

/-- Where the search of a condition stands in a text. -/
structure SnipCond.Placed (cond : SnipCond) (t : Text) : Prop where
  le : cond.lastFound ≤ cond.found
  head : cond.lastFound = 0 ∨ 0 < t.checks.getD cond.lastFound 0
  bound : cond.startOffset ≤ t.orig.length + 2 + t.upTo cond.lastFound

/-- The head of an occurrence, and its offset before blanks are skipped. -/
theorem SnipCond.Placed.head_eq {cond : SnipCond} (h : cond.Placed t) (ht : t.Sound) {found : Nat}
    (hle : cond.found ≤ found) (hfound : found ≤ t.norm.length)
    (hcheck : t.checks.getD found 0 ≠ 0) :
    ∃ last offset, last ≤ found ∧ 0 < t.checks.getD last 0 ∧
      t.upTo (last + 1) = t.upTo (found + 1) ∧
      offset + t.upTo cond.lastFound = cond.startOffset + t.upTo last ∧
      (if t.checks.getD found 0 < 0 then
        (toSize ((t.walk cond.lastFound found cond.startOffset cond.foundAlphaHead).1 -
          t.checks.getD (t.walk cond.lastFound found cond.startOffset cond.foundAlphaHead).2 0),
          (t.walk cond.lastFound found cond.startOffset cond.foundAlphaHead).2)
      else ((t.walk cond.lastFound found cond.startOffset cond.foundAlphaHead).1, found)) =
        (offset, last) := by
  have hsmall : t.upTo found < 2 ^ 60 := by
    have := ht.upTo_le found
    have := ht.norm_lt
    omega
  have horig := ht.orig_lt
  have hlastLe : t.upTo cond.lastFound ≤ t.upTo found := Text.upTo_mono (h.le.trans hle)
  have hbound := h.bound
  obtain ⟨hsum, hhead⟩ := Text.walk_spec (t := t) (h.le.trans hle) cond.startOffset
    cond.foundAlphaHead (by omega)
  by_cases hneg : t.checks.getD found 0 < 0
  · rw [if_pos hneg]
    have hlt : t.upTo cond.lastFound < t.upTo found := by
      rcases h.head with hzero | hpos
      · obtain ⟨j, hj, hjpos⟩ := ht.headed found hneg
        have := Text.upTo_lt hjpos hj
        have hmono : t.upTo cond.lastFound ≤ t.upTo j := by
          rw [hzero]
          exact Text.upTo_mono (Nat.zero_le _)
        omega
      · apply Text.upTo_lt hpos
        have := h.le.trans hle
        rcases Nat.lt_or_ge cond.lastFound found with hlt | hge
        · exact hlt
        · rw [show cond.lastFound = found by omega] at hpos
          omega
    obtain ⟨hheadGe, hheadLt, hheadPos, hheadUp⟩ := hhead.resolve_left fun h => by omega
    have hsame : t.upTo (found + 1) = t.upTo found + (t.checks.getD found 0).toNat := rfl
    refine ⟨_, _, hheadLt.le, hheadPos, by omega, ?_, rfl⟩
    have hstep : t.upTo ((t.walk cond.lastFound found cond.startOffset
        cond.foundAlphaHead).2 + 1) = t.upTo _ + (t.checks.getD _ 0).toNat := rfl
    have hheadMono := Text.upTo_mono (t := t) hheadGe
    unfold toSize
    omega
  · rw [if_neg hneg]
    exact ⟨found, _, le_rfl, by omega, rfl, by omega, rfl⟩

/-- What is reported: the head of the occurrence, its offset, and the sum of the checks from the
head on. -/
theorem SnipCond.Placed.report_eq {cond cond' : SnipCond} (h : cond.Placed t) (ht : t.Sound)
    {skip : Bool} {found m shift : Nat} (hle : cond.found ≤ found)
    (hend : found + m ≤ t.norm.length) (hcheck : t.checks.getD found 0 ≠ 0)
    (hreport : cond.report t skip found m shift = some cond') :
    ∃ last offset, last ≤ found ∧ 0 < t.checks.getD last 0 ∧
      t.upTo (last + 1) = t.upTo (found + 1) ∧
      offset + t.upTo cond.lastFound = cond.startOffset + t.upTo last ∧
      cond'.lastFound = last ∧ cond'.found = found + shift ∧
      offset ≤ cond'.startOffset ∧ cond'.startOffset ≤ max offset (t.orig.length + 2) ∧
      (skip = false → cond'.startOffset = offset) ∧
      (skip = true → skipSpaces t (t.orig.length - offset) offset = some cond'.startOffset) ∧
      cond'.endOffset + t.upTo last = cond'.startOffset + t.upTo (found + m) := by
  obtain ⟨last, offset, hlast, hlastPos, hhead, hoffset, hpair⟩ :=
      h.head_eq ht hle (by omega) hcheck
  have hsmall : t.upTo (found + m) < 2 ^ 60 := by
    have := ht.upTo_le (found + m)
    have := ht.norm_lt
    omega
  have horig := ht.orig_lt
  have hlastLe : t.upTo last ≤ t.upTo (found + m) := Text.upTo_mono (by omega)
  have hbound := h.bound
  obtain ⟨offset', hge, hmax, hkeep, hskip, rfl⟩ : ∃ offset', offset ≤ offset' ∧
      offset' ≤ max offset (t.orig.length + 2) ∧ (skip = false → offset' = offset) ∧
      (skip = true → skipSpaces t (t.orig.length - offset) offset = some offset') ∧
      cond' = { cond with
        lastFound := last
        startOffset := offset'
        endOffset := (t.walk last (found + m) offset' 0).1
        found := found + shift
        foundAlphaHead :=
          (t.walk cond.lastFound found cond.startOffset cond.foundAlphaHead).2 } := by
    unfold SnipCond.report at hreport
    simp only [hpair] at hreport
    cases skip with
    | true =>
        rw [if_pos rfl] at hreport
        obtain ⟨offset', hskip, hreport⟩ := Option.bind_eq_some_iff.mp hreport
        obtain ⟨hge, hmax⟩ := skipSpaces_spec hskip
        exact ⟨offset', hge, hmax, nofun, fun _ => hskip, (Option.some.inj hreport).symm⟩
    | false =>
        rw [if_neg Bool.false_ne_true] at hreport
        exact ⟨offset, le_rfl, le_max_left _ _, fun _ => rfl, nofun, (Option.some.inj hreport).symm⟩
  obtain ⟨hsum, -⟩ := Text.walk_spec (t := t) (i := last) (j := found + m) (by omega)
    offset' 0 (by omega)
  exact ⟨last, offset, hlast, hlastPos, hhead, hoffset, rfl, rfl, hge, hmax, hkeep, hskip, hsum⟩

/-- **One report.** The search stands at the head of the occurrence, which is not empty. -/
theorem SnipCond.Placed.report {cond cond' : SnipCond} (h : cond.Placed t) (ht : t.Sound)
    {skip : Bool} {found m shift : Nat} (hle : cond.found ≤ found) (hm : 0 < m)
    (hend : found + m ≤ t.norm.length) (hcheck : t.checks.getD found 0 ≠ 0)
    (hreport : cond.report t skip found m shift = some cond') :
    cond'.Placed t ∧ cond'.startOffset < cond'.endOffset := by
  obtain ⟨last, offset, hlast, hlastPos, -, hoffset, hlastEq, hfoundEq, -, hmax, -, -, hsum⟩ :=
    h.report_eq ht hle hend hcheck hreport
  have hbound := h.bound
  have hlastUp : t.upTo last < t.upTo (found + m) := Text.upTo_lt hlastPos (by omega)
  refine ⟨⟨by omega, .inr (hlastEq ▸ hlastPos), ?_⟩, by omega⟩
  rw [hlastEq]
  omega

/-- A condition while a text is searched: unless the search has stopped, it has reported an
occurrence that is not empty. -/
structure SnipCond.Sought (cond : SnipCond) (t : Text) : Prop where
  ready : ∃ x, cond.Ready t x
  placed : cond.Placed t
  proper : cond.stopflag = .stop ∨ cond.startOffset < cond.endOffset

/-- The search is where it was when the end of the text is noted, -/
theorem SnipCond.Sought.across {cond : SnipCond} (h : cond.Sought t)
    (hflag : cond.stopflag = .nonstop) :
    SnipCond.Sought { cond with stopflag := .across } t := by
  obtain ⟨⟨x, hx⟩, hplaced, hproper⟩ := h
  exact ⟨⟨x, hx.of_prepared rfl hx.found_le⟩, ⟨hplaced.le, hplaced.head, hplaced.bound⟩,
    .inr (hproper.resolve_left (by rw [hflag]; decide))⟩

/-- when an occurrence is counted, -/
theorem SnipCond.Sought.counted {cond : SnipCond} (h : cond.Sought t) (n : Nat) :
    SnipCond.Sought { cond with count := n } t := by
  obtain ⟨⟨x, hx⟩, hplaced, hproper⟩ := h
  exact ⟨⟨x, hx.of_prepared rfl hx.found_le⟩, ⟨hplaced.le, hplaced.head, hplaced.bound⟩, hproper⟩

/-- and when the note is taken back. -/
theorem SnipCond.Sought.reset {cond : SnipCond} (h : cond.Sought t)
    (hflag : cond.stopflag ≠ .stop) : SnipCond.Sought { cond with stopflag := .nonstop } t := by
  obtain ⟨⟨x, hx⟩, hplaced, hproper⟩ := h
  exact ⟨⟨x, hx.of_prepared rfl hx.found_le⟩, ⟨hplaced.le, hplaced.head, hplaced.bound⟩,
    .inr (hproper.resolve_left hflag)⟩

/-- What a report changes in a condition. -/
theorem SnipCond.report_fields {cond cond' : SnipCond} {skip : Bool} {found m shift : Nat}
    (h : cond.report t skip found m shift = some cond') :
    cond'.prepared = cond.prepared ∧ cond'.found = found + shift ∧
      cond'.stopflag = cond.stopflag := by
  unfold SnipCond.report at h
  dsimp only at h
  cases skip with
  | true =>
      rw [if_pos rfl] at h
      obtain ⟨offset, -, h⟩ := Option.bind_eq_some_iff.mp h
      obtain rfl := Option.some.inj h
      exact ⟨rfl, rfl, rfl⟩
  | false =>
      rw [if_neg Bool.false_ne_true] at h
      obtain rfl := Option.some.inj h
      exact ⟨rfl, rfl, rfl⟩

theorem senBmTunedbm_eq {cond : SnipCond} {x : List UInt8} (h : cond.keyword = .opened x)
    (t : Text) (skip : Bool) :
    senBmTunedbm cond t skip = (cond.search t x).bind fun r =>
      match r with
      | none => some { cond with stopflag := .stop }
      | some found =>
          cond.report t skip found x.length (if x.length = 1 then 1 else cond.shift) := by
  rw [senBmTunedbm, h]
  rfl

/-- **One search** stops, or moves on and reports an occurrence that is not empty. -/
theorem senBmTunedbm_sought {cond cond' : SnipCond} {x : List UInt8} (hx : cond.Ready t x)
    (hp : cond.Placed t) (ht : t.Sound) {skip : Bool}
    (h : senBmTunedbm cond t skip = some cond') :
    cond'.Sought t ∧ cond'.prepared = cond.prepared ∧
      (cond'.stopflag = .stop ∨ cond.found < cond'.found ∧ cond'.stopflag = cond.stopflag) := by
  rw [senBmTunedbm_eq hx.keyword] at h
  obtain ⟨r, hsearch, h⟩ := Option.bind_eq_some_iff.mp h
  cases r with
  | none =>
      obtain rfl := Option.some.inj h
      exact ⟨⟨⟨x, hx.of_prepared rfl hx.found_le⟩, ⟨hp.le, hp.head, hp.bound⟩, .inl rfl⟩, rfl,
        .inl rfl⟩
  | some found =>
      obtain ⟨r, hr, hplace⟩ := hx.search
      obtain rfl := Option.some.inj (hsearch.symm.trans hr)
      obtain ⟨hle, hend⟩ := hplace found rfl
      have hm : 0 < x.length := List.length_pos_iff.mpr hx.ne_nil
      obtain ⟨hplaced, hproper⟩ :=
        hp.report ht hle hm hend (SnipCond.search_checks hsearch) h
      have hstep : 0 < (if x.length = 1 then 1 else cond.shift) ∧
          (if x.length = 1 then 1 else cond.shift) ≤ x.length := by
        split_ifs with hone
        · omega
        · exact hx.shift hone
      obtain ⟨hprepared, hfound, hflag⟩ := SnipCond.report_fields h
      refine ⟨⟨⟨x, hx.of_prepared hprepared ?_⟩, hplaced, .inr hproper⟩, hprepared,
        .inr ⟨?_, hflag⟩⟩
      · omega
      · omega

end

end Senna.Snip
