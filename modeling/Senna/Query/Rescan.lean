/-
# Scanning again after a failure

The conditions of a query are initialised during its first scan, one for each keyword in the
order of the walk, and a later scan takes them as they are. A keyword that cannot be
initialised uses up no condition, and the walk goes on behind a nested list that one has cut
short. So fewer conditions are open afterwards than there are keywords (`scanCells_alloc`),
and a later scan, which needs one for each, comes to one that is not (`scanCells_reinit`).
-/

import Senna.Query.Scan

namespace Senna.Query

open Senna.Snip

/-- The pointer `keyword` leads to no open keyword. -/
def Shut (cond : SnipCond) : Prop := ∀ x, cond.keyword ≠ .opened x

/-- A search for a keyword that is not open reads what is not there. -/
theorem scanKeyword_of_shut {cond : SnipCond} (h : Shut cond) (t : Text) (sid : Nat)
    (op : SelOperator) (optarg : SelectOptarg) (found : Bool) (score : Int) :
    scanKeyword cond t sid op optarg found score = none := by
  have hbm : senBmTunedbm cond t false = none := by
    unfold senBmTunedbm
    cases hk : cond.keyword with
    | null => rfl
    | closed => rfl
    | opened x => exact absurd hk (h x)
  simp [scanKeyword, countOccurrences, hbm]

theorem shut_of_init_ne {nstrOpen : List UInt8 → Option (List UInt8)} {v : List UInt8}
    (h : (senSnipCondInit nstrOpen v).1 ≠ .success) : Shut (senSnipCondInit nstrOpen v).2 := by
  unfold senSnipCondInit at h ⊢
  cases hopen : nstrOpen v with
  | none => exact nofun
  | some norm =>
      simp only [hopen] at h ⊢
      cases hlast : norm.getLast? with
      | none => exact nofun
      | some z =>
          simp only [hlast] at h
          split_ifs at h <;> exact absurd rfl h

section

variable (nstrOpen : List UInt8 → Option (List UInt8))

/-- One of the keywords cannot be initialised. -/
def Fails (vs : List (List UInt8)) : Prop :=
  ∃ v ∈ vs, (senSnipCondInit nstrOpen v).1 ≠ .success

/-- From `*sc` on no condition is open. -/
def Clean (s : ScanState) : Prop :=
  ∀ i, s.sc ≤ i → ∀ cond, s.conds[i]? = some cond → Shut cond

/-- The first walk over the keywords `vs` has opened a condition for each, or for fewer of them
where one could not be initialised. -/
structure Opens (vs : List (List UInt8)) (rc : SenRc) (s s' : ScanState) : Prop where
  clean : Clean s'
  length : s'.conds.length = s.conds.length
  sc_le : s'.sc ≤ s.sc + vs.length
  sc_lt : Fails nstrOpen vs → s'.sc < s.sc + vs.length
  error : rc ≠ .success → Fails nstrOpen vs

variable {nstrOpen} {vs ws : List (List UInt8)} {rc rc' : SenRc} {s s' s'' : ScanState}

theorem fails_append : Fails nstrOpen (vs ++ ws) ↔ Fails nstrOpen vs ∨ Fails nstrOpen ws := by
  simp only [Fails, List.mem_append, or_and_right, exists_or]

namespace Opens

theorem refl (h : Clean s) : Opens nstrOpen [] .success s s :=
  ⟨h, rfl, le_rfl, fun ⟨_, hv, _⟩ => absurd hv List.not_mem_nil, fun h => absurd rfl h⟩

theorem trans (h : Opens nstrOpen vs .success s s') (h' : Opens nstrOpen ws rc s' s'') :
    Opens nstrOpen (vs ++ ws) rc s s'' := by
  have hle := h.sc_le
  have hle' := h'.sc_le
  refine ⟨h'.clean, h'.length.trans h.length, ?_, fun hfails => ?_, fun hrc => ?_⟩
  · rw [List.length_append]
    omega
  · rw [List.length_append]
    rcases fails_append.mp hfails with hf | hf
    · have := h.sc_lt hf
      omega
    · have := h'.sc_lt hf
      omega
  · exact fails_append.mpr (.inr (h'.error hrc))

/-- The walk ends where a keyword has failed. -/
theorem stop (h : Opens nstrOpen vs rc s s') (hrc : rc ≠ .success) :
    Opens nstrOpen (vs ++ ws) rc s s' := by
  have hlt := h.sc_lt (h.error hrc)
  refine ⟨h.clean, h.length, ?_, fun _ => ?_, fun _ => fails_append.mpr (.inl (h.error hrc))⟩ <;>
    · rw [List.length_append]
      omega

/-- The end of a nested call, whose return code is dropped. -/
theorem nested (op : SelOperator) (outer : ScanState) (h : Opens nstrOpen vs rc s s')
    (hconds : outer.conds = s.conds) (hsc : outer.sc = s.sc) :
    Opens nstrOpen vs .success outer (scanCombine op outer (rc, s')).2 := by
  have hsame : (scanCombine op outer (rc, s')).2.conds = s'.conds ∧
      (scanCombine op outer (rc, s')).2.sc = s'.sc := by
    cases rc <;> cases op <;> exact ⟨rfl, rfl⟩
  refine ⟨?_, ?_, ?_, ?_, fun hrc => absurd rfl hrc⟩
  · rw [Clean, hsame.1, hsame.2]
    exact h.clean
  · rw [hsame.1, hconds]
    exact h.length
  · rw [hsame.2, hsc]
    exact h.sc_le
  · rw [hsame.2, hsc]
    exact h.sc_lt

end Opens

variable (q : SenQuery) (t : Text) (sid : Nat)

/-- One keyword: its condition is initialised and searched for, or left shut. -/
theorem scanBulk_alloc (v : List UInt8) (ope : Option Op) (op : SelOperator) (s : ScanState)
    (hclean : Clean s) (hroom : s.sc + 1 ≤ s.conds.length) :
    ∃ rc s', scanCell nstrOpen q t sid true (.bulk v) ope op s = some (rc, s') ∧
      Opens nstrOpen [v] rc s s' := by
  have hlt : s.sc < s.conds.length := hroom
  have hcond : scanCond nstrOpen true s.conds s.sc v = some (senSnipCondInit nstrOpen v) := by
    rw [scanCond, List.getElem?_eq_getElem hlt]
    rfl
  have hfails : Fails nstrOpen [v] ↔ (senSnipCondInit nstrOpen v).1 ≠ .success := by
    simp [Fails]
  by_cases hinit : (senSnipCondInit nstrOpen v).1 = .success
  · obtain ⟨x, -, hfound, hflag⟩ := senSnipCondInit_ready hinit t
    obtain ⟨cond', score', hkeyword, -⟩ := scanKeyword_spec (t := t) hinit rfl hfound hflag sid op
      (q.optFor ope s.opt) s.found s.score
    refine ⟨.success, {
      opt := q.optFor ope s.opt
      conds := s.conds.set s.sc cond'
      sc := s.sc + 1
      found := op.apply s.found (occursIn nstrOpen t v)
      score := score' }, ?_, ?_, List.length_set, le_rfl, ?_, fun h => absurd rfl h⟩
    · rw [scanCell, hcond, Option.bind_some]
      simp only [hinit, if_true, hkeyword, Option.map_some]
    · intro i hi cond hc
      simp only at hi hc
      rw [List.getElem?_set_ne (by omega)] at hc
      exact hclean i (by omega) cond hc
    · exact fun h => absurd hinit (hfails.mp h)
  · refine ⟨(senSnipCondInit nstrOpen v).1, { s with
      opt := q.optFor ope s.opt
      conds := s.conds.set s.sc (senSnipCondInit nstrOpen v).2 }, ?_, ?_, List.length_set,
      Nat.le_add_right _ _, fun _ => Nat.lt_succ_self _, fun _ => hfails.mpr hinit⟩
    · rw [scanCell, hcond, Option.bind_some]
      simp only [hinit, if_false]
    · intro i hi cond hc
      simp only at hi hc
      by_cases his : s.sc = i
      · rw [← his, List.getElem?_set_self hlt] at hc
        obtain rfl := Option.some.inj hc
        exact shut_of_init_ne hinit
      · rw [List.getElem?_set_ne his] at hc
        exact hclean i hi cond hc

mutual

theorem scanCell_alloc : ∀ (e : Cell) (ope : Option Op) (op : SelOperator) (s : ScanState),
    Clean s → s.sc + e.leaves.length ≤ s.conds.length →
    ∃ rc s', scanCell nstrOpen q t sid true e ope op s = some (rc, s') ∧
      Opens nstrOpen e.leaves rc s s'
  | .nil, _, _, s, hclean, _ => ⟨.success, s, rfl, .refl hclean⟩
  | .op _, _, _, s, hclean, _ => ⟨.success, s, rfl, .refl hclean⟩
  | .bulk v, ope, op, s, hclean, hroom => scanBulk_alloc q t sid v ope op s hclean hroom
  | .list l, ope, op, s, hclean, hroom => by
      obtain ⟨rc, s', hrun, hopens⟩ := scanCells_alloc l true none q.defaultOp
        { s with found := false, score := 0 } hclean hroom
      refine ⟨.success, _, ?_, hopens.nested op s rfl rfl⟩
      rw [scanCell, hrun, Option.map_some]

/-- **The first walk** opens no condition for a keyword that fails. -/
theorem scanCells_alloc : ∀ (c : List Cell) (first : Bool) (ope : Option Op) (op1 : SelOperator)
    (s : ScanState), Clean s → s.sc + (leaves first c).length ≤ s.conds.length →
    ∃ rc s', scanCells nstrOpen q t sid true c first ope op1 s = some (rc, s') ∧
      Opens nstrOpen (leaves first c) rc s s'
  | [], _, _, _, s, hclean, _ => ⟨.success, s, rfl, .refl hclean⟩
  | .op o :: c, first, ope, op1, s, hclean, hroom => by
      unfold leaves at hroom ⊢
      unfold scanCells
      split_ifs at hroom ⊢
      · match c, hroom with
        | [], _ => exact ⟨.success, s, rfl, .refl hclean⟩
        | _ :: c, hroom => exact scanCells_alloc c first ope op1 s hclean hroom
      · exact scanCells_alloc c first (some o) o.op s hclean hroom
  | .nil :: c, _, _, _, s, hclean, hroom =>
      scanCells_alloc c false none q.defaultOp s hclean hroom
  | .bulk v :: c, first, ope, op1, s, hclean, hroom => by
      have hlen : (leaves first (.bulk v :: c)).length = 1 + (leaves false c).length :=
        Nat.add_comm _ _
      obtain ⟨rc, s₁, hcell, hopens⟩ :=
        scanBulk_alloc q t sid v ope (if first then .or else op1) s hclean (by omega)
      show ∃ rc s', (scanCell nstrOpen q t sid true (.bulk v) ope _ s).bind _ = some (rc, s') ∧
        Opens nstrOpen ([v] ++ leaves false c) rc s s'
      rw [hcell, Option.bind_some]
      by_cases hrc : rc = .success
      · subst hrc
        have hle := hopens.sc_le
        have hconds := hopens.length
        rw [List.length_singleton] at hle
        obtain ⟨rc', s', hrun, hopens'⟩ := scanCells_alloc c false none q.defaultOp s₁
          hopens.clean (by omega)
        exact ⟨rc', s', hrun, hopens.trans hopens'⟩
      · exact ⟨rc, s₁, if_neg hrc, hopens.stop hrc⟩
  | .list l :: c, first, ope, op1, s, hclean, hroom => by
      have hlen : (leaves first (.list l :: c)).length =
          (leaves true l).length + (leaves false c).length := List.length_append
      obtain ⟨rc, s₁, hcell, hopens⟩ :=
        scanCell_alloc (.list l) ope (if first then .or else op1) s hclean
          (show s.sc + (leaves true l).length ≤ _ by omega)
      show ∃ rc s', (scanCell nstrOpen q t sid true (.list l) ope _ s).bind _ = some (rc, s') ∧
        Opens nstrOpen (Cell.leaves (.list l) ++ leaves false c) rc s s'
      rw [hcell, Option.bind_some]
      by_cases hrc : rc = .success
      · subst hrc
        have hle : s₁.sc ≤ s.sc + (leaves true l).length := hopens.sc_le
        have hconds := hopens.length
        obtain ⟨rc', s', hrun, hopens'⟩ := scanCells_alloc c false none q.defaultOp s₁
          hopens.clean (by omega)
        exact ⟨rc', s', hrun, hopens.trans hopens'⟩
      · exact ⟨rc, s₁, if_neg hrc, hopens.stop hrc⟩

end

/-- A later walk over the keywords `vs` found their conditions open. -/
structure Walks (vs : List (List UInt8)) (s s' : ScanState) : Prop where
  sc : s'.sc = s.sc + vs.length
  opened : ∀ i < vs.length, ∃ cond, s.conds[s.sc + i]? = some cond ∧ ¬ Shut cond
  rest : ∀ i, i < s.sc ∨ s.sc + vs.length ≤ i → s'.conds[i]? = s.conds[i]?

namespace Walks

theorem refl (s : ScanState) : Walks [] s s :=
  ⟨rfl, fun i hi => absurd hi (Nat.not_lt_zero i), fun _ _ => rfl⟩

theorem trans (h : Walks vs s s') (h' : Walks ws s' s'') : Walks (vs ++ ws) s s'' := by
  have hsc := h.sc
  refine ⟨?_, fun i hi => ?_, fun i hi => ?_⟩
  · rw [h'.sc, hsc, List.length_append, Nat.add_assoc]
  · rw [List.length_append] at hi
    by_cases hlt : i < vs.length
    · exact h.opened i hlt
    · obtain ⟨cond, hcond, hopen⟩ := h'.opened (i - vs.length) (by omega)
      rw [hsc, Nat.add_assoc, Nat.add_sub_cancel' (not_lt.mp hlt)] at hcond
      rw [h.rest _ (by omega)] at hcond
      exact ⟨cond, hcond, hopen⟩
  · rw [List.length_append] at hi
    rw [h'.rest i (by omega), h.rest i (by omega)]

/-- The end of a nested call. -/
theorem nested (op : SelOperator) (outer : ScanState) (h : Walks vs s s')
    (hconds : outer.conds = s.conds) (hsc : outer.sc = s.sc) :
    Walks vs outer (scanCombine op outer (.success, s')).2 := by
  obtain ⟨-, -, hconds', hsc'⟩ := scanCombine_success op outer s'
  refine ⟨?_, fun i hi => ?_, fun i hi => ?_⟩
  · rw [hsc', hsc]
    exact h.sc
  · rw [hconds, hsc]
    exact h.opened i hi
  · rw [hconds', hconds]
    exact h.rest i (hsc ▸ hi)

end Walks

/-- One keyword: its condition is open, since the search returned. -/
theorem scanBulk_reinit {v : List UInt8} {ope : Option Op} {op : SelOperator}
    (h : scanCell nstrOpen q t sid false (.bulk v) ope op s = some (rc, s')) :
    rc = .success ∧ Walks [v] s s' := by
  rw [scanCell] at h
  obtain ⟨⟨rc₁, cond⟩, hcond, h⟩ := Option.bind_eq_some_iff.mp h
  obtain ⟨cond₀, hcond₀, heq⟩ := Option.map_eq_some_iff.mp hcond
  obtain ⟨rfl, rfl⟩ := Prod.mk.inj heq
  simp only [if_true] at h
  obtain ⟨⟨cond', found, score⟩, hkeyword, heq⟩ := Option.map_eq_some_iff.mp h
  obtain ⟨rfl, rfl⟩ := Prod.mk.inj heq
  refine ⟨rfl, rfl, fun i hi => ?_, fun i hi => ?_⟩
  · obtain rfl : i = 0 := by simpa using hi
    refine ⟨cond₀, hcond₀, fun hshut => ?_⟩
    have hnone := scanKeyword_of_shut (show Shut (senSnipCondReinit cond₀) from hshut) t sid op
      (q.optFor ope s.opt) s.found s.score
    rw [hnone] at hkeyword
    exact absurd hkeyword nofun
  · rw [List.length_singleton] at hi
    exact List.getElem?_set_ne (by omega)

mutual

theorem scanCell_reinit : ∀ (e : Cell) (ope : Option Op) (op : SelOperator) (s : ScanState)
    (rc : SenRc) (s' : ScanState), scanCell nstrOpen q t sid false e ope op s = some (rc, s') →
    rc = .success ∧ Walks e.leaves s s'
  | .nil, _, _, s, rc, s', h => by
      obtain ⟨rfl, rfl⟩ := Prod.mk.inj (Option.some.inj h)
      exact ⟨rfl, .refl _⟩
  | .op _, _, _, s, rc, s', h => by
      obtain ⟨rfl, rfl⟩ := Prod.mk.inj (Option.some.inj h)
      exact ⟨rfl, .refl _⟩
  | .bulk v, ope, op, s, rc, s', h => scanBulk_reinit q t sid h
  | .list l, ope, op, s, rc, s', h => by
      rw [scanCell] at h
      obtain ⟨⟨rc₁, s₁⟩, hrun, heq⟩ := Option.map_eq_some_iff.mp h
      obtain ⟨rfl, rfl⟩ := Prod.mk.inj heq
      obtain ⟨rfl, hwalks⟩ := scanCells_reinit l true none q.defaultOp _ rc₁ s₁ hrun
      exact ⟨rfl, hwalks.nested op s rfl rfl⟩

/-- **A later walk** needs an open condition for every keyword. -/
theorem scanCells_reinit : ∀ (c : List Cell) (first : Bool) (ope : Option Op) (op1 : SelOperator)
    (s : ScanState) (rc : SenRc) (s' : ScanState),
    scanCells nstrOpen q t sid false c first ope op1 s = some (rc, s') →
    rc = .success ∧ Walks (leaves first c) s s'
  | [], _, _, _, s, rc, s', h => by
      obtain ⟨rfl, rfl⟩ := Prod.mk.inj (Option.some.inj h)
      exact ⟨rfl, .refl _⟩
  | .op o :: c, first, ope, op1, s, rc, s', h => by
      unfold leaves
      unfold scanCells at h
      split_ifs at h ⊢
      · match c, h with
        | [], h =>
            obtain ⟨rfl, rfl⟩ := Prod.mk.inj (Option.some.inj h)
            exact ⟨rfl, .refl _⟩
        | _ :: c, h => exact scanCells_reinit c first ope op1 s rc s' h
      · exact scanCells_reinit c first (some o) o.op s rc s' h
  | .nil :: c, _, _, _, s, rc, s', h => scanCells_reinit c false none q.defaultOp s rc s' h
  | .bulk v :: c, first, ope, op1, s, rc, s', h => by
      obtain ⟨⟨rc₁, s₁⟩, hcell, h⟩ := Option.bind_eq_some_iff.mp h
      obtain ⟨rfl, hwalks⟩ := scanBulk_reinit q t sid hcell
      obtain ⟨hrc, hwalks'⟩ := scanCells_reinit c false none q.defaultOp s₁ rc s' h
      exact ⟨hrc, hwalks.trans hwalks'⟩
  | .list l :: c, first, ope, op1, s, rc, s', h => by
      obtain ⟨⟨rc₁, s₁⟩, hcell, h⟩ := Option.bind_eq_some_iff.mp h
      obtain ⟨rfl, hwalks⟩ := scanCell_reinit (.list l) ope _ s rc₁ s₁ hcell
      obtain ⟨hrc, hwalks'⟩ := scanCells_reinit c false none q.defaultOp s₁ rc s' h
      exact ⟨hrc, hwalks.trans hwalks'⟩

end

end

section

variable (nstrOpen : List UInt8 → Option (List UInt8))

/-- The error of the first keyword that cannot be initialised. -/
def firstError (vs : List (List UInt8)) : SenRc :=
  ((vs.map fun v => (senSnipCondInit nstrOpen v).1).find? (· ≠ .success)).getD .success

/-- The condition is absent, or it was initialised for a keyword. -/
def OpenKeyword (cond : SnipCond) : Prop :=
  cond.keyword = .null ∨ ∃ v, (senSnipCondInit nstrOpen v).1 = .success ∧
    cond.prepared = (senSnipCondInit nstrOpen v).2.prepared

/-- What a scan reports. -/
def answer (r : SenRc × SenQuery × Bool × Int) : SenRc × Bool × Int := (r.1, r.2.2)

/-- The first scan of the query `q` reports the keyword that cannot be initialised and leaves
the query usable: its conditions are, and a later scan of any texts reports what it would on
a fresh query. -/
def ReportsAndRecovers (q : SenQuery) (texts : List (Option Text)) : Prop :=
  ∃ q' found score, senQueryScan nstrOpen true q texts false false 0 =
      some (firstError nstrOpen (leaves true q.expr), q', found, score) ∧
    (∀ conds, q'.snipConds = some conds → ∀ cond ∈ conds, OpenKeyword nstrOpen cond) ∧
    ∀ later, (senQueryScan nstrOpen true q' later false false 0).map answer =
      (senQueryScan nstrOpen true q later false false 0).map answer

variable {nstrOpen} {q : SenQuery}

/-- A scan without allocation returns on some text only if every condition is open. -/
theorem scanQuery_reinit {t : Text} {sid : Nat} {s s' : ScanState} {rc : SenRc}
    (hrun : scanQuery nstrOpen q t sid false q.expr .or { s with sc := 0 } = some (rc, s')) :
    ∀ i < (leaves true q.expr).length, ∃ cond, s.conds[i]? = some cond ∧ ¬ Shut cond := by
  intro i hi
  obtain ⟨⟨rc₁, s₁⟩, hcells, -⟩ := Option.map_eq_some_iff.mp hrun
  obtain ⟨-, hwalks⟩ := scanCells_reinit q t sid q.expr true none q.defaultOp _ rc₁ s₁ hcells
  obtain ⟨cond, hcond, hopen⟩ := hwalks.opened i hi
  rw [Nat.zero_add] at hcond
  exact ⟨cond, hcond, hopen⟩

/-- The first text of a first scan: a keyword that fails leaves a condition shut which a later
scan needs. -/
theorem scanQuery_alloc (t : Text) {s : ScanState} (hclean : ∀ cond ∈ s.conds, Shut cond)
    (hroom : (leaves true q.expr).length ≤ s.conds.length) :
    ∃ rc s', scanQuery nstrOpen q t 1 true q.expr .or { s with sc := 0 } = some (rc, s') ∧
      (Fails nstrOpen (leaves true q.expr) → ∃ i < (leaves true q.expr).length,
        ∀ cond, s'.conds[i]? = some cond → Shut cond) := by
  obtain ⟨rc, s₁, hcells, hopens⟩ := @scanCells_alloc nstrOpen q t 1 q.expr true none
    q.defaultOp { s with sc := 0, found := false, score := 0 }
    (fun i _ cond hc => hclean cond (List.mem_of_getElem? hc)) (by simpa using hroom)
  refine ⟨_, _, by rw [scanQuery, hcells, Option.map_some], fun hfails => ?_⟩
  have hlt := hopens.sc_lt hfails
  rw [Nat.zero_add] at hlt
  refine ⟨s₁.sc, hlt, fun cond hc => hopens.clean s₁.sc le_rfl cond ?_⟩
  have hconds : (scanCombine .or { s with sc := 0 } (rc, s₁)).2.conds = s₁.conds := by
    cases rc <;> rfl
  rwa [← hconds]

/-- After a first scan with a failing keyword some condition that a later scan needs is not
open. -/
theorem scanTexts_alloc (hfails : Fails nstrOpen (leaves true q.expr)) (t : Text)
    {texts : List (Option Text)} {s s' : ScanState} {rc : SenRc}
    (hclean : ∀ cond ∈ s.conds, Shut cond)
    (hroom : (leaves true q.expr).length ≤ s.conds.length)
    (hrun : scanTexts nstrOpen q true (some t :: texts) 1 s = some (rc, s')) :
    ∃ i < (leaves true q.expr).length, ∀ cond, s'.conds[i]? = some cond → Shut cond := by
  obtain ⟨rc₁, s₁, hquery, hshut⟩ := @scanQuery_alloc nstrOpen q t s hclean hroom
  obtain ⟨i, hi, hshut⟩ := hshut hfails
  have hsame : ∀ {rc₂ s₂}, some (rc₂, s₁) = some (rc, s₂) → s₁ = s₂ := by
    intro rc₂ s₂ heq
    exact (Prod.mk.inj (Option.some.inj heq)).2
  rw [scanTexts, hquery, Option.bind_some] at hrun
  simp only at hrun
  split_ifs at hrun with hrc
  · cases texts with
    | nil =>
        obtain rfl := hsame hrun
        exact ⟨i, hi, hshut⟩
    | cons text texts =>
        cases text with
        | none =>
            obtain rfl := hsame hrun
            exact ⟨i, hi, hshut⟩
        | some t₂ =>
            obtain ⟨⟨rc₂, s₂⟩, hquery₂, -⟩ := Option.bind_eq_some_iff.mp hrun
            obtain ⟨cond, hcond, hopen⟩ := scanQuery_reinit hquery₂ i hi
            exact absurd (hshut cond hcond) hopen
  · obtain rfl := hsame hrun
    exact ⟨i, hi, hshut⟩

/-- **A failed scan leaves the query unusable.** For every query that was not scanned before
and all texts, of which the first can be opened: where some keyword that is evaluated cannot be
initialised, the scan does not both report it and leave the query in a state in which later
scans do what they do on a fresh query. -/
theorem failedScan_recovers_iff (hfresh : q.snipConds = none)
    (hexpr : (leaves true q.expr).length ≤ q.curExpr) (t : Text) (texts : List (Option Text)) :
    ((∃ v ∈ leaves true q.expr, (senSnipCondInit nstrOpen v).1 ≠ .success) →
      ReportsAndRecovers nstrOpen q (some t :: texts)) ↔
    ∀ v ∈ leaves true q.expr, (senSnipCondInit nstrOpen v).1 = .success := by
  constructor
  · intro h
    by_contra hnot
    have hfails : Fails nstrOpen (leaves true q.expr) := by
      push Not at hnot
      exact hnot
    obtain ⟨q', found, score, hrun, -, hlater⟩ := h hfails
    have hclean : ∀ cond ∈ List.replicate q.curExpr SnipCond.zero, Shut cond := by
      intro cond hc
      rw [List.eq_of_mem_replicate hc]
      exact nofun
    have hroom : (leaves true q.expr).length ≤ (List.replicate q.curExpr SnipCond.zero).length := by
      rwa [List.length_replicate]
    -- the first scan
    simp only [senQueryScan, hfresh, reduceCtorEq, if_false, if_true] at hrun
    obtain ⟨⟨rc, s⟩, htexts, heq⟩ := Option.map_eq_some_iff.mp hrun
    simp only [Prod.mk.injEq] at heq
    obtain ⟨-, rfl, -⟩ := heq
    obtain ⟨i, hi, hshut⟩ := scanTexts_alloc hfails t hclean hroom htexts
    -- a scan of the first text on a fresh query returns, and on this one it does not
    obtain ⟨rc₁, s₁, hquery, -⟩ := @scanQuery_alloc nstrOpen q t
      ⟨q.opt, List.replicate q.curExpr .zero, 0, false, 0⟩ hclean hroom
    have hfreshRun : ((senQueryScan nstrOpen true q [some t] false false 0).map answer).isSome := by
      simp only [senQueryScan, hfresh, if_false, if_true, scanTexts, hquery, Option.bind_some,
        List.cons_ne_nil]
      split_ifs <;> rfl
    rw [← hlater [some t], Option.isSome_map] at hfreshRun
    obtain ⟨r, hr⟩ := Option.isSome_iff_exists.mp hfreshRun
    simp only [senQueryScan, List.cons_ne_nil, if_false, Bool.false_eq_true] at hr
    obtain ⟨⟨rc₂, s₂⟩, hscan, -⟩ := Option.map_eq_some_iff.mp hr
    obtain ⟨⟨rc₃, s₃⟩, hquery₃, -⟩ := Option.bind_eq_some_iff.mp hscan
    obtain ⟨cond, hcond, hopen⟩ := scanQuery_reinit hquery₃ i hi
    exact hopen (hshut cond hcond)
  · rintro h ⟨v, hv, hne⟩
    exact absurd (h v hv) hne

end

/-- The query `"  " ab`, whose first keyword has nothing but blanks. -/
theorem failedScan_recovers_iff_blank :
    let q := sampleQuery [.bulk [0x20, 0x20], .bulk [0x61, 0x62]]
    ((∃ v ∈ leaves true q.expr, (senSnipCondInit dropBlanks v).1 ≠ .success) →
      ReportsAndRecovers dropBlanks q [some sampleText]) ↔
    ∀ v ∈ leaves true q.expr, (senSnipCondInit dropBlanks v).1 = .success :=
  failedScan_recovers_iff rfl (by decide) sampleText []

/-- In `("  ") ab` the keyword that fails stands in a nested list, and the scan succeeds. -/
theorem failedScan_nested :
    let q := sampleQuery [.list [.bulk [0x20, 0x20]], .bulk [0x61, 0x62]]
    (∃ q', senQueryScan dropBlanks true q [some sampleText] false false 0 =
      some (.success, q', true, 5)) ∧
    ¬ ((∃ v ∈ leaves true q.expr, (senSnipCondInit dropBlanks v).1 ≠ .success) →
      ReportsAndRecovers dropBlanks q [some sampleText]) := by
  intro q
  have hrun : ∃ q', senQueryScan dropBlanks true q [some sampleText] false false 0 =
      some (.success, q', true, 5) := ⟨_, rfl⟩
  refine ⟨hrun, fun h => ?_⟩
  obtain ⟨q₁, found, score, hreports, -⟩ := h ⟨[0x20, 0x20], by decide, by decide⟩
  obtain ⟨q', hsuccess⟩ := hrun
  rw [hsuccess] at hreports
  have hrc : SenRc.success = firstError dropBlanks (leaves true q.expr) :=
    (Prod.mk.inj (Option.some.inj hreports)).1
  exact absurd hrc (by decide)

end Senna.Query
