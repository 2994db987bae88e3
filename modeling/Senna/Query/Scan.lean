/-
# Scanning a text with a query

`sen_query_scan` evaluates a query on texts without an index: `scan_query` walks the cells
with a flag `found`, and `scan_keyword` counts the occurrences of one keyword with
`sen_bm_tunedbm`. `found` is 0 or 1 throughout; a signed overflow of a score is undefined
in C and not modelled.

Nested calls of `scan_query` drop the return code, so a keyword that cannot be initialised
inside a nested list cuts that list short without a trace. `scanCells_spec` is about the
other case: every keyword that is evaluated can be initialised.
-/

import Senna.Query.Expr
import Senna.Snip.Tunedbm

namespace Senna.Query

open Senna.Snip

universe u

/-- `sen_select_optarg` without the callback, which the scanner does not use. -/
structure SelectOptarg where
  mode : SelMode
  similarityThreshold : Int
  maxInterval : Int
  weightVector : Option (List Int)
  vectorSize : Int
  deriving DecidableEq, Repr

/-- `sen_query` after parsing, as the scanner uses it. -/
structure SenQuery where
  defaultOp : SelOperator
  opt : SelectOptarg
  defaultMode : SelMode
  weightOffset : Int
  expr : List Cell
  curExpr : Nat
  snipConds : Option (List SnipCond)

/-- The options of a keyword after the operator cell `ope`. -/
def SenQuery.optFor (q : SenQuery) (ope : Option Op) (opt : SelectOptarg) : SelectOptarg :=
  match ope with
  | some o => { opt with
      mode := o.mode.getD q.defaultMode
      maxInterval := o.option
      similarityThreshold := o.option
      vectorSize := if opt.weightVector.isNone then o.weight + q.weightOffset else opt.vectorSize }
  | none => { opt with
      mode := q.defaultMode
      maxInterval := 10
      similarityThreshold := 10
      vectorSize := if opt.weightVector.isNone then 5 + q.weightOffset else opt.vectorSize }

/-- The weight of one occurrence in a section. A weight vector has `vectorSize` entries, which
is compared with the unsigned section id. -/
def SelectOptarg.weightOf (optarg : SelectOptarg) (sid : Nat) : Int :=
  if optarg.vectorSize ≠ 0 then
    match optarg.weightVector with
    | none => optarg.vectorSize
    | some w =>
        if sid ≠ 0 then
          if sid ≤ optarg.vectorSize % 2 ^ 32 then w.getD (sid - 1) 0 else 0
        else 1
  else 1

/-- `for (tf = 0; ; tf++) { sen_bm_tunedbm(sc, str, 0); … }`, with an amount of fuel. -/
def countOccurrences (t : Text) : Nat → Nat → SnipCond → Option (Nat × SnipCond)
  | 0, _, _ => none
  | k + 1, tf, sc =>
      (senBmTunedbm sc t false).bind fun sc =>
        if sc.stopflag = .stop then some (tf, sc) else countOccurrences t k (tf + 1) sc

/-- What an operator makes of `found` and `score` for `tf` occurrences of weight `w`. -/
def scanUpdate (op : SelOperator) (w : Int) (tf : Nat) (found : Bool) (score : Int) : Bool × Int :=
  match op with
  | .or => if tf ≠ 0 then (true, score + w * tf) else (found, score)
  | .and => if tf ≠ 0 then (found, score + w * tf) else (false, score)
  | .but => if tf ≠ 0 then (false, score) else (found, score)
  | .adjust => (found, score + w * tf)

/-- `scan_keyword`. There are at most as many occurrences as bytes. -/
def scanKeyword (sc : SnipCond) (t : Text) (sid : Nat) (op : SelOperator) (optarg : SelectOptarg)
    (found : Bool) (score : Int) : Option (SnipCond × Bool × Int) :=
  (countOccurrences t (t.norm.length + 1) 0 sc).map fun (tf, sc) =>
    (sc, scanUpdate op (optarg.weightOf sid) tf found score)

/-- What `scan_query` changes: `q->opt`, `q->snip_conds`, `*sc`, and its flag and score. -/
structure ScanState where
  opt : SelectOptarg
  conds : List SnipCond
  sc : Nat
  found : Bool
  score : Int

/-- The end of `scan_query`: `*found` and `*score` are those of `outer`, `_found` and `_score`
those of the result, which counts only if no keyword failed. -/
def scanCombine (op : SelOperator) (outer : ScanState) : SenRc × ScanState → SenRc × ScanState
  | (.success, s) =>
      (.success, match op with
        | .or => { s with found := outer.found || s.found, score := outer.score + s.score }
        | .and => { s with found := outer.found && s.found, score := outer.score + s.score }
        | .but => { s with found := outer.found && !s.found, score := outer.score }
        | .adjust => { s with found := outer.found, score := outer.score + s.score })
  | (rc, s) => (rc, { s with found := outer.found, score := outer.score })

section

variable (nstrOpen : List UInt8 → Option (List UInt8)) (q : SenQuery) (t : Text) (sid : Nat)
  (allocConds : Bool)

/-- The preparation of `*sc` for a keyword. -/
def scanCond (conds : List SnipCond) (sc : Nat) (keyword : List UInt8) :
    Option (SenRc × SnipCond) :=
  (conds[sc]?).map fun cond =>
    if allocConds then senSnipCondInit nstrOpen keyword else (.success, senSnipCondReinit cond)

mutual

/-- The `switch` of `scan_query` for an operand `e`, with `op` for `*opp`. -/
def scanCell : Cell → Option Op → SelOperator → ScanState → Option (SenRc × ScanState)
  | .nil, _, _, s => some (.success, s)
  | .op _, _, _, s => some (.success, s)
  | .bulk v, ope, op, s =>
      let opt := q.optFor ope s.opt
      (scanCond nstrOpen allocConds s.conds s.sc v).bind fun (rc, cond) =>
        if rc = .success then
          (scanKeyword cond t sid op opt s.found s.score).map fun (cond, found, score) =>
            (.success, {
              opt := opt
              conds := s.conds.set s.sc cond
              sc := s.sc + 1
              found := found
              score := score })
        else some (rc, { s with opt := opt, conds := s.conds.set s.sc cond })
  | .list l, _, op, s =>
      -- the return code of the nested call is not looked at
      (scanCells l true none q.defaultOp { s with found := false, score := 0 }).map fun r =>
        (.success, (scanCombine op s r).2)

/-- The loop of `scan_query`. `first` says that `opp` still points to `op0`; the flag and the
score of the state are `_found` and `_score`. -/
def scanCells : List Cell → Bool → Option Op → SelOperator → ScanState →
    Option (SenRc × ScanState)
  | [], _, _, _, s => some (.success, s)
  | .op o :: c, first, ope, op1, s =>
      if first ∧ o.op = .but then
        match c with
        | [] => some (.success, s)
        | _ :: c => scanCells c first ope op1 s
      else scanCells c first (some o) o.op s
  | e :: c, first, ope, op1, s =>
      (scanCell e ope (if first then .or else op1) s).bind fun (rc, s) =>
        if rc = .success then scanCells c false none q.defaultOp s else some (rc, s)

end

/-- `scan_query(q, nstr, section, c, sc, op, flags, found, score)`. -/
def scanQuery (c : List Cell) (op : SelOperator) (s : ScanState) : Option (SenRc × ScanState) :=
  (scanCells nstrOpen q t sid allocConds c true none q.defaultOp
    { s with found := false, score := 0 }).map (scanCombine op s)

/-- The loop of `sen_query_scan` over the texts; `none` is one that could not be opened. Behind
the first text the flag `SEN_QUERY_SCAN_ALLOCCONDS` is cleared. -/
def scanTexts : Bool → List (Option Text) → Nat → ScanState → Option (SenRc × ScanState)
  | _, [], _, s => some (.success, s)
  | _, none :: _, _, s => some (.memoryExhausted, s)
  | allocConds, some t :: ts, sid, s =>
      (scanQuery nstrOpen q t sid allocConds q.expr .or { s with sc := 0 }).bind fun (rc, s) =>
        if rc = .success then scanTexts false ts (sid + 1) s else some (rc, s)

end

/-- `sen_query_scan`, with `alloc` for the success of `alloc_snip_conds`: the return code, the
query, `*found` and `*score`. -/
def senQueryScan (nstrOpen : List UInt8 → Option (List UInt8)) (alloc : Bool) (q : SenQuery)
    (texts : List (Option Text)) (allocConds found : Bool) (score : Int) :
    Option (SenRc × SenQuery × Bool × Int) :=
  let run (allocConds : Bool) (conds : List SnipCond) :=
    (scanTexts nstrOpen q allocConds texts 1 ⟨q.opt, conds, 0, false, 0⟩).map fun (rc, s) =>
      (rc, { q with opt := s.opt, snipConds := some s.conds }, s.found, s.score)
  if texts = [] then some (.invalidArgument, q, found, score)
  else
    match q.snipConds with
    | none =>
        if alloc then run true (List.replicate q.curExpr .zero)
        else some (.memoryExhausted, q, false, 0)
    | some conds =>
        if allocConds then some (.invalidArgument, q, false, 0) else run false conds

/-- `sen_bm_tunedbm` reports at least one occurrence of the keyword: the first call for a
condition fresh from `sen_snip_cond_init` does not stop. -/
def occursIn (nstrOpen : List UInt8 → Option (List UInt8)) (t : Text) (keyword : List UInt8) :
    Bool :=
  match senSnipCondInit nstrOpen keyword with
  | (.success, cond) => (senBmTunedbm cond t false).any fun cond => cond.stopflag != .stop
  | _ => false

/-- The count is larger than what it started from exactly if the next call reports an
occurrence. -/
theorem countOccurrences_spec {t : Text} {x : List UInt8} {cond : SnipCond} (h : cond.Ready t x)
    (hflag : cond.stopflag = .nonstop) {r : Option Nat} (hr : cond.search t x = some r) {k : Nat}
    (hk : t.norm.length - cond.found < k) (tf : Nat) :
    ∃ tf' cond', countOccurrences t k tf cond = some (tf', cond') ∧
      cond'.prepared = cond.prepared ∧ tf ≤ tf' ∧ (r.isSome ↔ tf < tf') := by
  induction k generalizing cond r tf with
  | zero => omega
  | succ k ih =>
      obtain ⟨cond₁, hcall, hready, hprep, hstop, hmove⟩ := h.tunedbm hr
      cases r with
      | none =>
          refine ⟨tf, cond₁, ?_, hprep, le_rfl, by simp⟩
          rw [countOccurrences, hcall, Option.bind_some, hstop]
          rfl
      | some f =>
          have hlt := hmove rfl
          have hin := hready.found_le
          rw [if_pos (by rfl), hflag] at hstop
          obtain ⟨r₁, hr₁, -⟩ := hready.search
          obtain ⟨tf', cond', hrun, hprep', hle, -⟩ := ih hready hstop hr₁ (by omega) (tf + 1)
          refine ⟨tf', cond', ?_, hprep'.trans hprep, by omega, ?_⟩
          · rw [countOccurrences, hcall, Option.bind_some, hstop, if_neg (by decide), hrun]
          · simp only [Option.isSome_some, true_iff]
            omega

/-- `found` after one keyword is the operator applied to the occurrence of the keyword. -/
theorem scanUpdate_found (op : SelOperator) (w : Int) (tf : Nat) (found : Bool) (score : Int) :
    (scanUpdate op w tf found score).1 = op.apply found (decide (0 < tf)) := by
  by_cases htf : tf = 0
  · subst htf
    cases op <;> cases found <;> rfl
  · have hpos : 0 < tf := Nat.pos_of_ne_zero htf
    rw [decide_eq_true hpos]
    cases op <;> simp only [scanUpdate, htf, ne_eq, not_false_eq_true, if_true] <;>
      cases found <;> rfl

section

variable {nstrOpen : List UInt8 → Option (List UInt8)} {t : Text} {v : List UInt8} {cond : SnipCond}

/-- **One keyword.** For a condition prepared for the keyword, `scan_keyword` returns and
joins `found` with whether the keyword occurs in the text. -/
theorem scanKeyword_spec (hinit : (senSnipCondInit nstrOpen v).1 = .success)
    (hprep : cond.prepared = (senSnipCondInit nstrOpen v).2.prepared) (hfound : cond.found = 0)
    (hflag : cond.stopflag = .nonstop) (sid : Nat) (op : SelOperator) (optarg : SelectOptarg)
    (found : Bool) (score : Int) :
    ∃ cond' score', scanKeyword cond t sid op optarg found score =
        some (cond', op.apply found (occursIn nstrOpen t v), score') ∧
      cond'.prepared = cond.prepared := by
  obtain ⟨x, hready₀, hfound₀, hflag₀⟩ := senSnipCondInit_ready hinit t
  have hready : cond.Ready t x := hready₀.of_prepared hprep (by omega)
  obtain ⟨r, hr, -⟩ := hready.search
  have hr₀ : (senSnipCondInit nstrOpen v).2.search t x = some r := by
    rw [← hr]
    exact SnipCond.search_congr hprep.symm (hfound₀.trans hfound.symm)
  have hoccurs : occursIn nstrOpen t v = r.isSome := by
    obtain ⟨cond₁, hcall, -, -, hstop, -⟩ := hready₀.tunedbm hr₀
    have hpair : senSnipCondInit nstrOpen v = (.success, (senSnipCondInit nstrOpen v).2) :=
      Prod.ext hinit rfl
    rw [occursIn, hpair]
    simp only [hcall, Option.any_some, hstop, hflag₀]
    cases r <;> rfl
  obtain ⟨tf, cond', hcount, hprep', -, hiff⟩ :=
    countOccurrences_spec hready hflag hr (k := t.norm.length + 1) (by omega) 0
  have htf : decide (0 < tf) = occursIn nstrOpen t v := by
    rw [hoccurs, Bool.eq_iff_iff, decide_eq_true_iff]
    exact hiff.symm
  refine ⟨cond', (scanUpdate op (optarg.weightOf sid) tf found score).2, ?_, hprep'⟩
  rw [scanKeyword, hcount, Option.map_some, ← htf,
    ← scanUpdate_found op (optarg.weightOf sid) tf found score]

end

section

variable (nstrOpen : List UInt8 → Option (List UInt8)) (allocConds : Bool)

/-- The conditions from `sc` on serve the keywords `vs`: all keywords can be initialised, there
is a condition for each, and without `SEN_QUERY_SCAN_ALLOCCONDS` it is prepared already. -/
def CondsFor (conds : List SnipCond) (sc : Nat) (vs : List (List UInt8)) : Prop :=
  ∀ i v, vs[i]? = some v → (senSnipCondInit nstrOpen v).1 = .success ∧
    ∃ cond, conds[sc + i]? = some cond ∧
      (allocConds = false → cond.prepared = (senSnipCondInit nstrOpen v).2.prepared)

/-- The keywords `vs` were scanned: `*sc` has moved over their conditions, which are prepared
now, and no other condition has changed. -/
structure Scanned (vs : List (List UInt8)) (s s' : ScanState) : Prop where
  sc : s'.sc = s.sc + vs.length
  conds : ∀ i v, vs[i]? = some v → ∃ cond, s'.conds[s.sc + i]? = some cond ∧
    cond.prepared = (senSnipCondInit nstrOpen v).2.prepared
  rest : ∀ i, i < s.sc ∨ s.sc + vs.length ≤ i → s'.conds[i]? = s.conds[i]?

variable {nstrOpen allocConds} {vs ws : List (List UInt8)} {s s' s'' : ScanState}

theorem CondsFor.left (h : CondsFor nstrOpen allocConds s.conds s.sc (vs ++ ws)) :
    CondsFor nstrOpen allocConds s.conds s.sc vs := by
  intro i v hi
  have hlt : i < vs.length := (List.getElem?_eq_some_iff.mp hi).1
  exact h i v (by rwa [List.getElem?_append_left hlt])

/-- The conditions of the later keywords are as they were. -/
theorem CondsFor.right (h : CondsFor nstrOpen allocConds s.conds s.sc (vs ++ ws))
    (hs : Scanned nstrOpen vs s s') : CondsFor nstrOpen allocConds s'.conds s'.sc ws := by
  intro i v hi
  obtain ⟨hinit, cond, hcond, hprep⟩ := h (vs.length + i) v (by
    rwa [List.getElem?_append_right (Nat.le_add_right _ _), Nat.add_sub_cancel_left])
  refine ⟨hinit, cond, ?_, hprep⟩
  rw [hs.sc, hs.rest _ (Or.inr (by omega)), Nat.add_assoc]
  exact hcond

namespace Scanned

theorem refl : Scanned nstrOpen [] s s := ⟨rfl, nofun, fun _ _ => rfl⟩

theorem trans (h : Scanned nstrOpen vs s s') (h' : Scanned nstrOpen ws s' s'') :
    Scanned nstrOpen (vs ++ ws) s s'' := by
  have hsc := h.sc
  refine ⟨?_, fun i v hi => ?_, fun i hi => ?_⟩
  · rw [h'.sc, hsc, List.length_append, Nat.add_assoc]
  · by_cases hlt : i < vs.length
    · rw [List.getElem?_append_left hlt] at hi
      rw [h'.rest _ (Or.inl (by omega))]
      exact h.conds i v hi
    · rw [List.getElem?_append_right (not_lt.mp hlt)] at hi
      have hplace : s'.sc + (i - vs.length) = s.sc + i := by omega
      rw [← hplace]
      exact h'.conds _ v hi
  · rw [List.length_append] at hi
    rw [h'.rest i (by omega), h.rest i (by omega)]

/-- One keyword: its condition is replaced. -/
theorem single {v : List UInt8} {cond₀ cond : SnipCond} (hcond₀ : s.conds[s.sc]? = some cond₀)
    (hprep : cond.prepared = (senSnipCondInit nstrOpen v).2.prepared)
    (hconds : s'.conds = s.conds.set s.sc cond) (hsc : s'.sc = s.sc + 1) :
    Scanned nstrOpen [v] s s' := by
  have hlt := (List.getElem?_eq_some_iff.mp hcond₀).1
  refine ⟨hsc, fun i w hi => ?_, fun i hi => ?_⟩
  · obtain rfl : i = 0 := by
      have := (List.getElem?_eq_some_iff.mp hi).1
      simpa using this
    obtain rfl : v = w := Option.some.inj hi
    rw [hconds, Nat.add_zero, List.getElem?_set_self hlt]
    exact ⟨cond, rfl, hprep⟩
  · rw [List.length_singleton] at hi
    rw [hconds, List.getElem?_set_ne (by omega)]

end Scanned

/-- The end of a nested call that succeeded. -/
theorem scanCombine_success (op : SelOperator) (outer s : ScanState) :
    (scanCombine op outer (.success, s)).1 = .success ∧
      (scanCombine op outer (.success, s)).2.found = op.apply outer.found s.found ∧
      (scanCombine op outer (.success, s)).2.conds = s.conds ∧
      (scanCombine op outer (.success, s)).2.sc = s.sc := by
  cases op <;> exact ⟨rfl, rfl, rfl, rfl⟩

/-- The preparation of a condition that serves a keyword. -/
theorem scanCond_spec {v : List UInt8} {conds : List SnipCond} {sc : Nat}
    (h : CondsFor nstrOpen allocConds conds sc [v]) :
    ∃ cond₀ cond, conds[sc]? = some cond₀ ∧
      scanCond nstrOpen allocConds conds sc v = some (.success, cond) ∧
      cond.prepared = (senSnipCondInit nstrOpen v).2.prepared ∧ cond.found = 0 ∧
      cond.stopflag = .nonstop := by
  obtain ⟨hinit, cond₀, hcond₀, hprep⟩ := h 0 v rfl
  rw [Nat.add_zero] at hcond₀
  cases allocConds with
  | true =>
      obtain ⟨x, -, hfound, hflag⟩ := senSnipCondInit_ready hinit ⟨[], [], rfl, [], .none⟩
      refine ⟨cond₀, (senSnipCondInit nstrOpen v).2, hcond₀, ?_, rfl, hfound, hflag⟩
      rw [scanCond, hcond₀, Option.map_some, if_pos rfl, ← hinit]
  | false =>
      refine ⟨cond₀, senSnipCondReinit cond₀, hcond₀, ?_, hprep rfl, rfl, rfl⟩
      rw [scanCond, hcond₀, Option.map_some, if_neg (by decide)]

variable (q : SenQuery) (t : Text) (sid : Nat)

mutual

theorem scanCell_spec : ∀ (e : Cell) (ope : Option Op) (op : SelOperator) (s : ScanState),
    CondsFor nstrOpen allocConds s.conds s.sc e.leaves →
    ∃ s', scanCell nstrOpen q t sid allocConds e ope op s = some (.success, s') ∧
      Scanned nstrOpen e.leaves s s' ∧
      s'.found = (evalCell q.defaultOp (fun _ => occursIn nstrOpen t) ope e).elim s.found
        (op.apply s.found)
  | .nil, _, _, s, _ => ⟨s, rfl, .refl, rfl⟩
  | .op _, _, _, s, _ => ⟨s, rfl, .refl, rfl⟩
  | .bulk v, ope, op, s, h => by
      obtain ⟨cond₀, cond, hcond₀, hcond, hprep, hfound, hflag⟩ := scanCond_spec h
      obtain ⟨cond', score', hkeyword, hprep'⟩ := scanKeyword_spec (t := t) (h 0 v rfl).1 hprep
        hfound hflag sid op (q.optFor ope s.opt) s.found s.score
      refine ⟨{
        opt := q.optFor ope s.opt
        conds := s.conds.set s.sc cond'
        sc := s.sc + 1
        found := op.apply s.found (occursIn nstrOpen t v)
        score := score' }, ?_, .single hcond₀ (hprep'.trans hprep) rfl rfl, rfl⟩
      rw [scanCell, hcond, Option.bind_some]
      show (if SenRc.success = .success then _ else _) = _
      rw [if_pos rfl, hkeyword]
      rfl
  | .list l, ope, op, s, h => by
      obtain ⟨s', hrun, hscanned, hfound⟩ := scanCells_spec l true none q.defaultOp
        { s with found := false, score := 0 } rfl h
      obtain ⟨-, hcombine, hconds, hsc⟩ := scanCombine_success op s s'
      refine ⟨_, ?_, ⟨?_, ?_, ?_⟩, hcombine.trans ?_⟩
      · rw [scanCell, hrun, Option.map_some]
      · exact hsc.trans hscanned.sc
      · rw [hconds]
        exact hscanned.conds
      · rw [hconds]
        exact hscanned.rest
      · exact congrArg _ hfound

/-- **A list of cells.** The loop of `scan_query` computes the fold. -/
theorem scanCells_spec : ∀ (c : List Cell) (first : Bool) (ope : Option Op) (op1 : SelOperator)
    (s : ScanState), op1 = (ope.map Op.op).getD q.defaultOp →
    CondsFor nstrOpen allocConds s.conds s.sc (leaves first c) →
    ∃ s', scanCells nstrOpen q t sid allocConds c first ope op1 s = some (.success, s') ∧
      Scanned nstrOpen (leaves first c) s s' ∧
      s'.found = evalCells q.defaultOp (fun _ => occursIn nstrOpen t) first ope s.found c
  | [], _, _, _, s, _, _ => ⟨s, rfl, .refl, rfl⟩
  | .op o :: c, first, ope, op1, s, hop, h => by
      unfold leaves at h ⊢
      unfold scanCells evalCells
      split_ifs at h ⊢
      · match c, h with
        | [], _ => exact ⟨s, rfl, .refl, rfl⟩
        | _ :: c, h => exact scanCells_spec c first ope op1 s hop h
      · exact scanCells_spec c first (some o) o.op s rfl h
  | .nil :: c, first, ope, op1, s, hop, h => scanCells_spec c false none q.defaultOp s rfl h
  | .bulk v :: c, first, ope, op1, s, hop, h => by
      obtain ⟨s₁, hcell, hscanned, hfound⟩ :=
        scanCell_spec (.bulk v) ope (if first then .or else op1) s
            (h.left : CondsFor nstrOpen allocConds s.conds s.sc [v])
      obtain ⟨s', hrun, hscanned', hfound'⟩ := scanCells_spec c false none q.defaultOp s₁ rfl
        (CondsFor.right h hscanned)
      refine ⟨s', ?_, hscanned.trans hscanned', ?_⟩
      · show (scanCell nstrOpen q t sid allocConds (.bulk v) ope _ s).bind _ = _
        rw [hcell]
        exact hrun
      · rw [hfound', hfound, hop]
        rfl
  | .list l :: c, first, ope, op1, s, hop, h => by
      obtain ⟨s₁, hcell, hscanned, hfound⟩ :=
        scanCell_spec (.list l) ope (if first then .or else op1) s h.left
      obtain ⟨s', hrun, hscanned', hfound'⟩ := scanCells_spec c false none q.defaultOp s₁ rfl
        (h.right hscanned)
      refine ⟨s', ?_, hscanned.trans hscanned', ?_⟩
      · show (scanCell nstrOpen q t sid allocConds (.list l) ope _ s).bind _ = _
        rw [hcell]
        exact hrun
      · rw [hfound', hfound, hop]
        rfl

end

end

/-- A normaliser that drops blanks, as `SEN_STR_REMOVEBLANK` does. -/
def dropBlanks (keyword : List UInt8) : Option (List UInt8) :=
  some (keyword.filter (· ≠ 0x20))

/-- The text `ab`. -/
def sampleText : Text := ⟨[0x61, 0x62], [1, 1], rfl, [0x61, 0x62], .utf8⟩

/-- A query with the default operator `or`. -/
def sampleQuery (expr : List Cell) : SenQuery where
  defaultOp := .or
  opt := ⟨.exact, 0, 0, none, 5⟩
  defaultMode := .exact
  weightOffset := 0
  expr := expr
  curExpr := 2
  snipConds := none

section

variable {nstrOpen : List UInt8 → Option (List UInt8)} {q : SenQuery}

/-- A query that can be scanned: its keywords can be initialised, and the conditions can be
allocated for all of them or were prepared by an earlier scan. -/
def SenQuery.Scannable (nstrOpen : List UInt8 → Option (List UInt8)) (q : SenQuery) : Prop :=
  match q.snipConds with
  | none => (leaves true q.expr).length ≤ q.curExpr ∧
      ∀ v ∈ leaves true q.expr, (senSnipCondInit nstrOpen v).1 = .success
  | some conds => CondsFor nstrOpen false conds 0 (leaves true q.expr)

/-- Prepared conditions serve another scan. -/
theorem Scanned.condsFor {vs : List (List UInt8)} {allocConds : Bool} {s s' : ScanState}
    (h : Scanned nstrOpen vs s s') (hconds : CondsFor nstrOpen allocConds s.conds s.sc vs)
    (allocConds' : Bool) : CondsFor nstrOpen allocConds' s'.conds s.sc vs := by
  intro i v hi
  obtain ⟨cond, hcond, hprep⟩ := h.conds i v hi
  exact ⟨(hconds i v hi).1, cond, hcond, fun _ => hprep⟩

/-- The loop over the texts finds whether the fold is true of one of them. -/
theorem scanTexts_spec {allocConds : Bool} (texts : List Text) (sid : Nat) (s : ScanState)
    (h : CondsFor nstrOpen allocConds s.conds 0 (leaves true q.expr))
    (h' : CondsFor nstrOpen false s.conds 0 (leaves true q.expr) ∨ texts ≠ []) :
    ∃ s', scanTexts nstrOpen q allocConds (texts.map some) sid s = some (.success, s') ∧
      s'.found = (s.found || texts.any fun t =>
        evalExpr q.defaultOp (fun _ => occursIn nstrOpen t) q.expr) ∧
      CondsFor nstrOpen false s'.conds 0 (leaves true q.expr) := by
  induction texts generalizing allocConds sid s with
  | nil =>
      refine ⟨s, rfl, (Bool.or_false _).symm, ?_⟩
      exact h'.resolve_right fun hne => hne rfl
  | cons t texts ih =>
      obtain ⟨s₁, hrun, hscanned, hvalue⟩ := scanCells_spec q t sid q.expr true none q.defaultOp
        { s with sc := 0, found := false, score := 0 } rfl h
      obtain ⟨s', hrest, hfound, hconds⟩ := ih (sid + 1)
        { s₁ with found := s.found || s₁.found, score := s.score + s₁.score }
        (hscanned.condsFor h false) (Or.inl (hscanned.condsFor h false))
      refine ⟨s', ?_, ?_, hconds⟩
      · rw [List.map_cons, scanTexts, scanQuery, hrun]
        exact hrest
      · rw [hfound, List.any_cons, ← Bool.or_assoc]
        show (s.found || s₁.found || _) = _
        rw [hvalue]
        rfl

/-- **A scan of some texts.** It finds whether the fold is true of one of them, and the query
can be scanned again. -/
theorem senQueryScan_spec (h : q.Scannable nstrOpen) {texts : List Text} (hne : texts ≠ [])
    (found : Bool) (score : Int) :
    ∃ q' score', senQueryScan nstrOpen true q (texts.map some) false found score =
        some (.success, q', texts.any (fun t =>
          evalExpr q.defaultOp (fun _ => occursIn nstrOpen t) q.expr), score') ∧
      q'.Scannable nstrOpen ∧ q'.expr = q.expr ∧ q'.defaultOp = q.defaultOp := by
  have hne' : texts.map some ≠ [] := by
    rw [ne_eq, List.map_eq_nil_iff]
    exact hne
  unfold SenQuery.Scannable at h
  cases hconds : q.snipConds with
  | none =>
      rw [hconds] at h
      obtain ⟨hlen, hinit⟩ := h
      have hcondsFor : CondsFor nstrOpen true (List.replicate q.curExpr .zero) 0
          (leaves true q.expr) := by
        intro i v hi
        obtain ⟨hlt, hv⟩ := List.getElem?_eq_some_iff.mp hi
        refine ⟨hinit v (hv ▸ List.getElem_mem hlt), .zero, ?_, nofun⟩
        rw [List.getElem?_replicate, if_pos (by omega)]
      obtain ⟨s', hrun, hfound, hprep⟩ := scanTexts_spec (q := q) texts 1
        ⟨q.opt, List.replicate q.curExpr .zero, 0, false, 0⟩ hcondsFor (Or.inr hne)
      refine ⟨{ q with opt := s'.opt, snipConds := some s'.conds }, s'.score, ?_, hprep, rfl, rfl⟩
      rw [Bool.false_or] at hfound
      rw [senQueryScan, if_neg hne', hconds, ← hfound]
      show (scanTexts _ _ _ _ _ _).map _ = _
      rw [hrun]
      rfl
  | some conds =>
      rw [hconds] at h
      obtain ⟨s', hrun, hfound, hprep⟩ := scanTexts_spec (q := q) texts 1
        ⟨q.opt, conds, 0, false, 0⟩ h (Or.inl h)
      refine ⟨{ q with opt := s'.opt, snipConds := some s'.conds }, s'.score, ?_, hprep, rfl, rfl⟩
      rw [Bool.false_or] at hfound
      rw [senQueryScan, if_neg hne', hconds, ← hfound]
      show (scanTexts _ _ _ _ _ _).map _ = _
      rw [hrun]
      rfl

end

end Senna.Query
