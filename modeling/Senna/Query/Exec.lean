/-
# Executing a query

`exec_query` walks the cells and combines the results of `sen_index_select` in records
objects; `sen_query_exec` runs it up to three times, each time with a more tolerant mode.
The index and the records are an `Engine`: everything here holds for all of them.

A query is used again and again. What one use leaves behind is the options of the last
keyword, which every keyword sets anew, and the weight offset, which the escalation
lowers and nothing raises again. `Alike` says that two states of a query differ in
nothing that an execution reads.
-/

import Senna.Query.Highlight

namespace Senna.Query

open Senna.Snip

universe u v

/-- The value of the enumerator. -/
def SelMode.code : SelMode → Int
  | exact => 0
  | partial_ => 1
  | unsplit => 2
  | near => 3
  | near2 => 4
  | similar => 5
  | termExtract => 6
  | prefix_ => 7
  | suffix => 8

/-- `sen_wv_mode` with what `get_weight` reads in that mode. -/
inductive Weighting
  | none
  | static (weightVector : List Int) (vectorSize : Int)
  | dynamic (func : Nat → Int)
  | constant (vectorSize : Int)

/-- `sen_query` with what `sen_query_exec` uses. `weightSet` is what `section_weight_cb` looks
up, when the query has a set of section weights. -/
structure ExecQuery extends SenQuery where
  escalationThreshold : Int
  escalationDecaystep : Int
  weightSet : Option (Nat → Option Int)

/-- The choice of the weight mode, as all selections make it. -/
def ExecQuery.weighting (q : ExecQuery) (opt : SelectOptarg) : Weighting :=
  match q.weightSet with
  | some set => .dynamic fun sid => (set sid).getD 0
  | none =>
      if opt.vectorSize ≠ 0 then
        match opt.weightVector with
        | some w => .static w opt.vectorSize
        | none => .constant opt.vectorSize
      else .none

/-- An index and the records operations: `sen_records_nhits`, `sen_records_open` with the
units of another object, `sen_index_select` with mode, interval, threshold and weights,
and the effect of the set operations on their first argument. -/
structure Engine (ρ : Type u) where
  nhits : ρ → Nat
  recordsOpen : ρ → ρ
  select : List UInt8 → SelMode → Int → Int → Weighting → SelOperator → ρ → SenRc × ρ
  union : ρ → ρ → ρ
  intersect : ρ → ρ → ρ
  subtract : ρ → ρ → ρ

section

variable {ρ : Type u} (E : Engine ρ) (q : ExecQuery)

/-- The options of a keyword after the operator cell `ope`. -/
def ExecQuery.execOptFor (ope : Option Op) (opt : SelectOptarg) : SelectOptarg :=
  let opt := q.toSenQuery.optFor ope opt
  if ope.bind Op.mode = some .similar then { opt with maxInterval := q.defaultMode.code } else opt

/-- The end of `exec_query`: `s` is joined to `r`. -/
def Engine.combine (op : SelOperator) (r s : ρ) : ρ :=
  match op with
  | .or => E.union r s
  | .and => E.intersect r s
  | .but => E.subtract r s
  | .adjust => r

/-- `exec_query` around its loop `run`. The loop works on `r` itself when `r` is empty; when
a selection failed nothing is joined. -/
def Engine.around (op : SelOperator) (run : SelectOptarg × ρ → Bool × SelectOptarg × ρ)
    (st : SelectOptarg × ρ) : SelectOptarg × ρ :=
  let (opt, r) := st
  let n := E.nhits r
  if n = 0 ∧ op ≠ .or then (opt, r)
  else
    match run (opt, if n = 0 then r else E.recordsOpen r) with
    | (ok, opt, s) => (opt, if n = 0 then s else if ok then E.combine op r s else r)

/-- The loop goes on with `run` unless it was left. -/
def proceed {σ : Type v} (run : σ → Bool × σ) : Bool × σ → Bool × σ
  | (true, st) => run st
  | (false, st) => (false, st)

mutual

/-- The `switch` of `exec_query` for an operand, with `op` for `*opp`: whether the walk goes
on, `q->opt` and the records. -/
def execCell : Cell → Option Op → SelOperator → SelectOptarg × ρ → Bool × SelectOptarg × ρ
  | .nil, _, _, st => (true, st)
  | .op _, _, _, st => (true, st)
  | .bulk v, ope, op, (opt, s) =>
      let opt := q.execOptFor ope opt
      let (rc, s) := E.select v opt.mode opt.maxInterval opt.similarityThreshold
        (q.weighting opt) op s
      (rc = .success, opt, s)
  | .list l, _, op, st =>
      (true, E.around op (fun st => execCells l true none q.defaultOp st) st)

/-- The loop of `exec_query`. `first` says that `opp` still points to `op0`. -/
def execCells : List Cell → Bool → Option Op → SelOperator → SelectOptarg × ρ →
    Bool × SelectOptarg × ρ
  | [], _, _, _, st => (true, st)
  | .op o :: c, first, ope, op1, st =>
      if first ∧ o.op = .but then
        match c with
        | [] => (true, st)
        | _ :: c => execCells c first ope op1 st
      else execCells c first (some o) o.op st
  | e :: c, first, ope, op1, st =>
      proceed (fun st => execCells c false none q.defaultOp st)
        (execCell e ope (if first then .or else op1) st)

end

/-- `exec_query(i, q, c, r, op)`: `q->opt` and the records. -/
def execQuery (c : List Cell) (op : SelOperator) (st : SelectOptarg × ρ) : SelectOptarg × ρ :=
  E.around op (fun st => execCells E q c true none q.defaultOp st) st

/-- One level of `sen_query_exec`. -/
def Engine.level (mode : SelMode) (op : SelOperator) (qr : ExecQuery × ρ) : ExecQuery × ρ :=
  let q := { qr.1 with defaultMode := mode }
  let (opt, r) := execQuery E q q.expr op (q.opt, qr.2)
  ({ q with opt := opt }, r)

/-- `q->weight_offset -= q->escalation_decaystep;` -/
def ExecQuery.lower : ExecQuery :=
  { q with weightOffset := q.weightOffset - q.escalationDecaystep }

/-- `(p >= 0) ? (p >= sen_records_nhits(r)) : (-p & 2 ^ bit)` -/
def Engine.escalates (p : Int) (bit : Nat) (r : ρ) : Bool :=
  if 0 ≤ p then decide ((E.nhits r : Int) ≤ p) else (-p).toNat.testBit bit

/-- The exact level, when `p >= 0 || (-p & 1)`. -/
def Engine.exactLevel (op : SelOperator) (qr : ExecQuery × ρ) : ExecQuery × ρ :=
  let p := qr.1.escalationThreshold
  if 0 ≤ p ∨ (-p).toNat.testBit 0 then E.level .exact op qr else qr

/-- A further level, with the bit of the threshold that asks for it. -/
def Engine.furtherLevel (bit : Nat) (mode : SelMode) (op : SelOperator) (qr : ExecQuery × ρ) :
    ExecQuery × ρ :=
  if E.escalates qr.1.escalationThreshold bit qr.2 then E.level mode op (qr.1.lower, qr.2) else qr

/-- `sen_query_exec`: the return code, the query and the records. -/
def senQueryExec (r : ρ) (op : SelOperator) : SenRc × ExecQuery × ρ :=
  if q.expr = [] then (.invalidArgument, q, r)
  else
    (.success, E.furtherLevel 2 .partial_ op
      (E.furtherLevel 1 .unsplit op (E.exactLevel op (q, r))))

/-- Weights come from a weight vector or a set of section weights, not from the cells. -/
def ExecQuery.Weighted : Prop := q.weightSet.isSome ∨ q.opt.weightVector.isSome

/-- The execution stays at the exact level. -/
def Engine.StaysExact (r : ρ) (op : SelOperator) : Prop :=
  let (q', r') := E.exactLevel op (q, r)
  E.escalates q'.escalationThreshold 1 r' = false ∧ E.escalates q'.escalationThreshold 2 r' = false

/-- The execution lowers no weight that is used: there is nothing to execute, the weights are
given for the sections, the decay step is zero, or there is no escalation. -/
def Engine.Steady (r : ρ) (op : SelOperator) : Prop :=
  q.expr = [] ∨ q.Weighted ∨ q.escalationDecaystep = 0 ∨ E.StaysExact q r op

end

/-- The weights that do not come from the cells are the same. -/
structure SameWeights (opt opt' : SelectOptarg) : Prop where
  vector : opt'.weightVector = opt.weightVector
  size : opt.weightVector.isSome → opt'.vectorSize = opt.vectorSize

namespace SameWeights

variable {opt opt' opt'' : SelectOptarg}

theorem refl (opt : SelectOptarg) : SameWeights opt opt := ⟨rfl, fun _ => rfl⟩

theorem symm (h : SameWeights opt opt') : SameWeights opt' opt :=
  ⟨h.vector.symm, fun hsome => (h.size (h.vector ▸ hsome)).symm⟩

theorem trans (h : SameWeights opt opt') (h' : SameWeights opt' opt'') : SameWeights opt opt'' :=
  ⟨h'.vector.trans h.vector, fun hsome =>
    (h'.size (h.vector.symm ▸ hsome)).trans (h.size hsome)⟩

/-- Setting the options of a keyword keeps a weight vector. -/
theorem optFor (q : SenQuery) (ope : Option Op) (opt : SelectOptarg) :
    SameWeights opt (q.optFor ope opt) := by
  cases ope with
  | none =>
      refine ⟨rfl, fun hsome => ?_⟩
      obtain ⟨w, hw⟩ := Option.isSome_iff_exists.mp hsome
      simp [SenQuery.optFor, hw]
  | some o =>
      refine ⟨rfl, fun hsome => ?_⟩
      obtain ⟨w, hw⟩ := Option.isSome_iff_exists.mp hsome
      simp [SenQuery.optFor, hw]

theorem execOptFor (q : ExecQuery) (ope : Option Op) (opt : SelectOptarg) :
    SameWeights opt (q.execOptFor ope opt) := by
  have h := optFor q.toSenQuery ope opt
  unfold ExecQuery.execOptFor
  split_ifs
  · exact ⟨h.vector, h.size⟩
  · exact h

end SameWeights

/-- Two states of one query that differ in nothing an execution reads. -/
structure Alike (q q' : ExecQuery) : Prop where
  defaultOp : q'.defaultOp = q.defaultOp
  expr : q'.expr = q.expr
  threshold : q'.escalationThreshold = q.escalationThreshold
  decaystep : q'.escalationDecaystep = q.escalationDecaystep
  weightSet : q'.weightSet = q.weightSet
  opt : SameWeights q.opt q'.opt
  offset : ¬q.Weighted → q'.weightOffset = q.weightOffset

namespace Alike

variable {q q' q'' : ExecQuery}

theorem refl (q : ExecQuery) : Alike q q := ⟨rfl, rfl, rfl, rfl, rfl, .refl _, fun _ => rfl⟩

theorem weighted (h : Alike q q') : q'.Weighted ↔ q.Weighted := by
  unfold ExecQuery.Weighted
  rw [h.weightSet, h.opt.vector]

theorem trans (h : Alike q q') (h' : Alike q' q'') : Alike q q'' where
  defaultOp := h'.defaultOp.trans h.defaultOp
  expr := h'.expr.trans h.expr
  threshold := h'.threshold.trans h.threshold
  decaystep := h'.decaystep.trans h.decaystep
  weightSet := h'.weightSet.trans h.weightSet
  opt := h.opt.trans h'.opt
  offset hw := (h'.offset (h.weighted.not.mpr hw)).trans (h.offset hw)

/-- The weights of a keyword. -/
theorem weighting (h : Alike q q') {opt opt' : SelectOptarg} (hopt : SameWeights opt opt')
    (hq : SameWeights q.opt opt) (ope : Option Op) :
    q'.weighting (q'.execOptFor ope opt') = q.weighting (q.execOptFor ope opt) := by
  have hframe := SameWeights.execOptFor q ope opt
  have hframe' := SameWeights.execOptFor q' ope opt'
  have hsame := (hframe.symm.trans hopt).trans hframe'
  unfold ExecQuery.weighting
  rw [h.weightSet]
  cases hset : q.weightSet with
  | some set => rfl
  | none =>
      have hsize : (q'.execOptFor ope opt').vectorSize = (q.execOptFor ope opt).vectorSize := by
        cases hvector : q.opt.weightVector with
        | some w =>
            apply hsame.size
            rw [hframe.vector, hq.vector, hvector]
            rfl
        | none =>
            have hoffset := h.offset (by
              unfold ExecQuery.Weighted
              rw [hset, hvector]
              exact fun hw => hw.elim Bool.false_ne_true Bool.false_ne_true)
            have hnone : opt.weightVector = none := hq.vector.trans hvector
            have hnone' : opt'.weightVector = none := hopt.vector.trans hnone
            unfold ExecQuery.execOptFor
            cases ope with
            | none => simp [SenQuery.optFor, hnone, hnone', hoffset]
            | some o =>
                simp only [SenQuery.optFor, hnone, hnone', hoffset, Option.isNone_none, if_true]
                split_ifs <;> rfl
      simp only [hsame.vector, hsize]

end Alike

section

variable {ρ : Type u} {E : Engine ρ} {q q' : ExecQuery}

/-- Two walks that started with options like `opt`: they ended the same way, with the same
records. -/
structure Agree (opt : SelectOptarg) (a b : Bool × SelectOptarg × ρ) : Prop where
  ok : b.1 = a.1
  records : b.2.2 = a.2.2
  same : SameWeights a.2.1 b.2.1
  frame : SameWeights opt a.2.1

theorem around_agree (op : SelOperator)
    {run run' : SelectOptarg × ρ → Bool × SelectOptarg × ρ}
    (hrun : ∀ opt opt' s, SameWeights q.opt opt → SameWeights opt opt' →
      Agree opt (run (opt, s)) (run' (opt', s)))
    {opt opt' : SelectOptarg} (hq : SameWeights q.opt opt) (hopt : SameWeights opt opt') (r : ρ) :
    Agree opt (true, E.around op run (opt, r)) (true, E.around op run' (opt', r)) := by
  by_cases hskip : E.nhits r = 0 ∧ op ≠ .or
  · simp only [Engine.around, if_pos hskip]
    exact ⟨rfl, rfl, hopt, .refl _⟩
  · obtain ⟨hok, hrecords, hsame, hframe⟩ :=
      hrun opt opt' (if E.nhits r = 0 then r else E.recordsOpen r) hq hopt
    simp only [Engine.around, if_neg hskip]
    exact ⟨rfl, by simp only [hok, hrecords], hsame, hframe⟩

/-- One operand after the other. -/
theorem Agree.next {opt : SelectOptarg} {a b : Bool × SelectOptarg × ρ} (h : Agree opt a b)
    (hq : SameWeights q.opt opt) {run run' : SelectOptarg × ρ → Bool × SelectOptarg × ρ}
    (hrun : ∀ o o' s, SameWeights q.opt o → SameWeights o o' →
      Agree o (run (o, s)) (run' (o', s))) :
    Agree opt (proceed run a) (proceed run' b) := by
  obtain ⟨ok, o, s⟩ := a
  obtain ⟨ok', o', s'⟩ := b
  obtain ⟨hok, hrecords, hsame, hframe⟩ := h
  simp only at hok hrecords hsame hframe
  subst hok hrecords
  cases ok' with
  | false => exact ⟨rfl, rfl, hsame, hframe⟩
  | true =>
      obtain ⟨hok, hrecords, hsame', hframe'⟩ := hrun o o' s' (hq.trans hframe) hsame
      exact ⟨hok, hrecords, hsame', hframe.trans hframe'⟩

mutual

theorem execCell_agree (h : Alike q q') (hmode : q'.defaultMode = q.defaultMode) :
    ∀ (e : Cell) (ope : Option Op) (op : SelOperator) (opt opt' : SelectOptarg) (s : ρ),
      SameWeights q.opt opt → SameWeights opt opt' →
      Agree opt (execCell E q e ope op (opt, s)) (execCell E q' e ope op (opt', s))
  | .nil, _, _, _, _, _, _, hopt => ⟨rfl, rfl, hopt, .refl _⟩
  | .op _, _, _, _, _, _, _, hopt => ⟨rfl, rfl, hopt, .refl _⟩
  | .bulk v, ope, op, opt, opt', s, hq, hopt => by
      have hframe := SameWeights.execOptFor q ope opt
      have hsame := (hframe.symm.trans hopt).trans (SameWeights.execOptFor q' ope opt')
      have hweights := h.weighting hopt hq ope
      have hread : (q'.execOptFor ope opt').mode = (q.execOptFor ope opt).mode ∧
          (q'.execOptFor ope opt').maxInterval = (q.execOptFor ope opt).maxInterval ∧
          (q'.execOptFor ope opt').similarityThreshold =
            (q.execOptFor ope opt).similarityThreshold := by
        unfold ExecQuery.execOptFor
        cases ope with
        | none => simp [SenQuery.optFor, hmode]
        | some o => split_ifs <;> simp [SenQuery.optFor, hmode]
      obtain ⟨hm, hi, ht⟩ := hread
      simp only [execCell, hm, hi, ht, hweights]
      exact ⟨rfl, rfl, hsame, hframe⟩
  | .list l, _, op, opt, opt', s, hq, hopt => by
      have hrun := around_agree (E := E) op (fun opt opt' s hq hopt =>
        execCells_agree h hmode l true none q.defaultOp opt opt' s hq hopt) hq hopt s
      simpa only [execCell, h.defaultOp] using hrun

/-- **The walk over the cells.** From states that are alike it gives the same records. -/
theorem execCells_agree (h : Alike q q') (hmode : q'.defaultMode = q.defaultMode) :
    ∀ (c : List Cell) (first : Bool) (ope : Option Op) (op1 : SelOperator)
      (opt opt' : SelectOptarg) (s : ρ), SameWeights q.opt opt → SameWeights opt opt' →
      Agree opt (execCells E q c first ope op1 (opt, s)) (execCells E q' c first ope op1 (opt', s))
  | [], _, _, _, _, _, _, _, hopt => ⟨rfl, rfl, hopt, .refl _⟩
  | .op o :: c, first, ope, op1, opt, opt', s, hq, hopt => by
      unfold execCells
      split_ifs
      · match c with
        | [] => exact ⟨rfl, rfl, hopt, .refl _⟩
        | _ :: c => exact execCells_agree h hmode c first ope op1 opt opt' s hq hopt
      · exact execCells_agree h hmode c first (some o) o.op opt opt' s hq hopt
  | .nil :: c, first, ope, op1, opt, opt', s, hq, hopt => by
      have hrun := execCells_agree h hmode c false none q.defaultOp opt opt' s hq hopt
      simpa only [execCells, execCell, proceed, h.defaultOp] using hrun
  | .bulk v :: c, first, ope, op1, opt, opt', s, hq, hopt => by
      have hcell := execCell_agree h hmode (.bulk v) ope (if first then .or else op1)
        opt opt' s hq hopt
      have hnext := hcell.next hq (fun o o' s hq hopt =>
        execCells_agree h hmode c false none q.defaultOp o o' s hq hopt)
      simpa only [execCells, h.defaultOp] using hnext
  | .list l :: c, first, ope, op1, opt, opt', s, hq, hopt => by
      have hcell := execCell_agree h hmode (.list l) ope (if first then .or else op1)
        opt opt' s hq hopt
      have hnext := hcell.next hq (fun o o' s hq hopt =>
        execCells_agree h hmode c false none q.defaultOp o o' s hq hopt)
      simpa only [execCells, h.defaultOp] using hnext

end

/-- One level from states that are alike: the same records, and states that are alike. -/
theorem level_alike (h : Alike q q') (mode : SelMode) (op : SelOperator) (r : ρ) :
    (E.level mode op (q', r)).2 = (E.level mode op (q, r)).2 ∧
      Alike (E.level mode op (q, r)).1 (E.level mode op (q', r)).1 ∧
      Alike q (E.level mode op (q, r)).1 := by
  have hmode : Alike { q with defaultMode := mode } { q' with defaultMode := mode } :=
    ⟨h.defaultOp, h.expr, h.threshold, h.decaystep, h.weightSet, h.opt, h.offset⟩
  obtain ⟨-, hrecords, hsame, hframe⟩ := around_agree (E := E) op (fun opt opt' s hq hopt =>
    execCells_agree hmode rfl q.expr true none q.defaultOp opt opt' s hq hopt)
    (.refl q.opt) h.opt r
  simp only at hrecords hsame hframe
  have hq' : E.level mode op (q', r) =
      ({ q' with
        defaultMode := mode
        opt := (E.around op (fun st => execCells E { q' with defaultMode := mode } q.expr true none
          q.defaultOp st) (q'.opt, r)).1 },
        (E.around op (fun st => execCells E { q' with defaultMode := mode } q.expr true none
          q.defaultOp st) (q'.opt, r)).2) := by
    unfold Engine.level execQuery
    simp only [h.expr, h.defaultOp]
  rw [hq']
  refine ⟨hrecords, ?_, ⟨rfl, rfl, rfl, rfl, rfl, hframe, fun _ => rfl⟩⟩
  exact ⟨h.defaultOp, h.expr, h.threshold, h.decaystep, h.weightSet, hsame, fun hw =>
    h.offset fun hq => hw (hq.imp_right fun hsome =>
      (congrArg Option.isSome hframe.vector).trans hsome)⟩

theorem exactLevel_alike (h : Alike q q') (op : SelOperator) (r : ρ) :
    (E.exactLevel op (q', r)).2 = (E.exactLevel op (q, r)).2 ∧
      Alike (E.exactLevel op (q, r)).1 (E.exactLevel op (q', r)).1 ∧
      Alike q (E.exactLevel op (q, r)).1 := by
  unfold Engine.exactLevel
  simp only [h.threshold]
  split_ifs
  · exact level_alike h .exact op r
  · exact ⟨rfl, h, .refl q⟩

theorem Alike.lower (h : Alike q q') : Alike q.lower q'.lower where
  defaultOp := h.defaultOp
  expr := h.expr
  threshold := h.threshold
  decaystep := h.decaystep
  weightSet := h.weightSet
  opt := h.opt
  offset hw := by
    show q'.weightOffset - q'.escalationDecaystep = q.weightOffset - q.escalationDecaystep
    rw [h.offset hw, h.decaystep]

theorem furtherLevel_alike (h : Alike q q') (bit : Nat) (mode : SelMode) (op : SelOperator)
    (r : ρ) :
    (E.furtherLevel bit mode op (q', r)).2 = (E.furtherLevel bit mode op (q, r)).2 ∧
      Alike (E.furtherLevel bit mode op (q, r)).1 (E.furtherLevel bit mode op (q', r)).1 := by
  unfold Engine.furtherLevel
  simp only [h.threshold]
  split_ifs
  · obtain ⟨hrecords, halike, -⟩ := level_alike (E := E) h.lower mode op r
    exact ⟨hrecords, halike⟩
  · exact ⟨rfl, h⟩

/-- Lowering the weights does not matter when they are not used, or by zero. -/
theorem furtherLevel_frame (hkeep : q.Weighted ∨ q.escalationDecaystep = 0) (bit : Nat)
    (mode : SelMode) (op : SelOperator) (r : ρ) :
    Alike q (E.furtherLevel bit mode op (q, r)).1 := by
  have hlower : Alike q q.lower := by
    refine ⟨rfl, rfl, rfl, rfl, rfl, .refl _, fun hw => ?_⟩
    rcases hkeep with hweighted | hzero
    · exact absurd hweighted hw
    · show q.weightOffset - q.escalationDecaystep = q.weightOffset
      rw [hzero, Int.sub_zero]
  unfold Engine.furtherLevel
  split_ifs
  · exact hlower.trans (level_alike (E := E) (.refl q.lower) mode op r).2.2
  · exact .refl q

/-- **An execution** from states that are alike gives the same records. -/
theorem senQueryExec_alike (h : Alike q q') (r : ρ) (op : SelOperator) :
    (senQueryExec E q' r op).1 = (senQueryExec E q r op).1 ∧
      (senQueryExec E q' r op).2.2 = (senQueryExec E q r op).2.2 := by
  unfold senQueryExec
  rw [h.expr]
  split_ifs
  · exact ⟨rfl, rfl⟩
  · obtain ⟨hr₁, h₁, -⟩ := exactLevel_alike (E := E) h op r
    obtain ⟨hr₂, h₂⟩ := furtherLevel_alike (E := E) h₁ 1 .unsplit op (E.exactLevel op (q, r)).2
    obtain ⟨hr₃, -⟩ := furtherLevel_alike (E := E) h₂ 2 .partial_ op
      (E.furtherLevel 1 .unsplit op (E.exactLevel op (q, r))).2
    refine ⟨rfl, ?_⟩
    have heq₁ : E.exactLevel op (q', r) =
        ((E.exactLevel op (q', r)).1, (E.exactLevel op (q, r)).2) := Prod.ext rfl hr₁
    have heq₂ : E.furtherLevel 1 .unsplit op (E.exactLevel op (q', r)) =
        ((E.furtherLevel 1 .unsplit op ((E.exactLevel op (q', r)).1, (E.exactLevel op (q, r)).2)).1,
          (E.furtherLevel 1 .unsplit op (E.exactLevel op (q, r))).2) := by
      rw [heq₁]
      exact Prod.ext rfl hr₂
    rw [heq₂]
    exact hr₃

/-- **A steady execution** leaves a state that executes like the one before. -/
theorem senQueryExec_frame {r : ρ} {op : SelOperator} (h : E.Steady q r op) :
    Alike q (senQueryExec E q r op).2.1 := by
  unfold senQueryExec
  split_ifs with hexpr
  · exact .refl q
  · obtain ⟨-, -, h₁⟩ := exactLevel_alike (E := E) (.refl q) op r
    rcases h with h | h | h | h
    · exact absurd h hexpr
    · have h₂ := furtherLevel_frame (E := E) (Or.inl (h₁.weighted.mpr h)) 1 .unsplit op
        (E.exactLevel op (q, r)).2
      have h₃ := furtherLevel_frame (E := E) (Or.inl ((h₁.trans h₂).weighted.mpr h)) 2 .partial_ op
        (E.furtherLevel 1 .unsplit op (E.exactLevel op (q, r))).2
      exact h₁.trans (h₂.trans h₃)
    · have h₂ := furtherLevel_frame (E := E) (Or.inr (h₁.decaystep.trans h)) 1 .unsplit op
        (E.exactLevel op (q, r)).2
      have h₃ := furtherLevel_frame (E := E) (Or.inr ((h₁.trans h₂).decaystep.trans h)) 2
        .partial_ op (E.furtherLevel 1 .unsplit op (E.exactLevel op (q, r))).2
      exact h₁.trans (h₂.trans h₃)
    · have hunsplit : E.escalates (E.exactLevel op (q, r)).1.escalationThreshold 1
          (E.exactLevel op (q, r)).2 = false := h.1
      have hpart : E.escalates (E.exactLevel op (q, r)).1.escalationThreshold 2
          (E.exactLevel op (q, r)).2 = false := h.2
      have hstay : E.furtherLevel 1 .unsplit op (E.exactLevel op (q, r)) =
          E.exactLevel op (q, r) := by
        unfold Engine.furtherLevel
        rw [hunsplit]
        rfl
      rw [hstay]
      unfold Engine.furtherLevel
      rw [hpart]
      exact h₁

end

section

variable {nstrOpen : List UInt8 → Option (List UInt8)} {q : SenQuery}

section

variable {t : Text} {sid : Nat} {allocConds : Bool}

mutual

theorem scanCell_weights : ∀ (e : Cell) (ope : Option Op) (op : SelOperator) (s : ScanState)
    {rc : SenRc} {s' : ScanState},
    scanCell nstrOpen q t sid allocConds e ope op s = some (rc, s') → SameWeights s.opt s'.opt
  | .nil, _, _, s, _, _, h => by
      obtain rfl := (Prod.ext_iff.mp (Option.some.inj h)).2
      exact .refl _
  | .op _, _, _, s, _, _, h => by
      obtain rfl := (Prod.ext_iff.mp (Option.some.inj h)).2
      exact .refl _
  | .bulk v, ope, op, s, rc, s', h => by
      unfold scanCell at h
      obtain ⟨⟨rc₁, cond⟩, -, h⟩ := Option.bind_eq_some_iff.mp h
      simp only at h
      split_ifs at h
      · obtain ⟨_, -, h⟩ := Option.map_eq_some_iff.mp h
        obtain rfl := (Prod.ext_iff.mp h).2
        exact .optFor q ope s.opt
      · obtain rfl := (Prod.ext_iff.mp (Option.some.inj h)).2
        exact .optFor q ope s.opt
  | .list l, _, op, s, rc, s', h => by
      unfold scanCell at h
      obtain ⟨⟨rc₁, s₁⟩, hrun, h⟩ := Option.map_eq_some_iff.mp h
      obtain rfl := (Prod.ext_iff.mp h).2
      have hcells := scanCells_weights l true none q.defaultOp _ hrun
      have hopt : (scanCombine op s (rc₁, s₁)).2.opt = s₁.opt := by
        cases rc₁ <;> cases op <;> rfl
      exact hopt ▸ hcells

/-- The scanner keeps a weight vector. -/
theorem scanCells_weights : ∀ (c : List Cell) (first : Bool) (ope : Option Op)
    (op1 : SelOperator) (s : ScanState) {rc : SenRc} {s' : ScanState},
    scanCells nstrOpen q t sid allocConds c first ope op1 s = some (rc, s') →
    SameWeights s.opt s'.opt
  | [], _, _, _, s, _, _, h => by
      obtain rfl := (Prod.ext_iff.mp (Option.some.inj h)).2
      exact .refl _
  | .op o :: c, first, ope, op1, s, _, _, h => by
      unfold scanCells at h
      split_ifs at h
      · match c, h with
        | [], h =>
            obtain rfl := (Prod.ext_iff.mp (Option.some.inj h)).2
            exact .refl _
        | _ :: c, h => exact scanCells_weights c first ope op1 s h
      · exact scanCells_weights c first (some o) o.op s h
  | .nil :: c, _, _, _, s, _, _, h => scanCells_weights c false none q.defaultOp s h
  | .bulk v :: c, first, ope, op1, s, rc, s', h => by
      obtain ⟨⟨rc₁, s₁⟩, hcell, hrest⟩ := Option.bind_eq_some_iff.mp h
      have h₁ := scanCell_weights (.bulk v) ope (if first then .or else op1) s hcell
      simp only at hrest
      split_ifs at hrest
      · exact h₁.trans (scanCells_weights c false none q.defaultOp s₁ hrest)
      · obtain rfl := (Prod.ext_iff.mp (Option.some.inj hrest)).2
        exact h₁
  | .list l :: c, first, ope, op1, s, rc, s', h => by
      obtain ⟨⟨rc₁, s₁⟩, hcell, hrest⟩ := Option.bind_eq_some_iff.mp h
      have h₁ := scanCell_weights (.list l) ope (if first then .or else op1) s hcell
      simp only at hrest
      split_ifs at hrest
      · exact h₁.trans (scanCells_weights c false none q.defaultOp s₁ hrest)
      · obtain rfl := (Prod.ext_iff.mp (Option.some.inj hrest)).2
        exact h₁

end

end

theorem scanTexts_weights {allocConds : Bool} (texts : List (Option Text)) (sid : Nat)
    (s : ScanState) {rc : SenRc} {s' : ScanState}
    (h : scanTexts nstrOpen q allocConds texts sid s = some (rc, s')) :
    SameWeights s.opt s'.opt := by
  induction texts generalizing allocConds sid s with
  | nil =>
      obtain rfl := (Prod.ext_iff.mp (Option.some.inj h)).2
      exact .refl _
  | cons text texts ih =>
      cases text with
      | none =>
          obtain rfl := (Prod.ext_iff.mp (Option.some.inj h)).2
          exact .refl _
      | some t =>
          obtain ⟨⟨rc₁, s₁⟩, hquery, hrest⟩ := Option.bind_eq_some_iff.mp h
          obtain ⟨⟨rc₂, s₂⟩, hcells, hcombine⟩ := Option.map_eq_some_iff.mp hquery
          have hopt : (scanCombine .or { s with sc := 0 } (rc₂, s₂)).2.opt = s₂.opt := by
            cases rc₂ <;> rfl
          have h₁ : SameWeights s.opt s₁.opt := by
            rw [← show s₂.opt = s₁.opt by rw [← hopt, hcombine]]
            have hcells := scanCells_weights q.expr true none q.defaultOp _ hcells
            exact hcells
          simp only at hrest
          split_ifs at hrest
          · exact h₁.trans (ih (sid + 1) s₁ hrest)
          · obtain rfl := (Prod.ext_iff.mp (Option.some.inj hrest)).2
            exact h₁

/-- A scan changes the options and the conditions of the query. -/
theorem senQueryScan_weights {alloc : Bool} {texts : List (Option Text)} {allocConds found : Bool}
    {score : Int} {rc : SenRc} {q' : SenQuery} {found' : Bool} {score' : Int}
    (h : senQueryScan nstrOpen alloc q texts allocConds found score =
      some (rc, q', found', score')) :
    ∃ opt conds, q' = { q with opt := opt, snipConds := conds } ∧ SameWeights q.opt opt := by
  have hrun : ∀ allocConds conds,
      ((scanTexts nstrOpen q allocConds texts 1 ⟨q.opt, conds, 0, false, 0⟩).map fun x =>
        (x.1, { q with opt := x.2.opt, snipConds := some x.2.conds }, x.2.found, x.2.score)) =
          some (rc, q', found', score') →
      ∃ opt conds, q' = { q with opt := opt, snipConds := conds } ∧ SameWeights q.opt opt := by
    intro allocConds conds h
    obtain ⟨⟨rc₁, s⟩, htexts, h⟩ := Option.map_eq_some_iff.mp h
    obtain ⟨-, h⟩ := Prod.ext_iff.mp h
    obtain ⟨rfl, -⟩ := Prod.ext_iff.mp h
    exact ⟨s.opt, some s.conds, rfl, scanTexts_weights texts 1 _ htexts⟩
  have hstay : ∀ {rc₁ : SenRc} {found₁ : Bool} {score₁ : Int},
      some (rc₁, q, found₁, score₁) = some (rc, q', found', score') →
      ∃ opt conds, q' = { q with opt := opt, snipConds := conds } ∧ SameWeights q.opt opt := by
    intro _ _ _ h
    obtain ⟨-, h⟩ := Prod.ext_iff.mp (Option.some.inj h)
    obtain ⟨rfl, -⟩ := Prod.ext_iff.mp h
    exact ⟨q.opt, q.snipConds, rfl, .refl _⟩
  unfold senQueryScan at h
  by_cases htexts : texts = []
  · simp only [if_pos htexts] at h
    exact hstay h
  · simp only [if_neg htexts] at h
    cases hconds : q.snipConds with
    | none =>
        cases alloc with
        | false =>
            simp only [hconds, Bool.false_eq_true, if_false] at h
            exact hstay h
        | true =>
            simp only [hconds, if_true] at h
            exact hrun _ _ h
    | some conds =>
        cases allocConds with
        | false =>
            simp only [hconds, Bool.false_eq_true, if_false] at h
            exact hrun _ _ h
        | true =>
            simp only [hconds, if_true] at h
            exact hstay h

section

variable {nTags : Nat} {opentags closetags : List (Option (List UInt8))}

mutual

theorem snipCell_weights : ∀ (e : Cell) (ope : Option Op) (op : SelOperator) (cBut : Bool)
    (s : SnipState) {rc : SenRc} {s' : SnipState},
    snipCell nstrOpen q nTags opentags closetags e ope op cBut s = some (rc, s') →
    SameWeights s.opt s'.opt
  | .nil, _, _, _, s, _, _, h => by
      obtain rfl := (Prod.ext_iff.mp (Option.some.inj h)).2
      exact .refl _
  | .op _, _, _, _, s, _, _, h => by
      obtain rfl := (Prod.ext_iff.mp (Option.some.inj h)).2
      exact .refl _
  | .bulk v, ope, op, cBut, s, rc, s', h => by
      unfold snipCell at h
      simp only at h
      split_ifs at h
      · obtain rfl := (Prod.ext_iff.mp (Option.some.inj h)).2
        exact ⟨rfl, fun _ => rfl⟩
      · obtain rfl := (Prod.ext_iff.mp (Option.some.inj h)).2
        exact ⟨rfl, fun _ => rfl⟩
  | .list l, _, op, cBut, s, rc, s', h => by
      unfold snipCell at h
      obtain ⟨⟨rc₁, s₁⟩, hrun, h⟩ := Option.map_eq_some_iff.mp h
      obtain rfl := (Prod.ext_iff.mp h).2
      exact snipCells_weights l true none q.defaultOp _ s hrun

/-- The highlighter keeps a weight vector. -/
theorem snipCells_weights : ∀ (c : List Cell) (first : Bool) (ope : Option Op)
    (op1 : SelOperator) (cBut : Bool) (s : SnipState) {rc : SenRc} {s' : SnipState},
    snipCells nstrOpen q nTags opentags closetags c first ope op1 cBut s = some (rc, s') →
    SameWeights s.opt s'.opt
  | [], _, _, _, _, s, _, _, h => by
      obtain rfl := (Prod.ext_iff.mp (Option.some.inj h)).2
      exact .refl _
  | .op o :: c, first, _, _, cBut, s, _, _, h =>
      snipCells_weights c first (some o) o.op cBut s h
  | .nil :: c, _, _, _, cBut, s, _, _, h => snipCells_weights c false none q.defaultOp cBut s h
  | .bulk v :: c, first, ope, op1, cBut, s, rc, s', h => by
      obtain ⟨⟨rc₁, s₁⟩, hcell, hrest⟩ := Option.bind_eq_some_iff.mp h
      have h₁ := snipCell_weights (.bulk v) ope (if first then .or else op1) cBut s hcell
      simp only at hrest
      split_ifs at hrest
      · exact h₁.trans (snipCells_weights c false none q.defaultOp cBut s₁ hrest)
      · obtain rfl := (Prod.ext_iff.mp (Option.some.inj hrest)).2
        exact h₁
  | .list l :: c, first, ope, op1, cBut, s, rc, s', h => by
      obtain ⟨⟨rc₁, s₁⟩, hcell, hrest⟩ := Option.bind_eq_some_iff.mp h
      have h₁ := snipCell_weights (.list l) ope (if first then .or else op1) cBut s hcell
      simp only at hrest
      split_ifs at hrest
      · exact h₁.trans (snipCells_weights c false none q.defaultOp cBut s₁ hrest)
      · obtain rfl := (Prod.ext_iff.mp (Option.some.inj hrest)).2
        exact h₁

end

/-- Highlighting changes the options of the query. -/
theorem senQuerySnip_weights {encoding : SenEncoding} {flags : SnipFlags}
    {width maxResults : Nat} {mapping : SnipMapping} {q' : SenQuery} {snip : Option SenSnip}
    (h : senQuerySnip nstrOpen q nTags opentags closetags encoding flags width maxResults mapping =
      some (q', snip)) :
    ∃ opt, q' = { q with opt := opt } ∧ SameWeights q.opt opt := by
  unfold senQuerySnip at h
  split at h
  · obtain ⟨rfl, -⟩ := Prod.ext_iff.mp (Option.some.inj h)
    exact ⟨q.opt, rfl, .refl _⟩
  · obtain ⟨⟨rc, s⟩, hrun, h⟩ := Option.map_eq_some_iff.mp h
    obtain ⟨rfl, -⟩ := Prod.ext_iff.mp h
    exact ⟨s.opt, rfl, snipCells_weights q.expr true none q.defaultOp false _ hrun⟩

end

end

/-- What may happen to a query: executions on any index and any records, each of them
steady, scans of texts, and highlighting. -/
inductive Uses (q₀ : ExecQuery) : ExecQuery → Prop
  | refl : Uses q₀ q₀
  | exec {q : ExecQuery} (h : Uses q₀ q) {ρ : Type u} (E : Engine ρ) (r : ρ) (op : SelOperator)
      (steady : E.Steady q r op) : Uses q₀ (senQueryExec E q r op).2.1
  | scan {q : ExecQuery} (h : Uses q₀ q) (nstrOpen : List UInt8 → Option (List UInt8))
      (alloc : Bool) (texts : List (Option Text)) (allocConds found : Bool) (score : Int)
      {rc : SenRc} {q' : SenQuery} {found' : Bool} {score' : Int}
      (run : senQueryScan nstrOpen alloc q.toSenQuery texts allocConds found score =
        some (rc, q', found', score')) : Uses q₀ { q with toSenQuery := q' }
  | snip {q : ExecQuery} (h : Uses q₀ q) (nstrOpen : List UInt8 → Option (List UInt8))
      (nTags : Nat) (opentags closetags : List (Option (List UInt8))) (encoding : SenEncoding)
      (flags : SnipFlags) (width maxResults : Nat) (mapping : SnipMapping)
      {q' : SenQuery} {snip : Option SenSnip}
      (run : senQuerySnip nstrOpen q.toSenQuery nTags opentags closetags encoding flags width
        maxResults mapping = some (q', snip)) : Uses q₀ { q with toSenQuery := q' }

/-- No use leaves a trace that an execution could read. -/
theorem Uses.alike {q₀ q : ExecQuery} (h : Uses.{u} q₀ q) : Alike q₀ q := by
  induction h with
  | refl => exact .refl q₀
  | exec _ E r op steady ih => exact ih.trans (senQueryExec_frame steady)
  | scan _ nstrOpen alloc texts allocConds found score run ih =>
      obtain ⟨opt, conds, rfl, hopt⟩ := senQueryScan_weights run
      exact ih.trans ⟨rfl, rfl, rfl, rfl, rfl, hopt, fun _ => rfl⟩
  | snip _ nstrOpen nTags opentags closetags encoding flags width maxResults mapping run ih =>
      obtain ⟨opt, rfl, hopt⟩ := senQuerySnip_weights run
      exact ih.trans ⟨rfl, rfl, rfl, rfl, rfl, hopt, fun _ => rfl⟩

/-- **Executing a query is repeatable**, whatever happened to it since the first execution,
as long as no execution lowered weights that are used: on the same index and the same
records it returns the same and leaves the same records. -/
theorem senQueryExec_repeatable {ρ : Type v} (E : Engine ρ) {q₀ q : ExecQuery}
    (h : Uses.{u} q₀ q) (r : ρ) :
    (senQueryExec E q r .or).1 = (senQueryExec E q₀ r .or).1 ∧
      (senQueryExec E q r .or).2.2 = (senQueryExec E q₀ r .or).2.2 :=
  senQueryExec_alike h.alike r .or

/-- The weight of a section. -/
def Weighting.of (w : Weighting) (sid : Nat) : Int :=
  match w with
  | none => 1
  | static v size => if (sid : Int) ≤ size then v.getD (sid - 1) 0 else 0
  | dynamic func => func sid
  | constant size => size

/-- Records of documents: whether `r->keys` is set, and the scores. -/
structure ScoredDocs where
  keys : Bool
  scores : List (Nat × Int)
  deriving DecidableEq

namespace ScoredDocs

/-- `sen_set_at` -/
def has (r : ScoredDocs) (rid : Nat) : Bool := r.scores.any (·.1 == rid)

/-- `res_add` for `sen_sel_or` -/
def add (r : ScoredDocs) (rid : Nat) (score : Int) : ScoredDocs :=
  { r with scores :=
      if r.has rid then r.scores.map fun e => if e.1 = rid then (rid, e.2 + score) else e
      else r.scores ++ [(rid, score)] }

/-- `sen_records_union`: a record that both have keeps its score. -/
def union (a b : ScoredDocs) : ScoredDocs :=
  if a.keys = b.keys then { a with scores := a.scores ++ b.scores.filter fun e => !a.has e.1 }
  else a

/-- `sen_records_intersect`: the scores are those of the object with fewer records. -/
def intersect (a b : ScoredDocs) : ScoredDocs :=
  if a.keys = b.keys then
    if b.scores.length < a.scores.length then
      { b with scores := b.scores.filter fun e => a.has e.1 }
    else { a with scores := a.scores.filter fun e => b.has e.1 }
  else a

/-- `sen_records_subtract` -/
def subtract (a b : ScoredDocs) : ScoredDocs :=
  if a.keys = b.keys then { a with scores := a.scores.filter fun e => !b.has e.1 } else a

end ScoredDocs

/-- The words that are looked up for a keyword of one word. In the modes unsplit and partial it is
expanded on both sides: the words it begins, and the words that end with one of these, which are
only kept with `SEN_INDEX_ENABLE_SUFFIX_SEARCH`. This is without. -/
def SelMode.looksUp (mode : SelMode) (keyword word : List UInt8) : Bool :=
  match mode with
  | .unsplit | .partial_ | .prefix_ => keyword.isPrefixOf word
  | _ => keyword == word

/-- An index of documents of one section that are one word each, for keywords of one word. A
similarity search and a term extraction are not looked up like this. -/
def wordIndex (docs : List (Nat × List UInt8)) : Engine ScoredDocs where
  nhits r := r.scores.length
  recordsOpen _ := ⟨false, []⟩
  select v mode _ _ w op r :=
    let weight := w.of 1
    let hits := if weight = 0 then [] else docs.filter fun d => mode.looksUp v d.2
    let hit (rid : Nat) : Bool := hits.any (·.1 == rid)
    let scored := r.scores.map fun e => if hit e.1 then (e.1, e.2 + weight) else e
    (.success, match op with
      | .or => hits.foldl (fun r d => r.add d.1 weight) { r with keys := true }
      | .and => ⟨true, scored.filter fun e => hit e.1⟩
      | .but => ⟨true, r.scores.filter fun e => !hit e.1⟩
      | .adjust => ⟨true, scored⟩)
  union := ScoredDocs.union
  intersect := ScoredDocs.intersect
  subtract := ScoredDocs.subtract

/-- A query as `sen_query_open` leaves it, with the default escalation. -/
def openedQuery (expr : List Cell) : ExecQuery where
  toSenQuery := sampleQuery expr
  escalationThreshold := 0
  escalationDecaystep := 2
  weightSet := none

/-- The query `ab`, executed on an index where it is found exactly and then once more. -/
theorem senQueryExec_repeatable_exact :
    let E := wordIndex [(1, [0x61, 0x62])]
    let q := openedQuery [.bulk [0x61, 0x62]]
    (senQueryExec E (senQueryExec E q ⟨false, []⟩ .or).2.1 ⟨false, []⟩ .or).1 =
        (senQueryExec E q ⟨false, []⟩ .or).1 ∧
      (senQueryExec E (senQueryExec E q ⟨false, []⟩ .or).2.1 ⟨false, []⟩ .or).2.2 =
        (senQueryExec E q ⟨false, []⟩ .or).2.2 := by
  intro E q
  have hsteady : E.Steady q ⟨false, []⟩ .or := Or.inr (Or.inr (Or.inr ⟨rfl, rfl⟩))
  exact senQueryExec_repeatable E (.exec .refl E ⟨false, []⟩ .or hsteady) ⟨false, []⟩

/-- The query `ab` on a document that is the word `abc`: the first execution scores 3, the
second one 1. -/
theorem senQueryExec_escalated_twice :
    let E := wordIndex [(1, [0x61, 0x62, 0x63])]
    let q := openedQuery [.bulk [0x61, 0x62]]
    (senQueryExec E q ⟨false, []⟩ .or).2.2 = ⟨true, [(1, 3)]⟩ ∧
      (senQueryExec E (senQueryExec E q ⟨false, []⟩ .or).2.1 ⟨false, []⟩ .or).2.2 =
        ⟨true, [(1, 1)]⟩ := by
  decide

end Senna.Query
