/-
# The scanner and the executor agree

`scan_query` works on a flag and `exec_query` on records objects. Here the executor runs over
sets of documents, where a keyword matches the documents in which the scanner finds it, and both
are compared with the fold of `Senna.Query.Expr`.

A records object gets its `keys` from the first selection into it, and the set operations refuse
two objects whose `keys` differ. So a list that makes no selection, as `(-a)`, has no effect on
the objects of the list around it: the executor does not clear them for an `and`, as the fold
and the scanner do. `Cell.joined` is what is asked of a query here.
-/

import Mathlib.Data.Finset.SDiff
import Mathlib.Data.Finset.Lattice.Basic
import Mathlib.Tactic.IntervalCases
import Senna.Query.Exec

namespace Senna.Query

open Senna.Snip

universe u

/-- A records object as a set of documents. `keys` tells whether `r->keys` is set; only a selection
adds documents, and it sets it. -/
structure DocSet (D : Type u) where
  keys : Bool
  docs : Finset D
  named : docs.Nonempty → keys = true

namespace DocSet

variable {D : Type u} [DecidableEq D]

/-- A new records object. -/
def empty : DocSet D := ⟨false, ∅, fun h => absurd h Finset.not_nonempty_empty⟩

/-- `sen_records_union`, which refuses an object with other keys. -/
def union (a b : DocSet D) : DocSet D :=
  if h : a.keys = b.keys then
    ⟨a.keys, a.docs ∪ b.docs, fun hne =>
      (Finset.union_nonempty.mp hne).elim a.named fun hb => h.trans (b.named hb)⟩
  else a

/-- `sen_records_intersect` -/
def intersect (a b : DocSet D) : DocSet D :=
  if a.keys = b.keys then
    ⟨a.keys, a.docs ∩ b.docs, fun hne => a.named (hne.mono Finset.inter_subset_left)⟩
  else a

/-- `sen_records_subtract` -/
def subtract (a b : DocSet D) : DocSet D :=
  if a.keys = b.keys then
    ⟨a.keys, a.docs \ b.docs, fun hne => a.named (hne.mono Finset.sdiff_subset)⟩
  else a

/-- `sen_index_select` for a keyword that matches `hits`. -/
def select (hits : Finset D) (op : SelOperator) (r : DocSet D) : DocSet D where
  keys := true
  docs :=
    match op with
    | .or => r.docs ∪ hits
    | .and => r.docs ∩ hits
    | .but => r.docs \ hits
    | .adjust => r.docs
  named _ := rfl

end DocSet

section

variable {D : Type u} [DecidableEq D]

/-- An index that is searched for sets of documents: `hits` are the documents a keyword matches, in
whatever mode. -/
def setEngine (hits : List UInt8 → Finset D) : Engine (DocSet D) where
  nhits r := r.docs.card
  recordsOpen _ := .empty
  select v _ _ _ _ op r := (.success, r.select (hits v) op)
  union := DocSet.union
  intersect := DocSet.intersect
  subtract := DocSet.subtract

/-- The documents in which the scanner finds a keyword. -/
def occurrences (nstrOpen : List UInt8 → Option (List UInt8)) (texts : D → Text) (docs : Finset D)
    (v : List UInt8) : Finset D :=
  docs.filter fun d => occursIn nstrOpen (texts d) v = true

end

section

variable (defaultOp : SelOperator)

mutual

/-- A selection is made for an operand that is joined by `op`. -/
def Cell.selects : Cell → SelOperator → Bool
  | .nil, _ => false
  | .op _, _ => false
  | .bulk _, _ => true
  | .list l, op => op = .or && selects true none l

/-- A selection is made for a list of cells, into an object that is empty. -/
def selects : Bool → Option Op → List Cell → Bool
  | _, _, [] => false
  | first, ope, .op o :: c =>
      if first ∧ o.op = .but then
        match c with
        | [] => false
        | _ :: c => selects first ope c
      else selects first (some o) c
  | first, ope, e :: c =>
      e.selects (operator defaultOp first ope) || selects false none c

end

mutual

/-- An operand that is joined by `op`: a list that is joined by `and` makes a selection. -/
def Cell.joined : Cell → SelOperator → Bool
  | .nil, _ => true
  | .op _, _ => true
  | .bulk _, _ => true
  | .list l, op => (op != .and || selects defaultOp true none l) && joined true none l

/-- The operands of a list. -/
def joined : Bool → Option Op → List Cell → Bool
  | _, _, [] => true
  | first, ope, .op o :: c =>
      if first ∧ o.op = .but then
        match c with
        | [] => true
        | _ :: c => joined first ope c
      else joined first (some o) c
  | first, ope, e :: c =>
      e.joined (operator defaultOp first ope) && joined false none c

end

end

section

variable {D : Type u} [DecidableEq D] {hits : List UInt8 → Finset D} {q : ExecQuery}

theorem DocSet.docs_eq_empty {r : DocSet D} (h : r.keys = false) : r.docs = ∅ := by
  by_contra hne
  rw [r.named (Finset.nonempty_iff_ne_empty.mpr hne)] at h
  exact Bool.noConfusion h

/-- A selection is what the operator makes of the documents. -/
theorem DocSet.coe_select (r : DocSet D) (v : Finset D) (op : SelOperator) :
    ((r.select v op).docs : Set D) = op.apply (r.docs : Set D) v := by
  cases op with
  | or => exact Finset.coe_union r.docs v
  | and => exact Finset.coe_inter r.docs v
  | but => exact Finset.coe_sdiff r.docs v
  | adjust => rfl

/-- The end of `exec_query`: it keeps the keys of an object that has them, and joins the documents
unless it is an `and` with an object that no selection was made into. -/
theorem setEngine_combine (hits : List UInt8 → Finset D) {r : DocSet D} (s : DocSet D)
    (hr : r.keys = true) (op : SelOperator) :
    ((setEngine hits).combine op r s).keys = true ∧
      ((op = .and → s.keys = true) →
        (((setEngine hits).combine op r s).docs : Set D) = op.apply (r.docs : Set D) s.docs) := by
  cases hs : s.keys with
  | true =>
      have heq : r.keys = s.keys := hr.trans hs.symm
      cases op with
      | or =>
          simp only [Engine.combine, setEngine, DocSet.union, dif_pos heq]
          exact ⟨hr, fun _ => Finset.coe_union r.docs s.docs⟩
      | and =>
          simp only [Engine.combine, setEngine, DocSet.intersect, if_pos heq]
          exact ⟨hr, fun _ => Finset.coe_inter r.docs s.docs⟩
      | but =>
          simp only [Engine.combine, setEngine, DocSet.subtract, if_pos heq]
          exact ⟨hr, fun _ => Finset.coe_sdiff r.docs s.docs⟩
      | adjust => exact ⟨hr, fun _ => rfl⟩
  | false =>
      have hne : ¬r.keys = s.keys := by
        rw [hr, hs]
        exact Bool.noConfusion
      have hempty := DocSet.docs_eq_empty hs
      cases op with
      | or =>
          simp only [Engine.combine, setEngine, DocSet.union, dif_neg hne]
          refine ⟨hr, fun _ => ?_⟩
          rw [hempty, Finset.coe_empty]
          exact (Set.union_empty _).symm
      | and =>
          simp only [Engine.combine, setEngine, DocSet.intersect, if_neg hne]
          exact ⟨hr, fun h => absurd (h trivial) Bool.false_ne_true⟩
      | but =>
          simp only [Engine.combine, setEngine, DocSet.subtract, if_neg hne]
          refine ⟨hr, fun _ => ?_⟩
          rw [hempty, Finset.coe_empty]
          exact (Set.sdiff_empty).symm
      | adjust => exact ⟨hr, fun _ => rfl⟩

/-- How a walk over cells ended that began with `r`: no selection failed, the keys are set if they
were or if a selection was made, and under `joins` the documents are those of `value`. -/
structure Walked (r : DocSet D) (selects joins : Bool) (value : Set D)
    (res : Bool × SelectOptarg × DocSet D) : Prop where
  ok : res.1 = true
  keys : res.2.2.keys = (r.keys || selects)
  docs : joins = true → (res.2.2.docs : Set D) = value

/-- `exec_query` around its loop. -/
theorem Walked.around {l : List Cell} (op : SelOperator)
    {run : SelectOptarg × DocSet D → Bool × SelectOptarg × DocSet D}
    (hrun : ∀ opt r, Walked r (selects q.defaultOp true none l) (joined q.defaultOp true none l)
      (evalCells q.defaultOp (fun _ v => (hits v : Set D)) true none r.docs l) (run (opt, r)))
    (opt : SelectOptarg) (r : DocSet D) :
    Walked r ((Cell.list l).selects q.defaultOp op) ((Cell.list l).joined q.defaultOp op)
      (op.apply (r.docs : Set D) (evalExpr q.defaultOp (fun _ v => (hits v : Set D)) l))
      (true, (setEngine hits).around op run (opt, r)) := by
  have hcard : (setEngine hits).nhits r = 0 ↔ r.docs = ∅ := Finset.card_eq_zero
  unfold Engine.around
  by_cases hempty : r.docs = ∅
  · have hzero := hcard.mpr hempty
    simp only [hzero, true_and, if_true]
    have hbot : (r.docs : Set D) = ⊥ := by rw [hempty, Finset.coe_empty]; rfl
    by_cases hop : op = .or
    · subst hop
      obtain ⟨hok, hkeys, hdocs⟩ := hrun opt r
      simp only [ne_eq, not_true_eq_false, if_false]
      refine ⟨rfl, ?_, fun hjoins => ?_⟩
      · rw [hkeys]
        rfl
      · rw [Cell.joined, Bool.and_eq_true] at hjoins
        rw [hdocs hjoins.2, hbot]
        exact (bot_sup_eq _).symm
    · -- nothing is done to an empty object
      simp only [ne_eq, hop, not_false_eq_true, if_true]
      refine ⟨rfl, ?_, fun _ => ?_⟩
      · simp only [Cell.selects, hop, decide_false, Bool.false_and, Bool.or_false]
      · rw [hbot]
        cases op with
        | or => exact absurd rfl hop
        | and => exact (bot_inf_eq _).symm
        | but => exact bot_sdiff.symm
        | adjust => rfl
  · have hpos : ¬(setEngine hits).nhits r = 0 := hcard.not.mpr hempty
    have hkeysr := r.named (Finset.nonempty_iff_ne_empty.mpr hempty)
    obtain ⟨hok, hkeys, hdocs⟩ := hrun opt ((setEngine hits).recordsOpen r)
    simp only [hpos, false_and, if_false, hok, if_true]
    obtain ⟨hkept, hjoin⟩ := setEngine_combine hits
      (run (opt, (setEngine hits).recordsOpen r)).2.2 hkeysr op
    refine ⟨rfl, ?_, fun hjoins => ?_⟩
    · rw [hkept, hkeysr, Bool.true_or]
    · rw [Cell.joined, Bool.and_eq_true] at hjoins
      obtain ⟨hselects, hjoins⟩ := hjoins
      have hbot : (((setEngine hits).recordsOpen r).docs : Set D) = ⊥ := Finset.coe_empty
      rw [hbot] at hdocs
      rw [hjoin, hdocs hjoins]
      · rfl
      · intro hand
        subst hand
        exact hkeys.trans hselects

omit [DecidableEq D] in
/-- One operand after the other. -/
theorem Walked.next {r : DocSet D} {selects joins selects' joins' : Bool} {value : Set D}
    {res : Bool × SelectOptarg × DocSet D} (h : Walked r selects joins value res)
    (rest : Set D → Set D) {run : SelectOptarg × DocSet D → Bool × SelectOptarg × DocSet D}
    (hrun : ∀ opt r', Walked r' selects' joins' (rest r'.docs) (run (opt, r'))) :
    Walked r (selects || selects') (joins && joins') (rest value) (proceed run res) := by
  obtain ⟨ok, opt, s⟩ := res
  obtain ⟨hok, hkeys, hdocs⟩ := h
  simp only at hok hkeys hdocs
  subst hok
  obtain ⟨hok', hkeys', hdocs'⟩ := hrun opt s
  refine ⟨hok', ?_, fun hjoins => ?_⟩
  · rw [← Bool.or_assoc, ← hkeys]
    exact hkeys'
  · obtain ⟨hj, hj'⟩ := Bool.and_eq_true_iff.mp hjoins
    rw [← hdocs hj]
    exact hdocs' hj'

mutual

theorem execCell_walked : ∀ (e : Cell) (ope : Option Op) (op : SelOperator) (opt : SelectOptarg)
    (r : DocSet D),
    Walked r (e.selects q.defaultOp op) (e.joined q.defaultOp op)
      ((evalCell q.defaultOp (fun _ v => (hits v : Set D)) ope e).elim (r.docs : Set D)
        (op.apply (r.docs : Set D)))
      (execCell (setEngine hits) q e ope op (opt, r))
  | .nil, _, _, _, r => ⟨rfl, (Bool.or_false _).symm, fun _ => rfl⟩
  | .op _, _, _, _, r => ⟨rfl, (Bool.or_false _).symm, fun _ => rfl⟩
  | .bulk v, _, op, _, r => ⟨rfl, (Bool.or_true _).symm, fun _ => r.coe_select (hits v) op⟩
  | .list l, _, op, opt, r => by
      rw [execCell]
      exact Walked.around op (fun opt r => execCells_walked l true none q.defaultOp rfl opt r) opt r

/-- **The loop of `exec_query`** computes the fold. -/
theorem execCells_walked : ∀ (c : List Cell) (first : Bool) (ope : Option Op) (op1 : SelOperator),
    op1 = (ope.map Op.op).getD q.defaultOp → ∀ (opt : SelectOptarg) (r : DocSet D),
    Walked r (selects q.defaultOp first ope c) (joined q.defaultOp first ope c)
      (evalCells q.defaultOp (fun _ v => (hits v : Set D)) first ope r.docs c)
      (execCells (setEngine hits) q c first ope op1 (opt, r))
  | [], _, _, _, _, _, r => ⟨rfl, (Bool.or_false _).symm, fun _ => rfl⟩
  | .op o :: c, first, ope, op1, hop, opt, r => by
      unfold selects joined evalCells execCells
      split_ifs
      · match c with
        | [] => exact ⟨rfl, (Bool.or_false _).symm, fun _ => rfl⟩
        | _ :: c => exact execCells_walked c first ope op1 hop opt r
      · exact execCells_walked c first (some o) o.op rfl opt r
  | .nil :: c, first, ope, op1, hop, opt, r =>
      execCells_walked c false none q.defaultOp rfl opt r
  | .bulk v :: c, first, ope, op1, hop, opt, r => by
      subst hop
      have hcell := execCell_walked (.bulk v) ope (operator q.defaultOp first ope) opt r
      exact hcell.next (fun a => evalCells q.defaultOp (fun _ v => (hits v : Set D)) false none a c)
        fun opt r => execCells_walked c false none q.defaultOp rfl opt r
  | .list l :: c, first, ope, op1, hop, opt, r => by
      subst hop
      have hcell := execCell_walked (.list l) ope (operator q.defaultOp first ope) opt r
      exact hcell.next (fun a => evalCells q.defaultOp (fun _ v => (hits v : Set D)) false none a c)
        fun opt r => execCells_walked c false none q.defaultOp rfl opt r

end

/-- **The executor computes the boolean fold** over sets of documents, when each list joined by
`and` makes a selection. -/
theorem execQuery_docs (hits : List UInt8 → Finset D) (q : ExecQuery) (c : List Cell)
    (op : SelOperator)
    (hjoined : (Cell.list c).joined q.defaultOp op = true) (opt : SelectOptarg) (r : DocSet D) :
    ((execQuery (setEngine hits) q c op (opt, r)).2.docs : Set D) =
      op.apply (r.docs : Set D) (evalExpr q.defaultOp (fun _ v => (hits v : Set D)) c) :=
  (Walked.around op (fun opt r => execCells_walked c true none q.defaultOp rfl opt r) opt r).docs
    hjoined

end

/-- **The scanner and the executor agree.** Let `docs` be any documents. When every keyword that is
evaluated can be initialised, and every list that is joined by `and` makes a selection, scanning
the text of a document succeeds, and its flag says whether the document is in the result of
`exec_query`, if it said so of the objects both start from. This result is the fold of the sets of
documents in which the keywords occur. The conditions are then prepared for another scan without
allocation. -/
theorem scanQuery_execQuery {D : Type u} [DecidableEq D]
    {nstrOpen : List UInt8 → Option (List UInt8)} {allocConds : Bool} (q : ExecQuery)
    (texts : D → Text) {docs : Finset D} {d : D} (hd : d ∈ docs) (sid : Nat) (c : List Cell)
    (op : SelOperator) (s : ScanState) (opt : SelectOptarg) (r : DocSet D)
    (hfound : s.found = true ↔ d ∈ r.docs)
    (hconds : CondsFor nstrOpen allocConds s.conds s.sc (leaves true c))
    (hjoined : (Cell.list c).joined q.defaultOp op = true) :
    let E := setEngine (occurrences nstrOpen texts docs)
    ∃ s', scanQuery nstrOpen q.toSenQuery (texts d) sid allocConds c op s = some (.success, s') ∧
      (s'.found = true ↔ d ∈ (execQuery E q c op (opt, r)).2.docs) ∧
      ((execQuery E q c op (opt, r)).2.docs : Set D) = op.apply (r.docs : Set D)
        (evalExpr q.defaultOp (fun _ v => (occurrences nstrOpen texts docs v : Set D)) c) ∧
      Scanned nstrOpen (leaves true c) s s' := by
  intro E
  obtain ⟨s₁, hrun, hscanned, hvalue⟩ := scanCells_spec q.toSenQuery (texts d) sid c true none
    q.defaultOp { s with found := false, score := 0 } rfl hconds
  obtain ⟨-, hcombine, hconds₁, hsc₁⟩ := scanCombine_success op s s₁
  have hexec := execQuery_docs (occurrences nstrOpen texts docs) q c op hjoined opt r
  have hmem : ∀ v, d ∈ (occurrences nstrOpen texts docs v : Set D) ↔
      occursIn nstrOpen (texts d) v = true := fun v =>
    Finset.mem_coe.trans (Finset.mem_filter.trans (and_iff_right hd))
  refine ⟨(scanCombine op s (.success, s₁)).2, ?_, ?_, hexec, ?_⟩
  · rw [scanQuery, hrun]
    cases op <;> rfl
  · rw [hcombine, ← Finset.mem_coe, hexec]
    refine (op.mem_apply (Finset.mem_coe.trans hfound.symm) ?_).symm
    rw [hvalue]
    exact mem_evalExpr q.defaultOp (fun _ v => hmem v) c
  · exact ⟨hsc₁.trans hscanned.sc, hconds₁ ▸ hscanned.conds, hconds₁ ▸ hscanned.rest⟩

/-- The query `ab -(x +b)` on the text `ab`. -/
theorem scanQuery_execQuery_nested :
    let c := [.bulk [0x61, 0x62], .op ⟨.but, 5, none, 0⟩,
      .list [.bulk [0x78], .op ⟨.and, 5, none, 0⟩, .bulk [0x62]]]
    let q := openedQuery c
    let s := ⟨q.opt, List.replicate 3 .zero, 0, false, 0⟩
    let E := setEngine (occurrences dropBlanks (fun _ => sampleText) {()})
    ∃ s', scanQuery dropBlanks q.toSenQuery sampleText 1 true c .or s = some (.success, s') ∧
      (s'.found = true ↔ () ∈ (execQuery E q c .or (q.opt, .empty)).2.docs) ∧
      ((execQuery E q c .or (q.opt, .empty)).2.docs : Set Unit) =
        SelOperator.or.apply ((DocSet.empty : DocSet Unit).docs : Set Unit) (evalExpr q.defaultOp
          (fun _ v => (occurrences dropBlanks (fun _ => sampleText) {()} v : Set Unit)) c) ∧
      Scanned dropBlanks (leaves true c) s s' := by
  intro c q s
  refine scanQuery_execQuery q (fun _ => sampleText) (Finset.mem_singleton_self ()) 1 c .or s q.opt
    .empty (by decide) ?_ (by decide)
  intro i v hi
  have hlt : i < 3 := (List.getElem?_eq_some_iff.mp hi).1
  interval_cases i <;> obtain rfl := Option.some.inj hi <;>
    exact ⟨by decide, .zero, rfl, nofun⟩

/-- A phrase of blanks cannot be initialised: the scan of `"  " ab` on the text `ab` fails and
leaves the flag clear, but the executor finds the document. It also finds it with `ab +(-x)`, where
no selection is made for the list, and the scanner does not. -/
theorem scanQuery_execQuery_disagree :
    let E := setEngine (occurrences dropBlanks (fun _ => sampleText) {()})
    let blank := openedQuery [.bulk [0x20, 0x20], .bulk [0x61, 0x62]]
    let unselected := openedQuery [.bulk [0x61, 0x62], .op ⟨.and, 5, none, 0⟩,
      .list [.op ⟨.but, 5, none, 0⟩, .bulk [0x78]]]
    ((∃ s', scanQuery dropBlanks blank.toSenQuery sampleText 1 true blank.expr .or
          ⟨blank.opt, List.replicate 2 .zero, 0, false, 0⟩ = some (.invalidArgument, s') ∧
        s'.found = false) ∧
      () ∈ (execQuery E blank blank.expr .or (blank.opt, .empty)).2.docs) ∧
    (∃ s', scanQuery dropBlanks unselected.toSenQuery sampleText 1 true unselected.expr .or
          ⟨unselected.opt, List.replicate 2 .zero, 0, false, 0⟩ = some (.success, s') ∧
        s'.found = false) ∧
      () ∈ (execQuery E unselected unselected.expr .or (unselected.opt, .empty)).2.docs :=
  ⟨⟨⟨_, rfl, rfl⟩, by decide⟩, ⟨_, rfl, rfl⟩, by decide⟩

end Senna.Query
