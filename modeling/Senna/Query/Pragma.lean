/-
# Pragmas

A query text may begin with pragmas: `*E` sets the escalation, `*D` the default operator
and `*W` lists weights of sections. The weights are kept in a vector as long as the section
numbers are small. The first number beyond the vector frees it, a set takes its place, and
the list that is being read is read again from its start.

A pointer into the query text is the list of the bytes from it up to `str_end`; behind them
there is a NUL. Allocations succeed.
-/

import Senna.Query.Exec
import Senna.Index.Lex

namespace Senna.Query

open Senna.Snip (SenEncoding)
open Senna.Index (senIsspace)

/-- `'0' <= *p && *p <= '9'` -/
def isDigit (b : UInt8) : Bool := decide (0x30 ≤ b ∧ b ≤ 0x39)

/-- The loop of `sen_atoui`. -/
def senAtouiLoop : Nat → List UInt8 → Nat × List UInt8
  | v, [] => (v, [])
  | v, b :: p =>
      if isDigit b then
        let t := (v * 10 + (b.toNat - 0x30)) % 2 ^ 32
        if t < v then (0, b :: p) else senAtouiLoop t p
      else (v, b :: p)

/-- `sen_atoui(nptr, end, &rest)`: the number and `rest`. -/
def senAtoui (nptr : List UInt8) : Nat × List UInt8 := senAtouiLoop 0 nptr

/-- The loop of `sen_atoi`: `v`, `o` and `p`. -/
def senAtoiLoop : Int → Bool → List UInt8 → Int × Bool × List UInt8
  | v, o, [] => (v, o, [])
  | v, o, b :: p =>
      if isDigit b then
        let t := (v * 10 + (b.toNat - 0x30 : Nat)).bmod (2 ^ 32)
        if t < v then (0, o, b :: p) else senAtoiLoop t false p
      else (v, o, b :: p)

/-- `sen_atoi(nptr, end, &rest)`: the number and `rest`. -/
def senAtoi (nptr : List UInt8) : Int × List UInt8 :=
  if nptr.head? = some 0x2d then
    let (v, o, p) := senAtoiLoop 0 true nptr.tail
    (-v, if o then nptr else p)
  else
    let (v, _, p) := senAtoiLoop 0 false nptr
    (v, p)

theorem senAtouiLoop_suffix (v : Nat) (p : List UInt8) : (senAtouiLoop v p).2 <:+ p := by
  induction p generalizing v with
  | nil => exact List.suffix_refl _
  | cons b p ih =>
      rw [senAtouiLoop]
      dsimp only
      split_ifs
      · exact List.suffix_refl _
      · exact (ih _).trans (List.suffix_cons b p)
      · exact List.suffix_refl _

theorem senAtoiLoop_suffix (v : Int) (o : Bool) (p : List UInt8) :
    (senAtoiLoop v o p).2.2 <:+ p := by
  induction p generalizing v o with
  | nil => exact List.suffix_refl _
  | cons b p ih =>
      rw [senAtoiLoop]
      dsimp only
      split_ifs
      · exact List.suffix_refl _
      · exact (ih _ _).trans (List.suffix_cons b p)
      · exact List.suffix_refl _

theorem senAtoui_suffix (p : List UInt8) : (senAtoui p).2 <:+ p := senAtouiLoop_suffix 0 p

theorem senAtoi_suffix (p : List UInt8) : (senAtoi p).2 <:+ p := by
  rw [senAtoi]
  split_ifs
  · dsimp only
    split_ifs
    · exact List.suffix_refl _
    · exact (senAtoiLoop_suffix _ _ _).trans (List.tail_suffix p)
  · exact senAtoiLoop_suffix _ _ _

/-- `SEN_ID_MAX` -/
def senIdMax : Nat := 0x3fffffff

/-- `DEFAULT_WEIGHT_VECTOR_SIZE` -/
def weightVectorSize : Nat := 4096

/-- `opt.weight_vector` and `weight_set` of a query. -/
structure SectionWeights where
  vector : Option (List Int)
  set : Option (Nat → Option Int)

namespace SectionWeights

/-- Neither of the two. -/
def unset : SectionWeights := ⟨none, none⟩

/-- A set without an entry. -/
def emptySet : SectionWeights := ⟨none, some fun _ => none⟩

/-- The vector that `get_weight_vector` allocates when there is nothing yet. -/
def alloc (w : SectionWeights) : SectionWeights :=
  if w.vector.isNone ∧ w.set.isNone then
    { w with vector := some (List.replicate weightVectorSize 0) }
  else w

/-- The weight of a section is stored; `none` when the section is beyond the vector. -/
def put (w : SectionWeights) (key : Nat) (value : Int) : Option SectionWeights :=
  match w.set with
  | some s => some { w with set := some (Function.update s key (some value)) }
  | none =>
      if key < weightVectorSize then
        some { w with vector := w.vector.map fun v => v.set (key - 1) value }
      else none

theorem put_isNone {w w' : SectionWeights} {key : Nat} {value : Int}
    (h : w.put key value = some w') : w'.set.isNone = w.set.isNone := by
  rw [put] at h
  split at h
  · next s hs =>
      obtain rfl := Option.some.inj h
      rw [hs]
      rfl
  · next hs =>
      split_ifs at h
      obtain rfl := Option.some.inj h
      rfl

theorem isNone_of_put {w : SectionWeights} {key : Nat} {value : Int}
    (h : w.put key value = none) : w.set.isNone = true := by
  rw [put] at h
  split at h
  · cases h
  · next hs => rw [hs]; rfl

end SectionWeights

/-- The value of an entry at `p`, behind the key. -/
def weightValue (p : List UInt8) : Int × List UInt8 :=
  if p.headD 0 = 0x3a then senAtoi p.tail else (1, p)

theorem weightValue_suffix (p : List UInt8) : (weightValue p).2 <:+ p := by
  rw [weightValue]
  split_ifs
  · exact (senAtoi_suffix _).trans (List.tail_suffix p)
  · exact List.suffix_refl _

theorem length_tail_lt_of_headD {p : List UInt8} {b : UInt8} (hb : b ≠ 0) (h : p.headD 0 = b) :
    p.tail.length < p.length := by
  cases p with
  | nil => exact absurd h.symm hb
  | cons => exact Nat.lt_succ_self _

/-- The loop of `get_weight_vector` over the list at `p`, which began at `source`. -/
def weightLoop (source : List UInt8) (w : SectionWeights) (p : List UInt8) :
    SectionWeights × List UInt8 :=
  if p = [] then (w, p)
  else
    let key := senAtoui p
    if key.1 = 0 ∨ senIdMax < key.1 then (w, key.2)
    else
      let value := weightValue key.2
      match _hput : w.put key.1 value.1 with
      | none => weightLoop source .emptySet source
      | some w' => if _hsep : value.2.headD 0 = 0x2c then weightLoop source w' value.2.tail
          else (w', value.2)
termination_by ((if w.set.isNone then 1 else 0 : Nat), p.length)
decreasing_by
  · rw [SectionWeights.isNone_of_put _hput]
    exact Prod.Lex.left _ _ Nat.zero_lt_one
  · rw [SectionWeights.put_isNone _hput]
    refine Prod.Lex.right _ ?_
    calc value.2.tail.length
        < value.2.length := length_tail_lt_of_headD (by decide) _hsep
      _ ≤ key.2.length := (weightValue_suffix _).length_le
      _ ≤ p.length := (senAtoui_suffix p).length_le

/-- `get_weight_vector(query, source)`: the weights and where the list ends. -/
def getWeightVector (w : SectionWeights) (source : List UInt8) : SectionWeights × List UInt8 :=
  weightLoop source w.alloc source

theorem weightLoop_suffix {source : List UInt8} (w : SectionWeights) (p : List UInt8)
    (hp : p <:+ source) : (weightLoop source w p).2 <:+ source := by
  induction w, p using weightLoop.induct source with
  | case1 w =>
      rw [weightLoop]
      exact hp
  | case2 w p hne key hkey =>
      rw [weightLoop, if_neg hne]
      dsimp only
      rw [if_pos hkey]
      exact (senAtoui_suffix p).trans hp
  | case3 w p hne key hkey value hput ih =>
      rw [weightLoop, if_neg hne]
      dsimp only
      rw [if_neg hkey]
      split
      · exact ih (List.suffix_refl _)
      · next hsome => rw [hput] at hsome; cases hsome
  | case4 w p hne key hkey value w' hput hsep ih =>
      rw [weightLoop, if_neg hne]
      dsimp only
      rw [if_neg hkey]
      split
      · next hnone => rw [hput] at hnone; cases hnone
      · next hsome =>
          obtain rfl := Option.some.inj (hput.symm.trans hsome)
          rw [dif_pos hsep]
          apply ih
          exact (List.tail_suffix _).trans
            ((weightValue_suffix key.2).trans ((senAtoui_suffix p).trans hp))
  | case5 w p hne key hkey value w' hput hsep =>
      rw [weightLoop, if_neg hne]
      dsimp only
      rw [if_neg hkey]
      split
      · next hnone => rw [hput] at hnone; cases hnone
      · next hsome =>
          rw [dif_neg hsep]
          exact (weightValue_suffix key.2).trans ((senAtoui_suffix p).trans hp)

theorem getWeightVector_suffix (w : SectionWeights) (source : List UInt8) :
    (getWeightVector w source).2 <:+ source :=
  weightLoop_suffix _ _ (List.suffix_refl _)

/-- `sen_query` while the pragmas are read. -/
structure PragmaQuery where
  cur : List UInt8
  defaultOp : SelOperator
  escalationThreshold : Int
  escalationDecaystep : Int
  weights : SectionWeights

namespace PragmaQuery

variable (q : PragmaQuery)

/-- The case `'E'`: the query and `end`. -/
def escalation (start : List UInt8) : PragmaQuery :=
  let threshold := senAtoi start
  let rest := threshold.2.dropWhile fun b => isDigit b || b == 0x2d
  let q := { q with escalationThreshold := threshold.1, cur := rest }
  if rest.headD 0 = 0x2c then
    let step := senAtoi rest.tail
    { q with escalationDecaystep := step.1, cur := step.2 }
  else q

/-- `while (end < q->str_end && *end != '*' && !sen_isspace(end, q->encoding)) { end++; }` -/
def wordEnd (encoding : SenEncoding) : List UInt8 → List UInt8
  | [] => []
  | b :: p => if b = 0x2a ∨ senIsspace encoding (b :: p) ≠ 0 then b :: p else wordEnd encoding p

/-- `switch (*start)` of the case `'D'`. -/
def opOf (op : SelOperator) (b : UInt8) : SelOperator :=
  if b = 0x4f then .or
  else if b = 0x2b then .and
  else if b = 0x2d then .but
  else if b = 0x3e then .adjust
  else op

/-- The case `'D'`. -/
def setDefaultOp (encoding : SenEncoding) (start : List UInt8) : PragmaQuery :=
  let rest := wordEnd encoding start
  { q with
    defaultOp := if rest.length < start.length then opOf q.defaultOp (start.headD 0)
      else q.defaultOp
    cur := rest }

/-- The case `'W'`. -/
def weight (start : List UInt8) : PragmaQuery :=
  let r := getWeightVector q.weights start
  { q with weights := r.1, cur := r.2 }

end PragmaQuery

theorem wordEnd_suffix (encoding : SenEncoding) (p : List UInt8) :
    PragmaQuery.wordEnd encoding p <:+ p := by
  induction p with
  | nil => exact List.suffix_refl _
  | cons b p ih =>
      rw [PragmaQuery.wordEnd]
      split_ifs
      · exact List.suffix_refl _
      · exact ih.trans (List.suffix_cons b p)

theorem escalation_suffix (q : PragmaQuery) (start : List UInt8) :
    (q.escalation start).cur <:+ start := by
  have hrest : (senAtoi start).2.dropWhile (fun b => isDigit b || b == 0x2d) <:+ start :=
    (List.dropWhile_suffix _).trans (senAtoi_suffix start)
  rw [PragmaQuery.escalation]
  dsimp only
  split_ifs
  · exact (senAtoi_suffix _).trans ((List.tail_suffix _).trans hrest)
  · exact hrest

/-- The loop of `get_pragma` with `end` for the second argument. -/
def getPragmaLoop (encoding : SenEncoding) (q : PragmaQuery) (e : List UInt8) : PragmaQuery :=
  match e with
  | 0x2a :: c :: start =>
      if c = 0x45 then
        have := (escalation_suffix q start).length_le
        getPragmaLoop encoding (q.escalation start) (q.escalation start).cur
      else if c = 0x44 then
        have := (wordEnd_suffix encoding start).length_le
        getPragmaLoop encoding (q.setDefaultOp encoding start) (PragmaQuery.wordEnd encoding start)
      else if c = 0x57 then
        have := (getWeightVector_suffix q.weights start).length_le
        getPragmaLoop encoding (q.weight start) (getWeightVector q.weights start).2
      else getPragmaLoop encoding q (c :: start)
  | _ => q
termination_by e.length
decreasing_by all_goals simp only [List.length_cons]; omega

/-- The pragmas take a first part of the text. -/
theorem getPragmaLoop_suffix {encoding : SenEncoding} {q : PragmaQuery} {e : List UInt8}
    (hcur : e <:+ q.cur) : (getPragmaLoop encoding q e).cur <:+ q.cur := by
  have htail {c : UInt8} {start rest : List UInt8} {q : PragmaQuery}
      (hcur : 0x2a :: c :: start <:+ q.cur) (hrest : rest <:+ start) : rest <:+ q.cur :=
    hrest.trans ((List.suffix_cons _ _).trans ((List.suffix_cons _ _).trans hcur))
  induction q, e using getPragmaLoop.induct encoding with
  | case1 q start _ ih =>
      rw [getPragmaLoop, if_pos rfl]
      exact (ih (List.suffix_refl _)).trans (htail hcur (escalation_suffix q start))
  | case2 q start _ hne ih =>
      rw [getPragmaLoop, if_neg hne, if_pos rfl]
      exact (ih (List.suffix_refl _)).trans (htail hcur (wordEnd_suffix encoding start))
  | case3 q start _ hne hne' ih =>
      rw [getPragmaLoop, if_neg hne, if_neg hne', if_pos rfl]
      exact (ih (List.suffix_refl _)).trans (htail hcur (getWeightVector_suffix q.weights start))
  | case4 q c start he hd hw ih =>
      rw [getPragmaLoop, if_neg he, if_neg hd, if_neg hw]
      exact ih ((List.suffix_cons _ _).trans hcur)
  | case5 q e hnone =>
      rw [getPragmaLoop]
      exact hnone

/-- `get_pragma(q)` -/
def getPragma (encoding : SenEncoding) (q : PragmaQuery) : PragmaQuery :=
  getPragmaLoop encoding q q.cur

/-- What `sen_query_open` does before and after `get_expr`, which leaves its cells and what
the query does not set yet in `raw`. -/
def openPragmas (encoding : SenEncoding) (str : List UInt8) (defaultOp : SelOperator) :
    PragmaQuery :=
  getPragma encoding ⟨str, defaultOp, 0, 2, .unset⟩

theorem openPragmas_suffix (encoding : SenEncoding) (str : List UInt8) (defaultOp : SelOperator) :
    (openPragmas encoding str defaultOp).cur <:+ str :=
  getPragmaLoop_suffix (q := ⟨str, defaultOp, 0, 2, .unset⟩) (List.suffix_refl str)

/-- The query that `sen_query_open` returns after the pragmas `q`. `raw` has the cells that
`get_expr` made of `q.cur`, and the fields that are not set before the query is used. -/
def PragmaQuery.opened (q : PragmaQuery) (raw : SenQuery) : ExecQuery where
  toSenQuery := { raw with
    defaultOp := q.defaultOp
    opt := { raw.opt with weightVector := q.weights.vector, vectorSize := weightVectorSize }
    weightOffset := 0
    snipConds := none }
  escalationThreshold := q.escalationThreshold
  escalationDecaystep := q.escalationDecaystep
  weightSet := q.weights.set

end Senna.Query
