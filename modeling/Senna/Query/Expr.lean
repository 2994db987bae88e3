/-
# Query expressions and their boolean meaning

A parsed query is a list of cells: operators, keywords and nested lists. `evalCells` is the
left-to-right fold that the evaluators of the query module are meant to compute, over any
boolean algebra: sets of documents for the index executor, truth values for the scanner
of one text.

The fold commutes with every map that preserves the operations (`evalCells_map`), so that
the value for one document is the fold of what the keywords say about that document.
-/

import Mathlib.Order.Hom.BoundedLattice
import Mathlib.Order.BooleanAlgebra.Basic
import Mathlib.Order.BooleanAlgebra.Set
import Senna.Base

namespace Senna.Query

universe u v

/-- `sen_sel_operator`. -/
inductive SelOperator
  | or
  | and
  | but
  | adjust
  deriving DecidableEq, Repr

/-- `sen_sel_mode`. -/
inductive SelMode
  | exact
  | partial_
  | unsplit
  | near
  | near2
  | similar
  | termExtract
  | prefix_
  | suffix
  deriving DecidableEq, Repr

/-- The operator cell: `mode` is `none` for -1. -/
structure Op where
  op : SelOperator
  weight : Int
  mode : Option SelMode
  option : Int
  deriving DecidableEq, Repr

/-- A cell. `NIL`, also the empty list, is `nil`; a `list` has at least one element. -/
inductive Cell
  | nil
  | op (o : Op)
  | bulk (value : List UInt8)
  | list (l : List Cell)

section

variable {α : Type u} {β : Type v} [BooleanAlgebra α] [BooleanAlgebra β]

/-- What an operator makes of the accumulator and an operand. -/
def SelOperator.apply : SelOperator → α → α → α
  | .or, a, x => a ⊔ x
  | .and, a, x => a ⊓ x
  | .but, a, x => a \ x
  | .adjust, a, _ => a

/-- `*opp`: the first operand is joined with `or`, a later one with the operator cell
before it, or the default operator. -/
def operator (defaultOp : SelOperator) (first : Bool) (ope : Option Op) : SelOperator :=
  if first then .or else (ope.map Op.op).getD defaultOp

variable (defaultOp : SelOperator) (hit : Option Op → List UInt8 → α)

mutual

/-- The value of an operand after the operator cell `ope`; `NIL` has none. -/
def evalCell : Option Op → Cell → Option α
  | _, .nil => none
  | _, .op _ => none
  | ope, .bulk v => some (hit ope v)
  | _, .list l => some (evalCells true none ⊥ l)

/-- The value of a list of cells from some cell on: `first` until there was an operand,
`ope` is the operator cell before the next operand, `a` the value so far. A leading `but`
drops the cell after it; a `NIL` changes nothing, but it takes the place of an operand. -/
def evalCells : Bool → Option Op → α → List Cell → α
  | _, _, a, [] => a
  | first, ope, a, .op o :: c =>
      if first ∧ o.op = .but then
        match c with
        | [] => a
        | _ :: c => evalCells first ope a c
      else evalCells first (some o) a c
  | first, ope, a, e :: c =>
      evalCells false none
        ((evalCell ope e).elim a ((operator defaultOp first ope).apply a)) c

end

/-- The value of a whole list. -/
def evalExpr (l : List Cell) : α := evalCells defaultOp hit true none ⊥ l

/-- A map that preserves the operations goes through an operator. -/
theorem SelOperator.map_apply (f : BoundedLatticeHom α β) (op : SelOperator) (a x : α) :
    f (op.apply a x) = op.apply (f a) (f x) := by
  cases op with
  | or => exact map_sup f a x
  | and => exact map_inf f a x
  | but => exact map_sdiff' f a x
  | adjust => rfl

mutual

theorem evalCell_map (f : BoundedLatticeHom α β) (ope : Option Op) :
    ∀ e, (evalCell defaultOp hit ope e).map f = evalCell defaultOp (fun o v => f (hit o v)) ope e
  | .nil => rfl
  | .op _ => rfl
  | .bulk _ => rfl
  | .list l => by
      have h := evalCells_map f true none ⊥ l
      rw [map_bot] at h
      exact congrArg some h

/-- A map that preserves the operations goes through the fold. -/
theorem evalCells_map (f : BoundedLatticeHom α β) :
    ∀ (first : Bool) (ope : Option Op) (a : α) (c : List Cell),
      f (evalCells defaultOp hit first ope a c) =
        evalCells defaultOp (fun o v => f (hit o v)) first ope (f a) c
  | _, _, _, [] => rfl
  | first, ope, a, .op o :: c => by
      unfold evalCells
      split_ifs
      · match c with
        | [] => rfl
        | _ :: c => exact evalCells_map f first ope a c
      · exact evalCells_map f first (some o) a c
  | first, ope, a, .nil :: c => evalCells_map f false none a c
  | first, ope, a, .bulk v :: c => by
      have h := evalCells_map f false none ((operator defaultOp first ope).apply a (hit ope v)) c
      rw [SelOperator.map_apply] at h
      exact h
  | first, ope, a, .list l :: c => by
      have h := evalCells_map f false none
        ((operator defaultOp first ope).apply a (evalCells defaultOp hit true none ⊥ l)) c
      rw [SelOperator.map_apply, evalCells_map f true none ⊥ l, map_bot] at h
      exact h

end

end

mutual

/-- The keywords of an operand. -/
def Cell.leaves : Cell → List (List UInt8)
  | .nil => []
  | .op _ => []
  | .bulk v => [v]
  | .list l => leaves true l

/-- The keywords of the evaluated leaves, in order. -/
def leaves : Bool → List Cell → List (List UInt8)
  | _, [] => []
  | first, .op o :: c =>
      if first ∧ o.op = .but then
        match c with
        | [] => []
        | _ :: c => leaves first c
      else leaves first c
  | _, e :: c => e.leaves ++ leaves false c

end

section

variable {D : Type u}

/-- Membership of one element, as a truth value. -/
def memHom (d : D) : BoundedLatticeHom (Set D) Prop where
  toFun s := d ∈ s
  map_sup' _ _ := rfl
  map_inf' _ _ := rfl
  map_top' := rfl
  map_bot' := rfl

/-- The proposition of a truth value. -/
def boolHom : BoundedLatticeHom Bool Prop where
  toFun b := b = true
  map_sup' a b := by simp
  map_inf' a b := by simp
  map_top' := by simp
  map_bot' := by simp

/-- An operator on sets, for one element. -/
theorem SelOperator.mem_apply (op : SelOperator) {d : D} {s t : Set D} {a b : Bool}
    (hs : d ∈ s ↔ a = true) (ht : d ∈ t ↔ b = true) :
    d ∈ op.apply s t ↔ op.apply a b = true := by
  have hset := SelOperator.map_apply (memHom d) op s t
  have hbool := SelOperator.map_apply boolHom op a b
  have hs' : memHom d s = boolHom a := propext hs
  have ht' : memHom d t = boolHom b := propext ht
  rw [hs', ht'] at hset
  exact Iff.of_eq (hset.trans hbool.symm)

/-- The fold of sets has an element exactly if the fold of what the keywords say about that
element is true. -/
theorem mem_evalExpr (defaultOp : SelOperator) {hit : Option Op → List UInt8 → Set D}
    {holds : Option Op → List UInt8 → Bool} {d : D}
    (hhit : ∀ o v, d ∈ hit o v ↔ holds o v = true) (l : List Cell) :
    d ∈ evalExpr defaultOp hit l ↔ evalExpr defaultOp holds l = true := by
  have hset := evalCells_map defaultOp hit (memHom d) true none ⊥ l
  have hbool := evalCells_map defaultOp holds boolHom true none ⊥ l
  have hsame : (fun o v => memHom d (hit o v)) = fun o v => boolHom (holds o v) :=
    funext fun o => funext fun v => propext (hhit o v)
  rw [map_bot, hsame] at hset
  rw [map_bot] at hbool
  exact Iff.of_eq (hset.trans hbool.symm)

end

end Senna.Query
