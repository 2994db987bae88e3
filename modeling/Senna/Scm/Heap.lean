/-
# Objects of the query language

The interpreter works on cells that share a `sen_obj`: numbers, strings, times and pairs. They
are reached by pointers, so that a function which changes a cell changes it for everybody who
holds it. Some functions do: a string is converted into a number in place.

Cells are numbered. The first three are `NIL`, `T` and `F`, whose `CAR` and `CDR` are
themselves. Floating-point arithmetic is a parameter, and so is the text that an object is printed
as. Allocations succeed.
-/

import Senna.Str.Number

namespace Senna.Scm

open Senna.Str (senAtoll)

universe u

/-- `int64_t` -/
structure I64 where
  val : Int
  low : -2 ^ 63 ≤ val
  high : val < 2 ^ 63
  deriving DecidableEq

/-- What a word keeps of a number. -/
def I64.wrap (i : Int) : I64 where
  val := i.bmod (2 ^ 64)
  low := by have := Int.le_bmod (x := i) (m := 2 ^ 64) (by decide); omega
  high := by have := Int.bmod_lt (x := i) (m := 2 ^ 64) (by decide); omega

/-- `INT64_MIN` -/
def I64.least : I64 := ⟨-2 ^ 63, le_rfl, by decide⟩

@[ext]
theorem I64.ext {i j : I64} (h : i.val = j.val) : i = j := by
  cases i
  cases j
  simpa using h

theorem I64.wrap_val (i : I64) : I64.wrap i.val = i := by
  have hlow := i.low
  have hhigh := i.high
  exact I64.ext (Int.bmod_eq_of_le_mul_two (by omega) (by omega))

theorem I64.val_wrap {i : Int} (h : -2 ^ 63 ≤ i ∧ i < 2 ^ 63) : (I64.wrap i).val = i :=
  Int.bmod_eq_of_le_mul_two (by omega) (by omega)

/-- What a cell is: its type and value. Types that the functions here only tell from the others
are numbered. -/
inductive Obj (Flt : Type u)
  | void
  | bulk (value : List UInt8)
  | int (i : I64)
  | float (d : Flt)
  | time (sec usec : Int)
  | pair (car cdr : Nat)
  | other (type : Nat)

/-- The cells, and the number of the next one that is not in use. -/
structure Heap (Flt : Type u) where
  cell : Nat → Obj Flt
  next : Nat

/-- `sen_ql_nil` -/
def senQlNil : Nat := 0

/-- `sen_ql_t` -/
def senQlT : Nat := 1

/-- `sen_ql_f` -/
def senQlF : Nat := 2

namespace Heap

variable {Flt : Type u} (m : Heap Flt)

/-- `CAR` -/
def car (x : Nat) : Nat :=
  match m.cell x with
  | .pair a _ => a
  | _ => x

/-- `CDR` -/
def cdr (x : Nat) : Nat :=
  match m.cell x with
  | .pair _ d => d
  | _ => x

/-- A cell, changed. -/
def set (x : Nat) (o : Obj Flt) : Heap Flt := { m with cell := Function.update m.cell x o }

/-- `SEN_OBJ_NEW`, and what is stored in the new cell. -/
def alloc (o : Obj Flt) : Nat × Heap Flt :=
  (m.next, { cell := Function.update m.cell m.next o, next := m.next + 1 })

/-- A heap with the objects `os` in the first cells behind `F`. -/
def ofObjs (os : List (Obj Flt)) : Heap Flt where
  cell x := if x < 3 then .void else os.getD (x - 3) .void
  next := os.length + 3

/-- `args` is a list of the objects `xs`, ended by `NIL`. -/
inductive IsList : Nat → List Nat → Prop
  | nil : IsList senQlNil []
  | cons {p a d : Nat} {xs : List Nat} (hcell : m.cell p = .pair a d) (hrest : IsList d xs) :
      IsList p (a :: xs)

end Heap

section Convert

variable {Flt : Type u}

/-- The number that `sen_obj2int` finds in an object. -/
def Obj.toInt? : Obj Flt → Option I64
  | .bulk value =>
      if value ≠ [] ∧ (senAtoll value).2 = [] then some (.wrap (senAtoll value).1) else none
  | .int i => some i
  | _ => none

/-- `sen_obj2int`: the number and the heap, where a string has become that number. -/
def senObj2int (m : Heap Flt) (x : Nat) : Option (I64 × Heap Flt) :=
  match m.cell x with
  | .bulk value =>
      if value ≠ [] ∧ (senAtoll value).2 = [] then
        let i := I64.wrap (senAtoll value).1
        some (i, m.set x (.int i))
      else none
  | .int i => some (i, m)
  | _ => none

/-- Whether `sen_obj2int` changes an object. -/
def Obj.converts (o : Obj Flt) : Bool :=
  match o with
  | .bulk _ => o.toInt?.isSome
  | _ => false

theorem senObj2int_eq (m : Heap Flt) (x : Nat) :
    senObj2int m x = (m.cell x).toInt?.map fun i =>
      (i, if (m.cell x).converts then m.set x (.int i) else m) := by
  unfold senObj2int Obj.converts
  cases hx : m.cell x with
  | bulk value =>
      simp only [Obj.toInt?]
      split_ifs with hnum <;> simp_all
  | int i => simp [Obj.toInt?]
  | _ => simp [Obj.toInt?]

end Convert

end Senna.Scm
