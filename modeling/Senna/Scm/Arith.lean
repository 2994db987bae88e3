/-
# Arithmetic of the query language

`nf_add`, `nf_sub`, `nf_mul`, `nf_div` and `nf_rem` run over their argument list with a new number
that starts at 0 or 1 or at the first argument. A string among the arguments is made
a number first, and stays one. The processor traps a division by zero, and that of the least
number by -1.

An argument list is given by the objects that `POP` takes from it. The list ends with `NIL`.
-/

import Senna.Scm.Heap

namespace Senna.Scm

universe u

variable {Flt : Type u}

/-- The operators that `do_op` is expanded with. -/
inductive ArithOp
  | add
  | sub
  | mul
  | div
  deriving DecidableEq, Repr

/-- The operators that `do_compare` is expanded with, and `=`. -/
inductive Rel
  | eq
  | lt
  | gt
  | le
  | ge
  deriving DecidableEq, Repr

/-- The floating-point operations of the machine. `timeDiff` is the number of seconds between two
times, and `timeShift` a time moved by some seconds, if its seconds are an `int32_t`. -/
structure FloatOps (Flt : Type u) where
  ofInt : Int → Flt
  arith : ArithOp → Flt → Flt → Flt
  rel : Rel → Flt → Flt → Bool
  timeDiff : ArithOp → Int × Int → Int × Int → Flt
  timeShift : ArithOp → Int × Int → Flt → Option (Int × Int)

/-- A machine whose floats have one value. -/
def FloatOps.unit : FloatOps Unit where
  ofInt _ := ()
  arith _ _ _ := ()
  rel _ _ _ := true
  timeDiff _ _ _ := ()
  timeShift _ _ _ := none

/-- The value of the new number `v`. -/
inductive Num (Flt : Type u)
  | int (i : I64)
  | float (d : Flt)

/-- The cell of a number. -/
def Num.obj : Num Flt → Obj Flt
  | .int i => .int i
  | .float d => .float d

/-- Why a function does not return a value: `QLERR`, or a trap of the processor. -/
inductive Fault
  | error (msg : String)
  | trap
  deriving DecidableEq, Repr

/-- The machine's division traps. -/
def I64.Traps (a b : I64) : Prop := b.val = 0 ∨ a = .least ∧ b.val = -1

instance (a b : I64) : Decidable (I64.Traps a b) := inferInstanceAs (Decidable (_ ∨ _))

/-- An operator on two words. -/
def ArithOp.onInt (op : ArithOp) (a b : I64) : Except Fault I64 :=
  match op with
  | add => .ok (.wrap (a.val + b.val))
  | sub => .ok (.wrap (a.val - b.val))
  | mul => .ok (.wrap (a.val * b.val))
  | div => if I64.Traps a b then .error .trap else .ok (.wrap (a.val.tdiv b.val))

section Functions

variable (fl : FloatOps Flt)

/-- `do_op(x, y, op)` on the value `v` of `x`. -/
def doOp (op : ArithOp) (m : Heap Flt) (v : Num Flt) (y : Nat) :
    Except Fault (Num Flt) × Heap Flt :=
  match v, m.cell y with
  | .int a, .int b => ((op.onInt a b).map .int, m)
  | .int a, .float d => (.ok (.float (fl.arith op (fl.ofInt a.val) d)), m)
  | .int a, _ =>
      match senObj2int m y with
      | none => (.error (.error "can't convert into numeric value"), m)
      | some (b, m) => ((op.onInt a b).map .int, m)
  | .float d, .int b => (.ok (.float (fl.arith op d (fl.ofInt b.val))), m)
  | .float d, .float e => (.ok (.float (fl.arith op d e)), m)
  | .float d, _ =>
      match senObj2int m y with
      | none => (.error (.error "can't convert into numeric value"), m)
      | some (b, m) => (.ok (.float (fl.arith op d (fl.ofInt b.val))), m)

/-- `while (PAIRP(args)) { POP(x, args); do_op(v, x, op); }`, with `prepare` before each `do_op`. -/
def opLoop (op : ArithOp) (prepare : Heap Flt → Num Flt → Nat → Num Flt) :
    List Nat → Heap Flt → Num Flt → Except Fault (Num Flt) × Heap Flt
  | [], m, v => (.ok v, m)
  | x :: xs, m, v =>
      match doOp fl op m (prepare m v x) x with
      | (.ok v, m) => opLoop op prepare xs m v
      | failed => failed

/-- Nothing is done before `do_op`. -/
def keepNum (_ : Heap Flt) (v : Num Flt) (_ : Nat) : Num Flt := v

/-- What `nf_div` does before `do_op`: an integer is made a float if it is to be divided by an
object that is the integer 0. -/
def floatIfZero (m : Heap Flt) (v : Num Flt) (x : Nat) : Num Flt :=
  match v, m.cell x with
  | .int a, .int b => if b.val = 0 then .float (fl.ofInt a.val) else v
  | _, _ => v

/-- `time_op(x, y, v, op)` on the time of `x`. -/
def timeOp (op : ArithOp) (m : Heap Flt) (x : Int × Int) (y : Nat) : Except Fault (Obj Flt) :=
  match m.cell y with
  | .time sec usec => .ok (.float (fl.timeDiff op x (sec, usec)))
  | .int i =>
      let sec := match op with
        | .sub => (I64.wrap (x.1 - i.val)).val
        | _ => (I64.wrap (x.1 + i.val)).val
      if sec < -2 ^ 31 ∨ 2 ^ 31 - 1 < sec then .error (.error "time val overflow")
      else .ok (.time sec x.2)
  | .float d =>
      match fl.timeShift op x d with
      | some (sec, usec) => .ok (.time sec usec)
      | none => .error (.error "time val overflow")
  | _ => .error (.error "can't convert into numeric value")

/-- A function's return: a new object, or the fault that ended it. -/
def returnNew (m : Heap Flt) (r : Except Fault (Obj Flt)) : Except Fault Nat × Heap Flt :=
  match r with
  | .ok o => (.ok (m.alloc o).1, (m.alloc o).2)
  | .error e => (.error e, m)

/-- The return of the number that a loop has come to. -/
def returnNum (r : Except Fault (Num Flt) × Heap Flt) : Except Fault Nat × Heap Flt :=
  returnNew r.2 (r.1.map Num.obj)

/-- `nf_add`; `inspect` is the text that `sen_obj_inspect` prints. -/
def nfAdd (inspect : Heap Flt → Nat → List UInt8) (m : Heap Flt) (args : List Nat) :
    Except Fault Nat × Heap Flt :=
  match args with
  | [] => (.error (.error "list required"), m)
  | x :: xs =>
      match m.cell x with
      | .bulk _ => returnNew m (.ok (.bulk (args.flatMap (inspect m))))
      | .time sec usec =>
          match xs.head?.map m.cell with
          | some (.int _) | some (.float _) => returnNew m (timeOp fl .add m (sec, usec) xs[0]!)
          | _ => (.error (.error "can't convert into numeric value"), m)
      | _ => returnNum (opLoop fl .add keepNum args m (.int (.wrap 0)))

/-- `nf_sub` -/
def nfSub (m : Heap Flt) (args : List Nat) : Except Fault Nat × Heap Flt :=
  match args with
  | x :: y :: xs =>
      match m.cell x with
      | .time sec usec => returnNew m (timeOp fl .sub m (sec, usec) y)
      | _ =>
          match doOp fl .add m (.int (.wrap 0)) x with
          | (.ok v, m) => returnNum (opLoop fl .sub keepNum (y :: xs) m v)
          | (.error e, m) => (.error e, m)
  | _ => returnNum (opLoop fl .sub keepNum args m (.int (.wrap 0)))

/-- `nf_mul`. A string is repeated when an integer follows. -/
def nfMul (inspect : Heap Flt → Nat → List UInt8) (m : Heap Flt) (args : List Nat) :
    Except Fault Nat × Heap Flt :=
  let product := returnNum (opLoop fl .mul keepNum args m (.int (.wrap 1)))
  match args with
  | x :: y :: _ =>
      match m.cell x, m.cell y with
      | .bulk _, .int i =>
          let n := i.val.bmod (2 ^ 32)
          returnNew m (.ok (.bulk (List.replicate n.toNat (inspect m x)).flatten))
      | _, _ => product
  | _ => product

/-- `nf_div` -/
def nfDiv (m : Heap Flt) (args : List Nat) : Except Fault Nat × Heap Flt :=
  match args with
  | x :: y :: xs =>
      match doOp fl .add m (.int (.wrap 0)) x with
      | (.ok v, m) => returnNum (opLoop fl .div (floatIfZero fl) (y :: xs) m v)
      | (.error e, m) => (.error e, m)
  | _ => returnNum (opLoop fl .div (floatIfZero fl) args m (.int (.wrap 1)))

end Functions

/-- The loop of `nf_rem`. -/
def remLoop : List Nat → Heap Flt → I64 → Except Fault I64 × Heap Flt
  | [], m, v => (.ok v, m)
  | x :: xs, m, v =>
      match senObj2int m x with
      | none => (.error (.error "can't convert into integer"), m)
      | some (i, m) =>
          if i.val ≠ 0 then
            if I64.Traps v i then (.error .trap, m)
            else remLoop xs m (.wrap (v.val.tmod i.val))
          else (.error (.error "Divided by zero"), m)

/-- `nf_rem`. Without an argument it looks at `CAR(NIL)`, which is no number. -/
def nfRem (m : Heap Flt) (args : List Nat) : Except Fault Nat × Heap Flt :=
  match args with
  | [] => (.error (.error "can't convert into integer"), m)
  | x :: xs =>
      match senObj2int m x with
      | none => (.error (.error "can't convert into integer"), m)
      | some (i, m) => returnNum (((remLoop xs m i).1.map .int), (remLoop xs m i).2)

/-- The functions of arithmetic. -/
inductive ArithFn
  | add
  | sub
  | mul
  | div
  | rem
  deriving DecidableEq, Repr

/-- What a function does with its arguments. -/
def ArithFn.run (fl : FloatOps Flt) (inspect : Heap Flt → Nat → List UInt8) :
    ArithFn → Heap Flt → List Nat → Except Fault Nat × Heap Flt
  | add => nfAdd fl inspect
  | sub => nfSub fl
  | mul => nfMul fl inspect
  | div => nfDiv fl
  | rem => nfRem

end Senna.Scm
