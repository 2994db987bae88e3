/-
# Printing objects as JSON

`disp_j` prints the values of the query language: constants, symbols, integers, strings, references
to objects, sets of records, and lists. A list headed by `@` is printed as an object, and one headed
by `:` is a request to `disp_j_with_format`, which evaluates slots of records; what that function
appends is a parameter here.

Names and keys are the bytes before their NUL. A reference is what `_sen_obj_key` returns
for it: the key of its node, which is still there when the object has been deleted, or the null
pointer where its class is gone. A set of records is what is returned for those that the cursor
over it comes by. Memory can be had.
-/

import Senna.Scm.Heap
import Senna.Str.Escape

namespace Senna.Scm

open Senna.Snip (SenEncoding)
open Senna.Str (senStrLltoa decimalText strEscPieces)

/-- A value that is printed or read. -/
inductive Val
  | nil
  | t
  | f
  | symbol (name : List UInt8)
  | bulk (value : List UInt8)
  | int (i : I64)
  | object (key : Option (List UInt8))
  | records (keys : List (Option (List UInt8)))
  | pair (car cdr : Val)
  deriving DecidableEq

/-- `INTERN("null")` -/
def symNull : List UInt8 := [0x6e, 0x75, 0x6c, 0x6c]

/-- `INTERN("@")` -/
def symAt : List UInt8 := [0x40]

/-- `INTERN(":")` -/
def symColon : List UInt8 := [0x3a]

section

variable (encoding : SenEncoding) (dispJWithFormat : Val → List UInt8)

/-- What `sen_rbuf_str_esc` appends. -/
def escaped (value : List UInt8) (len : Int) : List UInt8 :=
  (strEscPieces value len encoding).flatten

/-- What is printed for a symbol: a colon at the start of its name is left out. -/
def dispSymbol (name : List UInt8) : List UInt8 :=
  if name = symNull then symNull
  else escaped encoding (if name.head? = some 0x3a then name.tail else name) (-1)

/-- `sen_rbuf_lltoa`, which makes room until the text fits. -/
def dispInt (i : I64) : List UInt8 := (senStrLltoa i.val 20).getD []

/-- What is printed for a reference: the key that `_sen_obj_key` returns, of an object that has been
deleted, too, or `<LOSTKEY>` where it returns none as there is no class any more. -/
def dispObject : Option (List UInt8) → List UInt8
  | some key => escaped encoding key (-1)
  | none => [0x3c, 0x4c, 0x4f, 0x53, 0x54, 0x4b, 0x45, 0x59, 0x3e]

/-- The loop over the records, from the one with the number `i` on. -/
def dispRecords : Nat → List (Option (List UInt8)) → List UInt8
  | _, [] => [0x5d]
  | i, key :: keys =>
      (if i ≠ 0 then [0x2c, 0x20] else []) ++ dispObject encoding key ++ dispRecords (i + 1) keys

/-- `disp_j` on a value that is not a list. -/
def dispAtom : Val → List UInt8
  | .nil => [0x5b, 0x5d]
  | .t => [0x74, 0x72, 0x75, 0x65]
  | .f => [0x66, 0x61, 0x6c, 0x73, 0x65]
  | .symbol name => dispSymbol encoding name
  | .bulk value => escaped encoding value value.length
  | .int i => dispInt i
  | .object key => dispObject encoding key
  | .records keys => 0x5b :: dispRecords encoding 0 keys
  | .pair _ _ => []

/-- What stands between two elements; in an object `o` tells that the one before is no key. -/
def separator (hashp o : Bool) : List UInt8 :=
  if hashp ∧ ¬ o then [0x3a, 0x20] else [0x2c, 0x20]

/-- `]`, or `}` for an object. -/
def closer (hashp : Bool) : UInt8 := if hashp then 0x7d else 0x5d

mutual

/-- `disp_j(ctx, obj, buf)`: what it appends to `buf`. -/
def dispJ : Val → List UInt8
  | .pair car cdr =>
      if car = .symbol symColon then dispJWithFormat cdr
      else if car = .symbol symAt then 0x7b :: dispMembers cdr
      else 0x5b :: dispJ car ++ dispRest false false cdr
  | v => dispAtom encoding v

/-- The loop over what follows `@`. -/
def dispMembers : Val → List UInt8
  | .pair car cdr => dispJ car ++ dispRest true false cdr
  | _ => [0x7d]

/-- Both loops behind an element. -/
def dispRest (hashp o : Bool) : Val → List UInt8
  | .nil => [closer hashp]
  | .pair car cdr => separator hashp o ++ dispJ car ++ dispRest hashp (!o) cdr
  | v => [0x20, 0x2e, 0x20] ++ dispAtom encoding v ++ [closer hashp]

end

end

theorem iton_least : Str.iton 64 (-2 ^ 63) 20 = some [0x2d, 0x28] := by
  decide

/-- The least integer is printed as `-(`. -/
theorem dispInt_least : dispInt I64.least = [0x2d, 0x28] := by
  rw [dispInt, senStrLltoa, show I64.least.val = -2 ^ 63 from rfl, iton_least, Option.getD_some]

/-- An integer is printed as its decimal text, unless it is the least one. -/
theorem dispInt_eq {i : I64} (h : i ≠ I64.least) : dispInt i = decimalText i.val := by
  have hlow : -2 ^ 63 < i.val := lt_of_le_of_ne i.low fun hi => h (I64.ext hi.symm)
  have hlen : (decimalText i.val).length ≤ 20 := by
    refine Str.length_decimalText (k := 19) (by decide) ?_
    have hhigh := i.high
    omega
  rw [dispInt, senStrLltoa, Str.iton_eq (w := 63) ⟨hlow, i.high⟩, if_pos hlen, Option.getD_some]

end Senna.Scm
