/-
# Sorting the entries of a set

`sen_set_sort` collects the entries of a set into an array and sorts its first `limit`
elements. Collecting is already the first partition of a quicksort: the entry found
first, in the middle of the index, is the pivot. `_sort_int` and `_sort_func` are one
algorithm with two ways of comparing and of naming the pivot, so both are instances of
`sortRange`. Ranges are half open here: where the source passes `tail`, the model passes
`stop = tail + 1`. A step that reads or writes outside the array or the index returns
`none`, as does a loop that runs out of fuel.
-/

import Senna.Lib.Sorting
import Senna.Set.Table

namespace Senna.Set

open Senna.Lib

universe u v

variable {ε : Type u} {σ : Type v}

/-- The two tests a sort makes: `lt x y` and `gt x y`. -/
structure Cmp (ε : Type u) where
  lt : ε → ε → Bool
  gt : ε → ε → Bool

/-- The value of a product of two `int`. -/
def mulInt (a b : Int) : Int := (a * b).bmod (2 ^ 32)

/-- `INT_OFFSET_VAL`: the word at `offset` of an entry, with the sign of the direction. -/
def intOffsetVal (word : ε → Int → Int) (offset dir : Int) (x : ε) : Int :=
  mulInt (word x offset) dir

/-- The comparisons of `pack_int` and `part_int`. -/
def intCmp (word : ε → Int → Int) (offset dir : Int) : Cmp ε where
  lt x y := decide (intOffsetVal word offset dir x < intOffsetVal word offset dir y)
  gt x y := decide (intOffsetVal word offset dir x > intOffsetVal word offset dir y)

/-- The type of a comparison function; the last argument is `compar_arg`. -/
abbrev Compar (σ : Type v) (ε : Type u) := σ → ε → σ → ε → Nat → Int

/-- The comparisons of `pack_func` and `part_func`. -/
def funcCmp (func : Compar σ ε) (arg : Nat) (arg0 : σ) (dir : Int) : Cmp ε where
  lt x y := decide (mulInt (func arg0 x arg0 y arg) dir < 0)
  gt x y := decide (mulInt (func arg0 x arg0 y arg) dir > 0)

section

variable (cmp : Cmp ε)

/-- The loop of `pack_int` and `pack_func` over the `n` entries still to come, and the
store of the pivot `c` after it. -/
def packLoop (index : List (Slot ε)) (m : Nat) (c : ε) (k : Nat) :
    Nat → List ε → Nat → Nat → Nat → Option (List ε × Nat)
  | 0, res, head, _, _ => (store res head c).map fun res => (res, head)
  | n + 1, res, head, tail, i =>
      (nextLive index m k ((i + 1) &&& m)).bind fun (i, e) =>
        if cmp.lt e c then
          (store res head e).bind fun res => packLoop index m c k n res (head + 1) tail i
        else
          (store res tail e).bind fun res => packLoop index m c k n res head (tail - 1) i

/-- `pack_int` and `pack_func`: the array and the position of the pivot, if there is
anything left to sort. -/
def pack (t : Table ε) (res : List ε) (k : Nat) : Option (List ε × Option Nat) :=
  (nextLive t.index t.maxOffset k (t.maxOffset >>> 1)).bind fun (i, c) =>
    (packLoop cmp t.index t.maxOffset c k (t.nEntries - 1) res 0 (t.nEntries - 1) i).map
      fun (res, head) => (res, if t.nEntries > 2 then some head else none)

/-- How the partition loop finds its pivot: from the value read before the loop, from the
position it was moved to, and from the array. -/
abbrev PivotRule (ε : Type u) := ε → Nat → List ε → Option ε

variable (pv : List ε → Option ε)

/-- `while (*++b < pivot) ;` -/
def scanUp (a : List ε) : Nat → Nat → Option Nat
  | 0, _ => none
  | k + 1, b =>
      a[b + 1]?.bind fun x => (pv a).bind fun p =>
        if cmp.lt x p then scanUp a k (b + 1) else some (b + 1)

/-- `while (*--e > pivot) ;` -/
def scanDown (a : List ε) : Nat → Nat → Option Nat
  | 0, _ => none
  | _ + 1, 0 => none
  | k + 1, e + 1 =>
      a[e]?.bind fun x => (pv a).bind fun p =>
        if cmp.gt x p then scanDown a k e else some e

/-- The loop of `part_int` and `part_func`; it ends with the position of `e`. -/
def partLoop : Nat → List ε → Nat → Nat → Option (List ε × Nat)
  | 0, _, _, _ => none
  | k + 1, a, b, e =>
      (scanUp cmp pv a k b).bind fun b =>
        (scanDown cmp pv a k e).bind fun e =>
          if b ≥ e then some (a, e)
          else (swap a b e).bind fun a => partLoop k a b e

end

/-- Exchange the elements at `i` and `j` when the first is greater. -/
def swapIfGt (cmp : Cmp ε) (a : List ε) (i j : Nat) : Option (List ε) :=
  a[i]?.bind fun x => a[j]?.bind fun y => if cmp.gt x y then swap a i j else some a

/-- The median of `*b`, `*c` and `*e` to `c`, the smallest to `b` and the greatest to `e`,
where `*b` is not greater than `*e`. -/
def median (cmp : Cmp ε) (a : List ε) (b c e : Nat) : Option (List ε) :=
  a[b]?.bind fun x => a[c]?.bind fun y =>
    if cmp.gt x y then swap a b c else swapIfGt cmp a c e

/-- `part_int` and `part_func` of the elements from `b` to `e`: the array and the position
of the pivot, if there is anything left to sort. -/
def part (cmp : Cmp ε) (pv : PivotRule ε) (k : Nat) (a : List ε) (b e : Nat) :
    Option (List ε × Option Nat) :=
  (swapIfGt cmp a b e).bind fun a =>
    if e - b < 2 then some (a, none)
    else
      (median cmp a b (b + (e - b) / 2) e).bind fun a =>
        if e - b < 3 then some (a, none)
        else
          a[b + (e - b) / 2]?.bind fun ck =>
            (swap a (b + 1) (b + (e - b) / 2)).bind fun a =>
              (partLoop cmp (pv ck (b + 1)) k a (b + 1) e).bind fun (a, e) =>
                (swap a (b + 1) e).map fun a => (a, some e)

/-- `_sort_int` and `_sort_func` of the elements in `[head, stop)`. -/
def sortRange (cmp : Cmp ε) (pv : PivotRule ε) :
    Nat → List ε → Nat → Nat → Int → Option (List ε)
  | 0, _, _, _, _ => none
  | k + 1, a, head, stop, limit =>
      if head + 1 < stop then
        (part cmp pv k a head (stop - 1)).bind fun (a, c) =>
          match c with
          | none => some a
          | some c =>
              (sortRange cmp pv k a head c limit).bind fun a =>
                if limit - 1 - ((c : Int) - head) > 0 then
                  sortRange cmp pv k a (c + 1) stop (limit - 1 - ((c : Int) - head))
                else some a
      else some a

/-- `sort_int` and `sort_func`. -/
def sort (cmp : Cmp ε) (pv : PivotRule ε) (t : Table ε) (res : List ε) (limit : Int) (k : Nat) :
    Option (List ε) :=
  (pack cmp t res k).bind fun (res, c) =>
    match c with
    | none => some res
    | some c =>
        (sortRange cmp pv k res 0 c limit).bind fun res =>
          if limit - 1 - (c : Int) > 0 then
            sortRange cmp pv k res (c + 1) t.nEntries (limit - 1 - (c : Int))
          else some res

/-- `sort_int`: the pivot of the partition is the value read before the loop. -/
def sortInt (word : ε → Int → Int) (t : Table ε) (res : List ε) (limit offset dir : Int) :
    Nat → Option (List ε) :=
  sort (intCmp word offset dir) (fun ck _ _ => some ck) t res limit

/-- `sort_func`: the pivot of the partition is read from its position in every comparison. -/
def sortFunc (func : Compar σ ε) (t : Table ε) (res : List ε) (limit : Int) (arg : Nat)
    (arg0 : σ) (dir : Int) : Nat → Option (List ε) :=
  sort (funcCmp func arg arg0 dir) (fun _ c a => a[c]?) t res limit

/-- `sen_sort_mode`. -/
inductive SortMode
  | descending
  | ascending
  deriving DecidableEq, Repr

/-- `sen_set_sort_optarg`; a pointer argument that is null is `0` or `none`. -/
structure SortOptarg (σ : Type v) (ε : Type u) where
  mode : SortMode
  compar : Option (Compar σ ε)
  comparArg : Nat
  comparArg0 : Option σ

/-- What is read of the memory of an entry: the `int32_t` at an offset in words, and the
key of a string or binary set. -/
structure Entries (ε : Type u) where
  word : ε → Int → Int
  strKey : ε → List UInt8
  binKey : ε → List UInt8

/-- `strcmp` and `memcmp`, of which only the sign is defined. -/
def cmpBytes : List UInt8 → List UInt8 → Int
  | [], [] => 0
  | [], _ :: _ => -1
  | _ :: _, [] => 1
  | x :: xs, y :: ys => if x < y then -1 else if y < x then 1 else cmpBytes xs ys

/-- `func_str`. -/
def funcStr (m : Entries ε) : Compar σ ε := fun _ x _ y _ => cmpBytes (m.strKey x) (m.strKey y)

/-- `func_bin`; `arg` is the key size. -/
def funcBin (m : Entries ε) : Compar σ ε := fun _ x _ y arg =>
  cmpBytes ((m.binKey x).take arg) ((m.binKey y).take arg)

/-- The direction `dir` that a call sorts in. -/
def sortDir : Option (SortOptarg σ ε) → Int
  | none => 1
  | some o => if o.mode = .ascending then 1 else -1

/-- How a call compares: by a comparison function or by a field of the entries. -/
inductive SortBy (σ : Type v) (ε : Type u)
  | func (func : Compar σ ε) (arg : Nat) (arg0 : σ)
  | int (offset : Int)

/-- The dispatch of `sen_set_sort`; `self` is the set. -/
def sortBy (t : Table ε) (m : Entries ε) (self : σ) (optarg : Option (SortOptarg σ ε)) :
    SortBy σ ε :=
  let byKey := match t.keySize with
    | 0 => .func (funcStr m) 0 self
    | 4 => .int 0
    | keySize => .func (funcBin m) keySize self
  match optarg with
  | none => byKey
  | some o =>
      match o.compar with
      | some compar => .func compar o.comparArg (o.comparArg0.getD self)
      | none =>
          if o.comparArg ≠ 0 then .int (((o.comparArg / 4 : Nat) : Int).bmod (2 ^ 32))
          else byKey

/-- `sen_set_sort`: `res` is what `SEN_MALLOC` returns for the array, `none` when it
fails. The inner `none` is the null pointer. -/
def senSetSort (t : Table ε) (m : Entries ε) (self : σ) (res : Option (List ε)) (limit : Int)
    (optarg : Option (SortOptarg σ ε)) (k : Nat) : Option (Option (List ε)) :=
  if t.nEntries = 0 then some none
  else
    match res with
    | none => some none
    | some res =>
        let limit := if limit = 0 ∨ limit > t.nEntries then (t.nEntries : Int) else limit
        match sortBy t m self optarg with
        | .func func arg arg0 => (sortFunc func t res limit arg arg0 (sortDir optarg) k).map some
        | .int offset => (sortInt m.word t res limit offset (sortDir optarg) k).map some

end Senna.Set
