/-
# Sub-records

The value of a record is its `recinfo`: the score, the number of its sub-records, and
room for the best of them. A sub-record takes a score of four bytes and a body of a fixed
size, and the sub-records form a binary heap with the worst one at the root.

The sub-records are bytes here, as in the source. On bytes that hold a list of
sub-records the two functions of the heap are `siftUp` and `siftDown` on this list.
-/

import Senna.Index.RecordsHeap
import Senna.Index.Select
import Senna.Query.Expr

namespace Senna.Index

open Senna.Io Senna.Lib Senna.Set Senna.Query

/-- The `int` of a 32-bit value. -/
def toInt (v : Int) : Int := v.bmod (2 ^ 32)

/-- `memcpy` to the place `i` of an array. -/
def writeAt (a : List UInt8) (i : Nat) (bs : List UInt8) : Option (List UInt8) :=
  if i + bs.length ≤ a.length then some (a.take i ++ bs ++ a.drop (i + bs.length)) else none

/-- `SUBRECS_CMP` of two `int`. -/
def subrecsCmp (a b dir : Int) : Bool := decide (mulInt (toInt (a - b)) dir > 0)

/-- `SUBRECS_NTH`: the score at a place. -/
def subrecsNth (subrecs : List UInt8) (size n : Nat) : Option Int :=
  (readLe32 (subrecs.drop (n * (size + 4)))).map fun v => toInt v.1

/-- `SUBRECS_COPY` from the place `m` to the place `n`. -/
def subrecsCopy (subrecs : List UInt8) (size n m : Nat) : Option (List UInt8) :=
  if m * (size + 4) + (size + 4) ≤ subrecs.length then
    writeAt subrecs (n * (size + 4)) ((subrecs.drop (m * (size + 4))).take (size + 4))
  else none

/-- Write a score and `size` bytes of a body to the place `n`. -/
def subrecsStore (subrecs : List UInt8) (size n : Nat) (score : Int) (body : List UInt8) :
    Option (List UInt8) :=
  writeAt subrecs (n * (size + 4)) (le32 (toU32 score) ++ body.take size)

/-- The loop of `subrecs_push`: the place that it makes free. -/
def pushLoop (size : Nat) (score dir : Int) :
    Nat → List UInt8 → Nat → Option (List UInt8 × Nat)
  | 0, _, _ => none
  | k + 1, subrecs, n =>
      if n = 0 then some (subrecs, n)
      else
        (subrecsNth subrecs size ((n - 1) / 2)).bind fun c2 =>
          if subrecsCmp score c2 dir then some (subrecs, n)
          else (subrecsCopy subrecs size n ((n - 1) / 2)).bind fun subrecs =>
            pushLoop size score dir k subrecs ((n - 1) / 2)

/-- `subrecs_push`; below one sub-record its loop leaves the array. -/
def subrecsPush (subrecs : List UInt8) (size : Nat) (nSubrecs score : Int) (body : List UInt8)
    (dir : Int) (k : Nat) : Option (List UInt8) :=
  if nSubrecs ≤ 0 then none
  else
    (pushLoop size score dir k subrecs (nSubrecs - 1).toNat).bind fun (subrecs, n) =>
      subrecsStore subrecs size n score body

/-- The score of a child, where `n` is one of the sub-records. -/
def subrecsChild (subrecs : List UInt8) (size n : Nat) (nSubrecs : Int) : Option (Option Int) :=
  if (n : Int) < nSubrecs then (subrecsNth subrecs size n).map some else some none

/-- Which child `subrecs_replace_min` moves up. -/
def pickChild (score dir : Int) (n1 n2 : Nat) (c1 c2 : Option Int) : Option Nat :=
  let after (c : Option Int) : Bool := c.elim false fun c => subrecsCmp score c dir
  if after c1 then
    if after c2 && subrecsCmp (c1.getD 0) (c2.getD 0) dir then some n2 else some n1
  else if after c2 then some n2 else none

/-- The loop of `subrecs_replace_min`: the place that it makes free. -/
def replaceLoop (size : Nat) (nSubrecs score dir : Int) :
    Nat → List UInt8 → Nat → Option (List UInt8 × Nat)
  | 0, _, _ => none
  | k + 1, subrecs, n =>
      (subrecsChild subrecs size (n * 2 + 1) nSubrecs).bind fun c1 =>
        (subrecsChild subrecs size (n * 2 + 2) nSubrecs).bind fun c2 =>
          match pickChild score dir (n * 2 + 1) (n * 2 + 2) c1 c2 with
          | none => some (subrecs, n)
          | some c => (subrecsCopy subrecs size n c).bind fun subrecs =>
              replaceLoop size nSubrecs score dir k subrecs c

/-- `subrecs_replace_min`. -/
def subrecsReplaceMin (subrecs : List UInt8) (size : Nat) (nSubrecs score : Int)
    (body : List UInt8) (dir : Int) (k : Nat) : Option (List UInt8) :=
  (replaceLoop size nSubrecs score dir k subrecs 0).bind fun (subrecs, n) =>
    subrecsStore subrecs size n score body

/-- `recinfo`. -/
structure RecInfo where
  score : Int
  nSubrecs : Int
  subrecs : List UInt8
  deriving DecidableEq, Repr

/-- How `res_add` and `sen_records_group` differ: in the type in which a score is compared
with the root, in the number of sub-records they read, and in their variables. -/
structure SubrecArg where
  rootCmp : Int → Int → Int → Bool
  count : Int → Int
  limit : Int
  size : Nat
  dir : Int

/-- Add a sub-record to a record. The root is read as `*ri->subrecs`: one byte. -/
def addSubrec (A : SubrecArg) (ri : RecInfo) (score : Int) (ekey : List UInt8) (k : Nat) :
    Option RecInfo :=
  let ri := { ri with score := toInt (ri.score + score), nSubrecs := toInt (ri.nSubrecs + 1) }
  if A.limit = 0 then some ri
  else if A.limit < A.count ri.nSubrecs then
    ri.subrecs.head?.bind fun root =>
      if A.rootCmp score root.toNat A.dir then
        (subrecsReplaceMin ri.subrecs A.size A.limit (toInt score) ekey A.dir k).map fun subrecs =>
          { ri with subrecs := subrecs }
      else some ri
  else
    (subrecsPush ri.subrecs A.size (A.count ri.nSubrecs) (toInt score) ekey A.dir k).map
      fun subrecs => { ri with subrecs := subrecs }

/-- The bytes left for sub-records in the value of a record: `sen_set_open` takes the size
of the value as a `uint32_t`. -/
def subrecsRoom (limit : Int) (size : Nat) : Nat :=
  ((4 + 4 + limit * (4 + size)) % 2 ^ 32).toNat - 8

/-- A new entry of the set is cleared. -/
def newRecInfo (room : Nat) : RecInfo := ⟨0, 0, List.replicate room 0⟩

/-- The records of a set by their keys. -/
abbrev RecMap := List UInt8 → Option RecInfo

/-- `sen_set_get`, and a sub-record for the record it returns. -/
def addTo (A : SubrecArg) (room : Nat) (g : RecMap) (key : List UInt8) (score : Int)
    (ekey : List UInt8) (k : Nat) : Option RecMap :=
  (addSubrec A ((g key).getD (newRecInfo room)) score ekey k).map fun ri =>
    Function.update g key (some ri)

/-- The part of a `sen_records` that `res_add` uses; `deleted` tells which documents have
the mark `DELETE_FLAG`. -/
structure SubRecords where
  recordSize : Nat
  subrecSize : Nat
  maxNSubrecs : Nat
  ignoreDeletedRecords : Bool
  deleted : Nat → Bool
  records : RecMap

/-- The bytes of a `posinfo`. -/
def PosInfo.bytes (pi : PosInfo) : List UInt8 := le32 pi.rid ++ le32 pi.sid ++ le32 pi.pos

/-- `SUBRECS_CMP` where the first operand is a `uint32_t`. -/
def subrecsCmpU32 (a b dir : Int) : Bool := decide ((a - b) * dir % 2 ^ 32 > 0)

/-- The variables of `res_add`; `BIT30_00` clears the sign of the number of sub-records. -/
def SubRecords.arg (r : SubRecords) : SubrecArg where
  rootCmp := subrecsCmpU32
  count n := n % 2 ^ 31
  limit := toInt r.maxNSubrecs
  size := r.subrecSize
  dir := 1

/-- `res_add`; the score is a `uint32_t`. -/
def resAdd (r : SubRecords) (pi : PosInfo) (score : Nat) (op : SelOperator) (k : Nat) :
    Option SubRecords :=
  let key := pi.bytes.take r.recordSize
  let ekey := pi.bytes.drop r.recordSize
  let room := subrecsRoom r.maxNSubrecs r.subrecSize
  if r.ignoreDeletedRecords && r.deleted pi.rid then some r
  else
    match op with
    | .or =>
        (addTo r.arg room r.records key score ekey k).map fun g => { r with records := g }
    | .and =>
        match r.records key with
        | none => some r
        | some ri =>
            -- `ri->n_subrecs |= B31`
            let ri := { ri with nSubrecs := toInt (ri.nSubrecs % 2 ^ 31 + 2 ^ 31) }
            (addTo r.arg room (Function.update r.records key (some ri)) key score ekey k).map
              fun g => { r with records := g }
    | .but => some { r with records := Function.update r.records key none }
    | .adjust =>
        match r.records key with
        | none => some r
        | some ri =>
            let ri := { ri with score := toInt (ri.score + score) }
            some { r with records := Function.update r.records key (some ri) }

/-- `sen_group_optarg`; `func` is the key of the group of a record, or nothing when the
function returns a value that is not 0. -/
structure GroupOptarg where
  mode : SortMode
  func : Option (List UInt8 → RecInfo → Option (List UInt8))
  keySize : Nat

/-- The size of the keys of the groups: that of a document without an argument. -/
def groupKeySize (optarg : Option GroupOptarg) : Nat := optarg.elim 4 GroupOptarg.keySize

/-- Whether the keys of the groups come from a function. -/
def groupFunc (optarg : Option GroupOptarg) : Option (List UInt8 → RecInfo → Option (List UInt8)) :=
  optarg.bind GroupOptarg.func

/-- The direction of the comparison. -/
def groupDir : Option GroupOptarg → Int
  | some o => if o.mode = .ascending then -1 else 1
  | none => 1

/-- `gkey` and `ekey` of a record. -/
def groupKeys (optarg : Option GroupOptarg) (key : List UInt8) (ri : RecInfo) :
    Option (List UInt8 × List UInt8) :=
  match groupFunc optarg with
  | some func => (func key ri).map fun gkey => (gkey, key)
  | none => some (key.take (groupKeySize optarg), key.drop (groupKeySize optarg))

/-- `ssize`. -/
def groupSubrecSize (r : SubRecords) (optarg : Option GroupOptarg) : Nat :=
  if (groupFunc optarg).isSome then r.recordSize else r.recordSize - groupKeySize optarg

/-- The variables of `sen_records_group`. -/
def groupArg (r : SubRecords) (limit : Int) (optarg : Option GroupOptarg) : SubrecArg where
  rootCmp := subrecsCmp
  count n := n
  limit := limit
  size := groupSubrecSize r optarg
  dir := groupDir optarg

/-- The loop of `sen_records_group` over the records. -/
def groupLoop (A : SubrecArg) (room : Nat) (optarg : Option GroupOptarg) (k : Nat) :
    RecMap → List (List UInt8 × RecInfo) → Option RecMap
  | g, [] => some g
  | g, (key, ri) :: rows =>
      match groupKeys optarg key ri with
      | none => groupLoop A room optarg k g rows
      | some (gkey, ekey) =>
          (addTo A room g gkey ri.score ekey k).bind fun g => groupLoop A room optarg k g rows

/-- `sen_records_group`; `rows` are the records in the order of the cursor. -/
def senRecordsGroup (r : SubRecords) (rows : List (List UInt8 × RecInfo)) (limit : Int)
    (optarg : Option GroupOptarg) (k : Nat) : Option (SenRc × SubRecords) :=
  if (groupFunc optarg).isNone && decide (r.recordSize ≤ groupKeySize optarg) then
    some (.invalidArgument, r)
  else
    (groupLoop (groupArg r limit optarg) (subrecsRoom limit (groupSubrecSize r optarg)) optarg k
      (fun _ => none) rows).map fun g =>
        (.success, { r with
          recordSize := groupKeySize optarg
          subrecSize := groupSubrecSize r optarg
          maxNSubrecs := limit.toNat
          records := g })

end Senna.Index
