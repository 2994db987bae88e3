/-
# Records objects and their heap

`sen_records_sort` puts the records of an object in order, `sen_records_next` walks
through them, and a `sen_records_heap` merges several objects: it is a binary heap whose
members are compared by their current records, of which the first is the next of the
stream.

A record handle is a pointer into the array of the sort, or into the index of the set
where nothing has been sorted. Its address matters only to the comparison that the heap
makes without a comparison function: that one reads the words behind the handle itself.
-/

import Senna.Base
import Senna.Lib.Heap
import Senna.Set.Sort

namespace Senna.Index

open Senna.Lib Senna.Set

universe u

variable {ε : Type u}

/-- The part of a `sen_records` that a sort and a walk leave alone. `self` is its address,
`indexAddr` the address of the index of its set, and `keys` is null or tells what
`sen_sym_key` returns for the key of a record. -/
structure RecordsObj (ε : Type u) where
  self : Nat
  indexAddr : Nat
  table : Table ε
  userdef : Bool
  recordSize : Nat
  keys : Option (ε → Nat)

/-- A `sen_records`. The array of the sort comes with its address; the current record is
given by its position in that array or in the index, a cursor by its position and the
number of slots to come. -/
structure SenRecords (ε : Type u) where
  obj : RecordsObj ε
  cursor : Option (Nat × Nat)
  sorted : Option (Nat × List ε)
  limit : Int
  currRec : Option Nat

/-- The comparison function of a user: objects and their records, and `compar_arg`. -/
abbrev RecCompar (ε : Type u) := Compar (RecordsObj ε) ε

/-- `sen_sort_optarg`. -/
structure SenSortOptarg (ε : Type u) where
  mode : SortMode
  compar : Option (RecCompar ε)
  comparArg : Nat

/-- The argument that `sen_records_sort` passes on. -/
def setOptarg (obj : RecordsObj ε) : Option (SenSortOptarg ε) → SortOptarg (RecordsObj ε) ε
  | some o => ⟨o.mode, o.compar, o.comparArg, some obj⟩
  | none => ⟨.descending, none, obj.table.keySize, none⟩

/-- `sen_records_cursor_clear`. -/
def SenRecords.cursorClear (r : SenRecords ε) : SenRecords ε :=
  { r with sorted := none, cursor := none, currRec := none }

/-- `sen_records_sort`; `buf` is what `SEN_MALLOC` returns for the array. -/
def senRecordsSort (m : Entries ε) (r : SenRecords ε) (buf : Option (Nat × List ε)) (limit : Int)
    (optarg : Option (SenSortOptarg ε)) (k : Nat) : Option (SenRc × SenRecords ε) :=
  let r := r.cursorClear
  if r.obj.table.nEntries = 0 then some (.invalidArgument, r)
  else
    let limit := if limit > r.obj.table.nEntries then (r.obj.table.nEntries : Int) else limit
    (senSetSort r.obj.table m r.obj (buf.map Prod.snd) limit (some (setOptarg r.obj optarg)) k).map
      fun sorted =>
        (if sorted.isSome then .success else .internalError,
          { r with sorted := sorted.bind fun s => buf.map fun b => (b.1, s), limit := limit })

/-- A sort of a records object that is not empty is the sort of its set. -/
theorem senRecordsSort_settles {m : Entries ε} {r : SenRecords ε} {buf : Nat × List ε}
    {limit limit' : Int} {optarg : Option (SenSortOptarg ε)} {s : List ε}
    (hne : r.obj.table.nEntries ≠ 0)
    (hlimit : limit' =
      if limit > r.obj.table.nEntries then (r.obj.table.nEntries : Int) else limit)
    (hsort : Settles (senSetSort r.obj.table m r.obj (some buf.2) limit'
      (some (setOptarg r.obj optarg))) (some s)) :
    Settles (senRecordsSort m r (some buf) limit optarg)
      (.success, { r.cursorClear with sorted := some (buf.1, s), limit := limit' }) := by
  have hmap := hsort.map fun sorted : Option (List ε) =>
    (if sorted.isSome then SenRc.success else SenRc.internalError,
      { r.cursorClear with sorted := sorted.map fun s => (buf.1, s), limit := limit' })
  refine Settles.congr (fun k => ?_) hmap
  rw [senRecordsSort, hlimit]
  show (if r.obj.table.nEntries = 0 then _ else _) = _
  rw [if_neg hne]
  show Option.map _ _ = Option.map _ _
  congr 1
  funext sorted
  cases sorted <;> rfl

/-- The entry of the current record. -/
def SenRecords.currEntry (r : SenRecords ε) : Option ε :=
  r.currRec.bind fun i =>
    match r.sorted with
    | some (_, s) => s[i]?
    | none => r.obj.table.index[i]?.bind Slot.content

/-- The address of the current record's handle. -/
def SenRecords.currAddr (r : SenRecords ε) : Option Nat :=
  r.currRec.map fun i =>
    match r.sorted with
    | some (addr, _) => addr + 8 * i
    | none => r.obj.indexAddr + 8 * i

/-- What `sen_records_next` returns at a record. -/
def RecordsObj.len (obj : RecordsObj ε) (e : ε) : Nat :=
  if obj.userdef then obj.recordSize
  else
    match obj.keys with
    | some len => len e
    | none => obj.recordSize

/-- The step to the next record; `none` where `sen_records_next` returns at once. -/
def SenRecords.advance (r : SenRecords ε) : Option (SenRecords ε) :=
  match r.sorted with
  | some _ =>
      match r.currRec with
      | some i => if (i : Int) ≥ r.limit - 1 then none else some { r with currRec := some (i + 1) }
      | none => some (if r.limit > 0 then { r with currRec := some 0 } else r)
  | none =>
      let c := r.cursor.getD (0, r.obj.table.maxOffset + 1)
      match cursorNext r.obj.table.index c.2 c.1 with
      | some (ep, rest) => some { r with cursor := some (ep + 1, rest), currRec := some ep }
      | none => some { r with cursor := some (c.1, 0), currRec := none }

/-- `sen_records_next` without a buffer for the key. -/
def senRecordsNext (r : SenRecords ε) : Nat × SenRecords ε :=
  match r.advance with
  | none => (0, r)
  | some r =>
      match r.currEntry with
      | none => (0, r)
      | some e => (r.obj.len e, r)

/-- A `sen_records_heap`; `bins` are the first `n_entries` elements of the array of
`nBins`. A `comparArg` of `none` is `(void *) -1`. -/
structure RecordsHeap (ε : Type u) where
  nBins : Nat
  bins : List (SenRecords ε)
  limit : Int
  curr : Nat
  dir : Int
  compar : Option (RecCompar ε)
  comparArg : Option Nat

/-- `records_heap_cmp`; `mem` is the memory as words at their addresses. Without a
comparison function it reads the words of the handles, which are pointers to pointers to
the records. -/
def recordsHeapCmp (mem : Nat → Int) (h : RecordsHeap ε) (r1 r2 : SenRecords ε) : Option Bool :=
  match h.compar with
  | none =>
      let off (r : SenRecords ε) := h.comparArg.getD (r.obj.table.keySize / 4)
      r1.currAddr.bind fun rh1 => r2.currAddr.bind fun rh2 =>
        some (decide (mulInt ((mem (rh2 + 4 * off r2) - mem (rh1 + 4 * off r1)).bmod (2 ^ 32))
          h.dir > 0))
  | some compar =>
      r1.currEntry.bind fun rh1 => r2.currEntry.bind fun rh2 =>
        some (decide (mulInt (compar r1.obj rh1 r2.obj rh2 (h.comparArg.getD 0)) h.dir > 0))

section

universe v

variable {α : Type v} (cmp : α → α → Option Bool) (r : α)

/-- The loop of `sen_records_heap_add`: `r` moves up from `n`. -/
def siftUp : Nat → List α → Nat → Option (List α)
  | 0, _, _ => none
  | k + 1, bins, n =>
      if n = 0 then store bins n r
      else
        bins[(n - 1) / 2]?.bind fun r2 => (cmp r r2).bind fun after =>
          if after then store bins n r
          else (store bins n r2).bind fun bins => siftUp k bins ((n - 1) / 2)

/-- `r && records_heap_cmp(h, q, r)`. -/
def andCmp (q : α) : Option α → Option Bool
  | none => some false
  | some r => cmp q r

/-- Which child of a bin takes its place: `n1`, `n2` or none, by the members `r1` and `r2`
of the children. -/
def siftChild (n1 n2 : Nat) (r1 r2 : Option α) : Option (Option (Nat × α)) :=
  (andCmp cmp r r1).bind fun after1 =>
    match r1, after1 with
    | some q1, true =>
        (andCmp cmp r r2).bind fun after2 =>
          match r2, after2 with
          | some q2, true => (cmp q1 q2).map fun b => some (if b then (n2, q2) else (n1, q1))
          | _, _ => some (some (n1, q1))
    | _, _ =>
        (andCmp cmp r r2).map fun after2 =>
          match r2, after2 with
          | some q2, true => some (n2, q2)
          | _, _ => none

/-- The loop of `sen_records_heap_next`: `r` moves down from `n`. -/
def siftDown : Nat → List α → Nat → Option (List α)
  | 0, _, _ => none
  | k + 1, bins, n =>
      (siftChild cmp r (n * 2 + 1) (n * 2 + 2) bins[n * 2 + 1]? bins[n * 2 + 2]?).bind fun c =>
        match c with
        | none => store bins n r
        | some (c, q) => (store bins n q).bind fun bins => siftDown k bins c

end

end Senna.Index
