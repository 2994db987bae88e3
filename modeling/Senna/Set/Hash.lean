/-
# Hash sets

`sen_set` maps keys to values. Its `index` is an open table of pointers to entries, probed
from the hash with a step made of the hash; entries live in chunks and are recycled through
a free list threaded through their first bytes. In array mode (`arrayp`) the entries were
put into the index one after the other, and the first look-up hashes them.

The three classes of keys (strings, words, other fixed sizes) share the loops of this module
and differ in the hash, the comparison and what of the key is stored. Allocations succeed;
what is allocated has the size that the C code computes in `uint32_t`, and an entry that
does not fit into its chunk makes an operation `none`. A probe loop is `none` after as many
rounds as the index has slots: from then on it would repeat itself for ever.
-/

import Senna.Base
import Senna.Io.Byte
import Senna.Set.Table

namespace Senna.Set

open Senna.Io

/-- `SEN_SET_MAX_CHUNK`. -/
def senSetMaxChunk : Nat := 22

/-- An entry's place: the chunk and the number in it. -/
structure Addr where
  chunk : Nat
  entry : Nat
  deriving DecidableEq, Repr

/-- An entry in use: the hash word, the bytes of the key that are stored with it (the copy of
a string, or the bytes at `dummy`), and the value. -/
structure Entry where
  key : Nat
  bytes : List UInt8
  value : List UInt8
  deriving DecidableEq, Repr

/-- What an entry's memory holds: an entry, or the link of the free list. -/
inductive Content
  | entry (e : Entry)
  | link (next : Option Addr)
  deriving DecidableEq, Repr

/-- The part of a `sen_set` that holds its entries. `chunks` are the sizes of the allocated
chunks, `garbages` is the head of the free list. -/
structure Pool where
  valueSize : Nat
  entrySize : Nat
  currEntry : Nat
  currChunk : Nat
  garbages : Option Addr
  arrayp : Bool
  chunks : Nat → Option Nat
  cells : Addr → Content

/-- `sen_set`. `serial` tells one allocation of `index` from another. -/
structure SenSet extends Table Addr, Pool where
  nGarbages : Nat
  serial : Nat

/-- `str_hash`. -/
def strHash (p : List UInt8) : Nat :=
  (p.takeWhile (· ≠ 0)).foldl (fun r b => (r * 1021 + b.toNat) % 2 ^ 32) 0

/-- `bin_hash`. -/
def binHash (p : List UInt8) (length : Nat) : Nat :=
  (p.take length).foldl (fun r b => (r * 1021 + b.toNat) % 2 ^ 32) 0

/-- `*((uint32_t *)key)`. -/
def intKey (p : List UInt8) : Nat :=
  (p.getD 0 0).toNat + (p.getD 1 0).toNat * 0x100 + (p.getD 2 0).toNat * 0x10000 +
    (p.getD 3 0).toNat * 0x1000000

/-- The hash of a key in the class of `keySize`. -/
def hashOf (keySize : Nat) (key : List UInt8) : Nat :=
  match keySize with
  | 0 => strHash key
  | 4 => intKey key
  | n => binHash key n

/-- The comparison of an entry with a key of hash `h`. -/
def sameKey (keySize : Nat) (key : List UInt8) (h : Nat) (e : Entry) : Bool :=
  match keySize with
  | 4 => e.key = h
  | _ => e.key = h ∧ e.bytes = key

/-- What is stored for a new key of hash `h`. -/
def storeKey (keySize : Nat) (key : List UInt8) (h : Nat) (e : Entry) : Entry :=
  match keySize with
  | 4 => { e with key := h }
  | _ => { e with key := h, bytes := key }

/-- The key of an entry, as a cursor returns it. -/
def keyOf (keySize : Nat) (e : Entry) : List UInt8 :=
  match keySize with
  | 4 => le32 e.key
  | _ => e.bytes

/-- `STEP(x)`. -/
def step (x : Nat) : Nat := (x >>> 2) ||| 0x1010101

/-- A cleared entry. -/
def Pool.zeroEntry (pool : Pool) : Entry := ⟨0, [], List.replicate pool.valueSize 0⟩

/-- `SEN_CALLOC` for the chunk `c`: `size` bytes, all clear. -/
def Pool.calloc (pool : Pool) (c size : Nat) : Pool :=
  { pool with
    chunks := Function.update pool.chunks c (some size)
    cells := fun a => if a.chunk = c then .entry pool.zeroEntry else pool.cells a }

/-- The size of the chunk that `entry_new` allocates. -/
def Pool.chunkSize (pool : Pool) : Nat :=
  pool.entrySize * (256 <<< pool.currChunk % 2 ^ 32) % 2 ^ 32

/-- The entry with number `i` of the chunk `c`, if it lies inside. -/
def Pool.entryAt (pool : Pool) (c i : Nat) : Option Addr :=
  (pool.chunks c).bind fun size =>
    if pool.entrySize * i % 2 ^ 32 + pool.entrySize ≤ size then some ⟨c, i⟩ else none

/-- `entry_new`. -/
def entryNew (pool : Pool) : Option (Pool × Addr) :=
  match pool.garbages with
  | some e =>
      match pool.cells e with
      | .link next => some ({ pool with
          garbages := next
          cells := Function.update pool.cells e (.entry pool.zeroEntry) }, e)
      | .entry _ => none
  | none =>
      if pool.currChunk ≤ senSetMaxChunk then
        let pool :=
          if (pool.chunks pool.currChunk).isNone then pool.calloc pool.currChunk pool.chunkSize
          else pool
        (pool.entryAt pool.currChunk pool.currEntry).map fun e =>
          (if 256 <<< pool.currChunk % 2 ^ 32 ≤ pool.currEntry + 1 then
            { pool with currChunk := pool.currChunk + 1, currEntry := 0 }
          else { pool with currEntry := pool.currEntry + 1 }, e)
      else none

/-- `sen_set_open`: `n` starts from 256. -/
def doubling (ne : Nat) : Nat → Nat → Nat
  | 0, n => n
  | k + 1, n => if n ≤ ne then doubling ne k (2 * n) else n

/-- The size of an entry: the fields before `dummy`, the key and the value, rounded up. -/
def entrySizeOf (keySize valueSize : Nat) : Nat :=
  let entrySize :=
    (match keySize with
      | 0 => 12 + valueSize
      | 4 => 4 + valueSize
      | n => 4 + n + valueSize) % 2 ^ 32
  if entrySize % 8 ≠ 0 then (entrySize + (8 - entrySize % 8)) % 2 ^ 32 else entrySize

/-- `sen_set_open`, for an `init_size` of at most `2^31`. -/
def senSetOpen (keySize valueSize initSize : Nat) : SenSet :=
  let n := doubling (initSize - 1) 24 256
  { keySize := keySize
    valueSize := valueSize
    entrySize := entrySizeOf keySize valueSize
    maxOffset := n - 1
    nEntries := 0
    index := List.replicate n .null
    nGarbages := 0
    currEntry := 0
    currChunk := 0
    garbages := none
    arrayp := false
    chunks := fun _ => none
    cells := fun _ => .link none
    serial := 0 }

/-- The loop of the look-ups from the probe `i` on: whether an entry was found, the slot where
the loop ended, and the first slot with `GARBAGE` before it. -/
def SenSet.probe (set : SenSet) (same : Entry → Bool) (s : Nat) :
    Nat → Nat → Option Nat → Option (Bool × Nat × Option Nat)
  | 0, _, _ => none
  | k + 1, i, np =>
      let ep := i &&& set.maxOffset
      match set.index[ep]? with
      | none => none
      | some .null => some (false, ep, np)
      | some .garbage => SenSet.probe set same s k ((i + s) % 2 ^ 32) (np <|> some ep)
      | some (.entry a) =>
          match set.cells a with
          | .link _ => none
          | .entry e =>
              if same e then some (true, ep, np)
              else SenSet.probe set same s k ((i + s) % 2 ^ 32) np

/-- The probe loop for a key. -/
def SenSet.probeKey (set : SenSet) (key : List UInt8) : Option (Bool × Nat × Option Nat) :=
  let h := hashOf set.keySize key
  set.probe (sameKey set.keySize key h) (step h) (set.maxOffset + 1) h none

/-- The loop of `sen_set_reset` for one entry: the first empty slot of the new index. -/
def firstEmpty (index : List (Slot Addr)) (m s : Nat) : Nat → Nat → Option Nat
  | 0, _ => none
  | k + 1, i =>
      match index[i &&& m]? with
      | none => none
      | some .null => some (i &&& m)
      | some _ => firstEmpty index m s k ((i + s) % 2 ^ 32)

/-- The loop of `sen_set_reset` over the slots of the old index. -/
def rehash (cells : Addr → Content) (m : Nat) : List (Slot Addr) → List (Slot Addr) →
    Option (List (Slot Addr))
  | [], index => some index
  | .entry a :: sp, index =>
      match cells a with
      | .link _ => none
      | .entry e =>
          (firstEmpty index m (step e.key) (m + 1) e.key).bind fun dp =>
            rehash cells m sp (index.set dp (.entry a))
  | _ :: sp, index => rehash cells m sp index

/-- The size of the index for `ne` entries. -/
def indexSize (ne : Nat) : Nat := doubling ne 24 256

/-- `sen_set_reset`. -/
def senSetReset (set : SenSet) (ne : Nat) : Option (SenRc × SenSet) :=
  let ne := if ne = 0 then set.nEntries * 2 % 2 ^ 32 else ne
  if ne > 2 ^ 31 - 1 then some (.memoryExhausted, set)
  else
    let n := indexSize ne
    (rehash set.cells (n - 1) set.index (List.replicate n .null)).map fun index =>
      (.success, { set with
        index := index
        maxOffset := n - 1
        nGarbages := 0
        serial := set.serial + 1 })

/-- The look-ups leave array mode first. -/
def SenSet.leaveArray (set : SenSet) : Option (SenRc × SenSet) :=
  (senSetReset set 0).map fun (rc, set) =>
    (rc, if rc = .success then { set with currEntry := 0, arrayp := false } else set)

/-- `sen_set_str_at`, `sen_set_int_at` and `sen_set_bin_at`. -/
def SenSet.atWith (set : SenSet) (key : List UInt8) : Option (SenSet × Option Nat) :=
  (set.probeKey key).map fun (found, ep, _) => (set, if found then some ep else none)

/-- `sen_set_at`: the slot of the key, or `none` for `NULL`. -/
def senSetAt (set : SenSet) (key : List UInt8) : Option (SenSet × Option Nat) :=
  if set.arrayp then
    set.leaveArray.bind fun (rc, set) => if rc = .success then set.atWith key else some (set, none)
  else set.atWith key

/-- `sen_set_str_get`, `sen_set_int_get` and `sen_set_bin_get`. -/
def SenSet.getWith (set : SenSet) (key : List UInt8) : Option (SenSet × Option Nat) :=
  (set.probeKey key).bind fun (found, ep, np) =>
    if found then some (set, some ep)
    else
      let ep' := np.getD ep
      let set := if np.isSome then { set with nGarbages := u32Sub set.nGarbages 1 } else set
      (entryNew set.toPool).bind fun (pool, a) =>
        match pool.cells a with
        | .link _ => none
        | .entry e =>
            some ({ set with
              toPool := { pool with
                cells := Function.update pool.cells a
                  (.entry (storeKey set.keySize key (hashOf set.keySize key) e)) }
              index := set.index.set ep' (.entry a)
              nEntries := set.nEntries + 1 }, some ep')

/-- `sen_set_get`: the slot of the key, or `none` for `NULL`. -/
def senSetGet (set : SenSet) (key : List UInt8) : Option (SenSet × Option Nat) :=
  if set.arrayp then
    set.leaveArray.bind fun (rc, set) =>
      if rc = .success then set.getWith key else some (set, none)
  else if (set.nEntries + set.nGarbages) * 2 % 2 ^ 32 > set.maxOffset then
    (senSetReset set 0).bind fun (_, set) => set.getWith key
  else set.getWith key

/-- `sen_set_del`. A slot with `GARBAGE` must not be deleted again. -/
def senSetDel (set : SenSet) (ep : Nat) : Option (SenRc × SenSet) :=
  match set.index[ep]? with
  | none => none
  | some .null => some (.invalidArgument, set)
  | some .garbage => none
  | some (.entry a) => some (.success, { set with
      index := set.index.set ep .garbage
      cells := Function.update set.cells a (.link set.garbages)
      garbages := some a
      nEntries := set.nEntries - 1
      nGarbages := (set.nGarbages + 1) % 2 ^ 32 })

/-- The write of a value through the pointer that a look-up or a cursor returned. -/
def SenSet.setValue (set : SenSet) (ep : Nat) (value : List UInt8) : Option SenSet :=
  match set.index[ep]? with
  | some (.entry a) =>
      match set.cells a with
      | .entry e => some { set with
          cells := Function.update set.cells a (.entry { e with value := value }) }
      | .link _ => none
  | _ => none

/-- `sen_set_array_init`; its assertions are that the set is empty and has no freed entries. -/
def senSetArrayInit (set : SenSet) (size : Nat) : Option (SenRc × SenSet) :=
  if set.nEntries = 0 ∧ set.garbages = none then
    let pool := set.toPool.calloc senSetMaxChunk (set.entrySize * size % 2 ^ 32)
    senSetReset { set with toPool := { pool with arrayp := true, currEntry := 0 } } size
  else none

/-- `SEN_SET_INT_ADD`. -/
def senSetIntAdd (set : SenSet) (key : List UInt8) : Option (SenSet × Nat) :=
  (set.toPool.entryAt senSetMaxChunk set.currEntry).bind fun a =>
    match set.index[set.nEntries]?, set.cells a with
    | some _, .entry e => some ({ set with
        index := set.index.set set.nEntries (.entry a)
        cells := Function.update set.cells a (.entry { e with key := intKey key })
        nEntries := set.nEntries + 1
        currEntry := set.currEntry + 1 }, set.nEntries)
    | _, _ => none

/-- `sen_set_cursor`: the index it was opened on, the next slot, and the slots to come. -/
structure SetCursor where
  serial : Nat
  curr : Nat
  rest : Nat
  deriving DecidableEq, Repr

/-- `sen_set_cursor_open`. -/
def senSetCursorOpen (set : SenSet) : SetCursor := ⟨set.serial, 0, set.maxOffset + 1⟩

/-- `sen_set_cursor_next`: the slot of the next entry, `none` at the end. -/
def senSetCursorNext (set : SenSet) (c : SetCursor) : SetCursor × Option Nat :=
  if c.rest = 0 then (c, none)
  else if c.serial ≠ set.serial then (c, none)
  else
    match cursorNext set.index c.rest c.curr with
    | none => ({ c with rest := 0 }, none)
    | some (ep, rest) => ({ c with curr := ep + 1, rest := rest }, some ep)

end Senna.Set
