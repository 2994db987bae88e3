/-
# Symbol tables

A symbol table numbers its keys. The numbers are nodes of a PATRICIA tree: a node has two links,
the position of a bit, and a key, which is in the node itself if it has four bytes at most and
elsewhere otherwise. A link leads down if the position grows along it, and up otherwise.

Nodes and keys are in segments, of which there are 1024 for both and for the suffixes; they are
numbered here in the order in which they are taken, and a segment that is assigned is mapped. A key
is a string with its terminator, or has the size that the table is made for. The suffixes of keys
(`SEN_SYM_WITH_SIS`) are left out.
-/

import Senna.Base
import Senna.Lib.Memory

namespace Senna.Sym

open Senna.Lib

/-- `SEN_SYM_SEGMENT_SIZE` -/
def senSymSegmentSize : Nat := 0x400000

/-- `SEN_SYM_MAX_SEGMENT` -/
def senSymMaxSegment : Nat := 0x400

/-- `SEN_SYM_MAX_KEY_LENGTH`, in bits. -/
def senSymMaxKeyLength : Nat := 0xffff

/-- The key of a node: `PAT_IMMEDIATE` and the bytes in the node, or where they are. -/
inductive PatKey
  | immediate (bytes : List UInt8)
  | stored (pos : Nat)
  deriving DecidableEq

/-- `pat_node`, with the parts of its bit field. -/
structure PatNode where
  r : Nat
  l : Nat
  key : PatKey
  check : Nat
  deleting : Bool
  pocket : Nat

/-- The header of a table, its nodes, and the bytes of its keys. -/
structure SenSym where
  keySize : Nat
  nrecords : Nat
  currRec : Nat
  currKey : Nat
  garbages : Nat → Nat
  keySegments : Nat
  patSegments : Nat
  sisSegments : Nat
  nodes : Nat → PatNode
  keys : Memory UInt8

/-- `nth_bit` -/
def nthBit (key : List UInt8) (n : Nat) : Bool :=
  key.getD (n / 8) 0 &&& (0x80 >>> UInt8.ofNat (n % 8)) ≠ 0

/-- The byte from which on two keys differ, and how. -/
def diffByte (p : Memory UInt8) : Nat → List UInt8 → Option (Nat × UInt8)
  | _, [] => none
  | i, b :: key => if p i = b then diffByte p (i + 1) key else some (i, p i ^^^ b)

/-- The loop over `mask`. The mask is a signed character, so that it keeps the bits that it had. -/
def diffBit (x : UInt8) : Nat → UInt8 → Nat → Option Nat
  | 0, _, _ => none
  | k + 1, mask, c =>
      if x &&& mask ≠ 0 then some c else diffBit x k ((mask >>> 1) ||| 0x80) (c + 1)

/-- The position of the first bit that differs. -/
def diffAt (p : Memory UInt8) (key : List UInt8) : Option Nat :=
  (diffByte p 0 key).bind fun r => diffBit r.2 8 0x80 (8 * r.1)

/-- The number of bytes of a key: `key_size`, or `strlen(key) + 1`. -/
def SenSym.sizeOf (s : SenSym) (key : List UInt8) : Nat :=
  if s.keySize = 0 then (key.takeWhile (· ≠ 0)).length + 1 else s.keySize

namespace SenSym

variable (s : SenSym)

/-- Whether `segment_new` finds a segment that is not used. -/
def hasSegment : Prop := s.keySegments + s.patSegments + s.sisSegments < senSymMaxSegment

instance : Decidable s.hasSegment := inferInstanceAs (Decidable (_ < _))

/-- `segment_new(sym, segment_key)` -/
def segmentNewKey : Option SenSym :=
  if s.hasSegment then
    some { s with
      keySegments := s.keySegments + 1
      currKey := s.keySegments * senSymSegmentSize % 2 ^ 32 }
  else none

/-- `segment_new(sym, segment_pat)` -/
def segmentNewPat : Option SenSym :=
  if s.hasSegment then some { s with patSegments := s.patSegments + 1 } else none

/-- `pat_at` -/
def patAt (id : Nat) : Option PatNode :=
  if id ≤ senSymMaxId ∧ id / 2 ^ 18 < s.patSegments then some (s.nodes id) else none

/-- The loop of `pat_get`, for the `n` segments that are missing. It does not end if there are
none. -/
def patGetLoop : Nat → SenSym → Option SenSym
  | 0, s => some s
  | n + 1, s => s.segmentNewPat.bind (patGetLoop n)

/-- `pat_node_new`: the node and the table, or no node; and nothing where `pat_get` does not
return. -/
def patNodeNew : Option (Option (Nat × SenSym)) :=
  let n := s.currRec + 1
  if senSymMaxId < n then some none
  else (patGetLoop (n / 2 ^ 18 + 1 - s.patSegments) s).map fun s =>
    some (n, { s with currRec := n, nrecords := s.nrecords + 1 })

/-- A link: the node, and whether it is `r`. -/
def link (p : Nat × Bool) : Nat := if p.2 then (s.nodes p.1).r else (s.nodes p.1).l

/-- `*p = v` -/
def setLink (p : Nat × Bool) (v : Nat) : SenSym :=
  let n := s.nodes p.1
  { s with nodes :=
    Function.update s.nodes p.1 (if p.2 then { n with r := v } else { n with l := v }) }

/-- A node, stored. -/
def setNode (id : Nat) (n : PatNode) : SenSym := { s with nodes := Function.update s.nodes id n }

/-- `key_put`: where the key has been put, or 0. -/
def keyPut (key : List UInt8) : Nat × SenSym :=
  if senSymSegmentSize ≤ key.length then (0, s)
  else
    let lpos := s.currKey % senSymSegmentSize
    let room := if senSymSegmentSize < lpos + key.length ∨ lpos = 0 then s.segmentNewKey else some s
    match room with
    | none => (0, s)
    | some s =>
        if s.currKey / senSymSegmentSize < s.keySegments then
          (s.currKey, { s with
            keys := s.keys.write s.currKey key
            currKey := (s.currKey + key.length) % 2 ^ 32 })
        else (0, s)

/-- `pat_node_set_key`: what is stored in the node. -/
def patNodeSetKey (key : List UInt8) : PatKey × SenSym :=
  if key.length ≤ 4 then (.immediate key, s)
  else
    let (pos, s) := s.keyPut key
    (.stored pos, s)

/-- `pat_node_get_key`: the bytes from the key of a node on. Behind a key in a node are the other
fields of the node, which are left out. -/
def patNodeGetKey (n : PatNode) : Option (Memory UInt8) :=
  match n.key with
  | .immediate bytes => some fun i => bytes.getD i 0
  | .stored pos =>
      if pos / senSymSegmentSize < s.keySegments then some fun i => s.keys (pos + i) else none

/-- The variables of the search. -/
structure GetPos where
  c0 : Int
  c1 : Int
  p0 : Nat × Bool
  p1 : Nat × Bool
  rn0 : Nat

/-- How the search ends: with the number of the key, with an error, or with a key to compare. -/
inductive GetEnd
  | found (id : Nat)
  | failed
  | stop (x : GetPos) (key : Memory UInt8)

/-- The loop that follows the bits of the key. -/
def getLoop (key : List UInt8) (len : Nat) : Nat → GetPos → Option GetEnd
  | 0, _ => none
  | k + 1, x =>
      let r0 := s.link x.p0
      if r0 = 0 then
        some ((s.patNodeGetKey (s.nodes x.rn0)).elim .failed (.stop x))
      else
        match s.patAt r0 with
        | none => some .failed
        | some rn =>
            if x.c0 < rn.check ∧ rn.check < len then
              getLoop key len k
                ⟨rn.check, x.c0, (r0, nthBit key rn.check), x.p0, r0⟩
            else
              some ((s.patNodeGetKey rn).elim .failed fun p =>
                if rn.check < len ∧ p.read 0 key.length = key then .found r0
                else .stop { x with rn0 := r0 } p)

/-- The loop from the root to the place of a bit that has been passed. -/
def moveLoop (key : List UInt8) (c : Nat) : Nat → Nat × Bool → Option (Option (Nat × Bool))
  | 0, _ => none
  | k + 1, p0 =>
      let r0 := s.link p0
      if r0 = 0 then some (some p0)
      else
        match s.patAt r0 with
        | none => some none
        | some rn =>
            if c < rn.check then some (some p0) else moveLoop key c k (r0, nthBit key rn.check)

/-- Where the new node goes, and its position, given the first position `c` that differs. -/
def getPlace (key : List UInt8) (len : Nat) (k : Nat) (x : GetPos) (c : Nat) :
    Option (Option (Nat × Nat × Bool)) :=
  if (c : Int) = x.c0 ∧ s.link x.p0 = 0 then
    some (some (if c < len - 1 then c + 1 else c, x.p0))
  else if (c : Int) < x.c0 then
    if (c : Int) > x.c1 then some (some (c, x.p1))
    else (s.moveLoop key c k (0, true)).map fun p => p.map fun p => (c, p)
  else some (some (c, x.p0))

/-- A node from the free list `garbages[i]`, with the key as `set` puts it there. -/
def getGarbage (i lkey : Nat) (set : SenSym → Nat → PatNode → Option (Nat × SenSym)) :
    Nat × Nat × SenSym :=
  let r := s.garbages i
  let counted := { s with nrecords := s.nrecords + 1 }
  match s.patAt r with
  | none => (0, lkey, counted)
  | some rn =>
      let taken := { counted with garbages := Function.update s.garbages i rn.l }
      (set taken r rn).elim (0, lkey, taken) fun (lkey, s) => (r, lkey, s)

/-- The new node, with the key in it: one of a key that has been deleted, or the next one. The
number is 0 where there is none. The word of a key in a node is no place, and not used as one. -/
def getNode (key : List UInt8) (size lkey : Nat) : Option (Nat × Nat × SenSym) :=
  let size2 := if size > 4 then size else 0
  if lkey ≠ 0 ∧ size2 ≠ 0 then
    if s.garbages 0 ≠ 0 then
      some (s.getGarbage 0 lkey fun s r rn =>
        some (lkey, s.setNode r { rn with key := .stored lkey }))
    else
      s.patNodeNew.map fun t => t.elim (0, lkey, s) fun (r, s) =>
        (r, lkey, s.setNode r { s.nodes r with key := .stored lkey })
  else if s.garbages size2 ≠ 0 then
    some (s.getGarbage size2 lkey fun s r rn => match rn.key with
      | .immediate _ => some (lkey, s.setNode r { rn with key := .immediate key })
      | .stored pos =>
          if pos / senSymSegmentSize < s.keySegments then
            some (pos, { s with keys := s.keys.write pos key })
          else none)
  else
    s.patNodeNew.map fun t => t.elim (0, lkey, s) fun (r, s) =>
      let (kw, s) := s.patNodeSetKey key
      (r, match kw with | .immediate _ => lkey | .stored pos => pos,
        s.setNode r { s.nodes r with key := kw })

/-- The new node `r`, linked into the tree. -/
def getLink (key : List UInt8) (r c : Nat) (p0 : Nat × Bool) : SenSym :=
  let old := s.link p0
  let n := { s.nodes r with check := c, deleting := false, pocket := 0 }
  let linked := if nthBit key c then { n with r := r, l := old } else { n with r := old, l := r }
  (s.setNode r linked).setLink p0 r

/-- `_sen_sym_get`: the number, `new`, `lkey` and the table. -/
def senSymGetKey (key : List UInt8) (lkey k : Nat) : Option (Nat × Bool × Nat × SenSym) :=
  let size := s.sizeOf key
  let len := size * 8
  let key := key.take size
  if senSymMaxKeyLength < len then some (0, false, lkey, s)
  else
    let insert : Option (Nat × Nat × Bool) → Option (Nat × Bool × Nat × SenSym)
      | none => some (0, false, lkey, s)
      | some (c, p0) =>
          if len ≤ c then some (0, false, lkey, s)
          else (s.getNode key size lkey).map fun (r, lkey, s) =>
            if r = 0 then (0, false, lkey, s) else (r, true, lkey, s.getLink key r c p0)
    if s.link (0, true) = 0 then insert (some (len - 1, (0, true)))
    else
      (s.getLoop key len k ⟨-1, -1, (0, true), (0, true), 0⟩).bind fun t => match t with
        | .found id => some (id, false, lkey, s)
        | .failed => some (0, false, lkey, s)
        | .stop x p => (diffAt p key).bind fun c => (s.getPlace key len k x c).bind insert

/-- `sen_sym_get` of a table in the current file format that was created without
`SEN_SYM_WITH_SIS`. -/
def senSymGet (key : List UInt8) (k : Nat) : Option (Nat × SenSym) :=
  (s.senSymGetKey key 0 k).map fun (r, _, _, s) => (r, s)

/-- The loop of `sen_sym_at`, from the position `c` and the link `r` on. -/
def atLoop (key : List UInt8) (len : Nat) : Nat → Int → Nat → Option Nat
  | 0, _, _ => none
  | k + 1, c, r =>
      if r = 0 then some 0
      else
        match s.patAt r with
        | none => some 0
        | some rn =>
            if len ≤ rn.check then some 0
            else if rn.check ≤ c then
              some ((s.patNodeGetKey rn).elim 0 fun p => if p.read 0 (len / 8) = key then r else 0)
            else atLoop key len k rn.check (s.link (r, nthBit key rn.check))

/-- `sen_sym_at` -/
def senSymAt (key : List UInt8) (k : Nat) : Option Nat :=
  s.atLoop (key.take (s.sizeOf key)) (s.sizeOf key * 8) k (-1) (s.link (0, true))

end SenSym

/-- The table that `sen_sym_create` makes. The segment of the first nodes is assigned. -/
def senSymCreate (keySize : Nat) : SenSym where
  keySize := keySize
  nrecords := 0
  currRec := 0
  currKey := 2 ^ 32 - 1
  garbages _ := 0
  keySegments := 0
  patSegments := 1
  sisSegments := 0
  nodes _ := ⟨0, 0, .stored 0, 0, false, 0⟩
  keys _ := 0

end Senna.Sym
