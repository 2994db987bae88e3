/-
# Putting a record into a term's list

`buffer_put` links a new record into the list of its term, which is kept in the order of
`(rid, sid)`, and takes out the records that the new one replaces. It finds the place through
`jump`, a second link of every record, that `set_jump_r` moves about while the list is
walked. A record whose `jump` is 1 has been taken out.

Reading a record that the segment does not hold is `none` here. When a jump is moved follows
from shifts of a signed word; what a shift by 32 or more gives is left open (`sar`).
-/

import Senna.Inv.Record
import Senna.Lib.Chain

namespace Senna.Inv

open Senna.Io Senna.Lib

/-- `BUFFER_REC_DELETED(r)`. -/
def BufferRec.deleted (r : BufferRec) : Bool := r.jump = 1

namespace Buffer

/-- `r->jump = j`. -/
def setJump (b : Buffer) (r j : Nat) : Buffer := b.updRec r fun x => { x with jump := j }

/-- `r->step = s`. -/
def setStep (b : Buffer) (r s : Nat) : Buffer := b.updRec r fun x => { x with step := s }

/-- `BUFFER_REC_DEL(r)`. -/
def del (b : Buffer) (r : Nat) : Buffer := b.setJump r 1

/-- The document that the record at `pos` is about. -/
def idAt (b : Buffer) (pos : Nat) : Option DocId := do
  let r ← b.recAt pos
  let (id, _) ← readId r.body
  some id

/-- `check_jump`. -/
def checkJump (b : Buffer) (r j : Nat) : Option SenRc :=
  if j = 0 then some .success
  else do
    let id ← b.idAt r
    if j = 1 then some .success
    else do
      let r2 ← b.recAt j
      let id2 ← b.idAt j
      if r2.step = r then some .abnormalError
      else if id2.rid < id.rid ∨ id2.rid = id.rid ∧ id2.sid ≤ id.sid then some .abnormalError
      else some .success

/-- `set_jump_r`, with `max_jump` rounds left. -/
def setJumpR : Nat → Buffer → Nat → Nat → Option (SenRc × Buffer)
  | 0, b, _, _ => some (.success, b)
  | maxJump + 1, b, r, j =>
      if j ≤ 1 then some (.success, b)
      else do
        let r2 ← b.recAt j
        let rr ← b.recAt r
        if r = j ∨ r2.deleted ∨ j = rr.jump ∨ j = rr.step then some (.success, b)
        else do
          let rc ← b.checkJump r j
          if rc ≠ .success then some (.internalError, b)
          else if rr.step = 0 then some (.abnormalError, b.setJump r j)
          else setJumpR maxJump (b.setJump r j) rr.step rr.jump

/-- The rounds of `set_jump_r`. -/
def maxJump : Nat := 100

/-- `*lastp`: `none` stands for `&bt->pos_in_buffer`, a record for its `step`. -/
def link (b : Buffer) (bt : BufferTerm) : Option Nat → Option Nat
  | none => some bt.posInBuffer
  | some r => (b.recAt r).map (·.step)

/-- `*lastp = pos`. -/
def setLink (b : Buffer) (bt : BufferTerm) (pos : Nat) : Option Nat → Buffer × BufferTerm
  | none => (b, { bt with posInBuffer := pos })
  | some r => (b.setStep r pos, bt)

/-- `GET_NUM_BITS`. -/
def getNumBits (x : Nat) : Nat :=
  let n := (x &&& 0x55555555) + ((x >>> 1) &&& 0x55555555)
  let n := (n &&& 0x33333333) + ((n >>> 2) &&& 0x33333333)
  let n := (n &&& 0x0F0F0F0F) + ((n >>> 4) &&& 0x0F0F0F0F)
  let n := (n &&& 0x00FF00FF) + ((n >>> 8) &&& 0x00FF00FF)
  (n &&& 0x0000FFFF) + ((n >>> 16) &&& 0x0000FFFF)

/-- `while (n-- && (r->jump > 1))`: the record that at most `n` jumps lead to. -/
def followJumps (b : Buffer) : Nat → Nat → Option Nat
  | 0, r => some r
  | n + 1, r => do
      let rr ← b.recAt r
      if rr.jump ≤ 1 then some r
      else do
        let r2 ← b.recAt rr.jump
        if r2.deleted then some r else followJumps b n rr.jump

/-- The branch for `!*lastp`. -/
def putLast (b : Buffer) (bt : BufferTerm) (pos : Nat) (lastp : Option Nat) (last : Nat) :
    Option (Buffer × BufferTerm) := do
  let (b, bt) := ((b.setStep pos 0).setJump pos 0).setLink bt pos lastp
  let size := bt.sizeInBuffer
  let bt := { bt with sizeInBuffer := (size + 1) % 2 ^ 16 }
  if size ≤ 1 then some (b, bt)
  else do
    let b := b.setJump bt.posInBuffer pos
    if bt.sizeInBuffer % 2 = 1 then some (b, bt)
    else do
      let rhead ← b.recAt bt.posInBuffer
      let r ← b.followJumps (getNumBits bt.sizeInBuffer) rhead.step
      if r = pos then some (b, bt)
      else do
        let (_, b) ← setJumpR maxJump b r last
        some (b, bt)

/-- `while (id_curr.rid == u->rid)`: takes out the records of `rid` from `r` on, and the first
record behind them. -/
def delRid (rid : Nat) : Nat → Buffer → Nat → Option (Buffer × Nat)
  | 0, _, _ => none
  | n + 1, b, r => do
      let id ← b.idAt r
      if id.rid ≠ rid then some (b, r)
      else do
        let rr ← b.recAt r
        if rr.step = 0 then some (b.del r, 0) else delRid rid n (b.del r) rr.step

/-- The part for `u->rid == id_curr.rid`: takes out what `u` replaces, from `cur` on, and the
record behind that. -/
def takeOut (n : Nat) (b : Buffer) (u : DocId) (cur : Nat) (idCurr : DocId) :
    Option (Buffer × Nat) := do
  let rCurr ← b.recAt cur
  if u.rid = idCurr.rid then
    if u.sid = 0 then b.delRid u.rid n cur
    else if u.sid = idCurr.sid then some (b.del cur, rCurr.step)
    else some (b, cur)
  else some (b, cur)

/-- The branch for a record `cur` that is not below `(u->rid, u->sid)`. -/
def putBefore (n : Nat) (b : Buffer) (bt : BufferTerm) (pos : Nat) (u : DocId)
    (lastp : Option Nat) (cur : Nat) (idCurr : DocId) : Option (Buffer × BufferTerm) := do
  let rCurr ← b.recAt cur
  let (b, step) ← b.takeOut n u cur idCurr
  let b := b.setStep pos step
  let rc ← b.checkJump pos rCurr.jump
  let b := b.setJump pos (if rc = .success then rCurr.jump else 0)
  some (b.setLink bt pos lastp)

/-- The variables of the walk. -/
structure Walk where
  lastp : Option Nat
  last : Nat
  idPost : DocId
  rStart : Nat
  idStart : DocId
  delta0 : Int
  vdelta : Int
  vhops : Nat
  nhops : Nat
  reset : Bool
  deriving DecidableEq, Repr

/-- The initial values; `r_start` is `NULL`. -/
def Walk.start : Walk := ⟨none, 0, ⟨0, 0⟩, 0, ⟨0, 0⟩, 0, 0, 0, 0, true⟩

/-- A word as an `int`. -/
def toInt (x : Nat) : Int := (x : Int).bmod (2 ^ 32)

/-- The difference of the `rid`s, or of the `sid`s where that is zero. -/
def idDelta (a b : DocId) : Int :=
  let delta := toInt (u32Sub a.rid b.rid)
  if delta = 0 then toInt (u32Sub a.sid b.sid) else delta

variable (sar : Int → Nat → Int)

/-- `x >> n`. -/
def shiftInt (x : Int) (n : Nat) : Int := if n < 32 then x >>> n else sar x n

/-- Where the walk has come further than `vdelta`, `r_start` is moved on. -/
def advance (w : Walk) (cur : Nat) (delta : Int) : Walk :=
  if w.vdelta < delta then
    { w with
      vhops := w.vhops + 1
      vdelta := (w.vdelta + shiftInt sar w.delta0 (w.vhops + 1)).bmod (2 ^ 32)
      rStart := cur }
  else w

/-- After more hops than `vhops`, `r_start` gets a jump to `cur`. -/
def moveJump (b : Buffer) (w : Walk) (cur : Nat) : Option (Buffer × Walk) :=
  if w.vhops < w.nhops then (setJumpR maxJump b w.rStart cur).map fun r => (r.2, w)
  else some (b, { w with nhops := w.nhops + 1 })

/-- The part between `if (reset)` and `last = *lastp`: when a jump is moved. -/
def schedule (b : Buffer) (u : DocId) (w : Walk) (cur : Nat) (idCurr : DocId) :
    Option (Buffer × Walk) :=
  if w.reset then
    let delta0 := idDelta u idCurr
    some (b, { w with
      rStart := cur
      idStart := idCurr
      delta0 := delta0
      nhops := 0
      vhops := 1
      vdelta := delta0 >>> (1 : Nat) })
  else b.moveJump (advance sar w cur (idDelta idCurr w.idStart)) cur

/-- The end of a round: on by `step`, or by `jump` where that stays below `u`. -/
def hop (b : Buffer) (u : DocId) (w : Walk) (cur : Nat) : Option Walk := do
  let rCurr ← b.recAt cur
  let w := { w with last := cur, lastp := some cur, reset := false }
  let posj := rCurr.jump
  if posj ≤ 1 then some w
  else do
    let rj ← b.recAt posj
    if rj.deleted then some w
    else do
      let idj ← b.idAt posj
      if idj.rid < u.rid ∨ idj.rid = u.rid ∧ idj.sid < u.sid then
        some { w with last := posj, lastp := some posj }
      else some { w with reset := true }

/-- The loop of `buffer_put`. -/
def putLoop (pos : Nat) (u : DocId) :
    Nat → Buffer → BufferTerm → Walk → SenRc → Option (SenRc × Buffer × BufferTerm)
  | 0, _, _, _, _ => none
  | n + 1, b, bt, w, rc => do
      let cur ← b.link bt w.lastp
      if cur = 0 then (b.putLast bt pos w.lastp w.last).map fun r => (rc, r)
      else do
        let idCurr ← b.idAt cur
        if idCurr.rid < w.idPost.rid ∨ idCurr.rid = w.idPost.rid ∧ idCurr.sid < w.idPost.sid then
          -- abandon corrupt list
          putLoop pos u n b { bt with posInBuffer := 0, sizeInBuffer := 0 }
            { w with lastp := none } .invalidFormat
        else if u.rid < idCurr.rid ∨ u.rid = idCurr.rid ∧ u.sid ≤ idCurr.sid then
          (b.putBefore n bt pos u w.lastp cur idCurr).map fun r => (rc, r)
        else do
          let (b, w) ← b.schedule sar u { w with idPost := idCurr } cur idCurr
          let w ← b.hop u w cur
          putLoop pos u n b bt w rc

/-- `memcpy(NEXT_ADDR(rnew), bs, size - sizeof(buffer_rec))` -/
def copyBody (b : Buffer) (pos : Nat) (bs : List UInt8) : Buffer :=
  { b with recs := (pos, ⟨0, 0, bs⟩) :: b.recs }

/-- `buffer_put`, where the new record has the place `pos` and the content `bs`. -/
def bufferPut (n : Nat) (b : Buffer) (bt : BufferTerm) (pos : Nat) (bs : List UInt8) (u : DocId) :
    Option (SenRc × Buffer × BufferTerm) :=
  putLoop sar pos u n (b.copyBody pos bs) bt Walk.start .success

end Buffer

end Senna.Inv
