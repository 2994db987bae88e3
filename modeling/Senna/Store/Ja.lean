/-
# Jagged arrays

`sen_ja` keeps a value of any length for each id. A file of segments holds both the
values and the table of where they are: a logical segment of the table (`esegs`) is put
into a file segment when its first id is used. `dsegs` counts for each file segment how
many units of 16 bytes values take up in it; a segment with a count of zero is free.

A value is written behind the one written last (`curr_pos`) when it fits into that
segment, else from the start of a run of free segments. Only then is the table entry
changed and the value that was there before released.

Accesses outside of `dsegs` and `esegs` are undefined in the source and `none` here.
Writing to the file is taken to succeed.
-/

import Senna.Base
import Senna.Io.Word

namespace Senna.Store

open Senna.Io Senna.Lib

/-- `SEG_NOT_ASSIGNED`. -/
def segNotAssigned : Nat := 0xffffffff

/-- `SEG_ESEG`. -/
def segEseg : Nat := 0xffffffff

/-- `max_dsegs`, `1 << (32 - JA_EPOS_WIDTH)` for 16 bits of `JA_EPOS_WIDTH`. -/
def maxDsegs : Nat := 65536

/-- `max_esegs`, `1 << (31 - segment_width)` for segments of 20 bits. -/
def maxEsegs : Nat := 2048

/-- `sen_ja`, with the bytes of all file segments one after the other. -/
structure Ja where
  currPos : Nat
  dsegs : Nat → Nat
  esegs : Nat → Nat
  mem : Memory UInt8

/-- `sen_io_ja_einfo`. A size of zero means that there is no value. -/
structure Einfo where
  pos : Nat
  size : Nat
  deriving DecidableEq, Repr

/-- How many units a value takes up with its header:
`(size + sizeof(sen_io_ja_ehead) + JA_ALIGN_MASK) >> JA_ALIGN_WIDTH`. -/
def unitsOf (size : Nat) : Nat := (size + 8 + 15) / 16

/-- The place of an offset in a file segment of 2^20 bytes. -/
def segAddr (seg off : Nat) : Nat := seg * 2 ^ 20 + off

/-- The header `{size, key}` of a value or of what is left of one. -/
def ehead (size key : Nat) : List UInt8 := le32 size ++ le32 key

/-- `*ep`, read. -/
def loadEinfo (m : Memory UInt8) (a : Nat) : Einfo := ⟨loadU32 m a, loadU32 m (a + 4)⟩

namespace Ja

/-- `sen_ja_create`, with an empty file. -/
def create : Ja := ⟨0, fun _ => 0, fun _ => segNotAssigned, fun _ => 0⟩

/-- `ep`: segments of the table have 2^17 entries of 8 bytes. -/
def epAddr (ja : Ja) (id : Nat) : Nat := segAddr (ja.esegs (id / 2 ^ 17)) (id % 2 ^ 17 * 8)

/-- The loop of `assign_eseg` from segment `i` on. -/
def firstFree (dsegs : Nat → Nat) : Nat → Nat → Option Nat
  | 0, _ => none
  | n + 1, i => if dsegs i = 0 then some i else firstFree dsegs n (i + 1)

/-- `assign_eseg`, `none` when no segment is free. -/
def assignEseg (ja : Ja) (lseg : Nat) : Option Ja :=
  (firstFree ja.dsegs maxDsegs 0).map fun i =>
    { ja with
      dsegs := Function.update ja.dsegs i segEseg
      esegs := Function.update ja.esegs lseg i }

/-- The first test of `assign_rec`: there is room behind `curr_pos`. -/
def fits (ja : Ja) (valueLen : Nat) : Bool :=
  ja.currPos ≠ 0 ∧ ja.currPos % 2 ^ 16 * 16 + valueLen + 8 ≤ 2 ^ 20

/-- The loop of `assign_rec`: `curr_pos` for the first run of `nseg` free segments. -/
def findRun (dsegs : Nat → Nat) (nseg : Nat) : Nat → Nat → Nat → Option Nat
  | 0, _, _ => none
  | n + 1, i, j =>
      if dsegs i = 0 then
        let j := j + 1
        if j = nseg then some ((i + 1 - j) * 2 ^ 16) else findRun dsegs nseg n (i + 1) j
      else findRun dsegs nseg n (i + 1) 0

/-- `assign_rec`, `none` when there is no such run. -/
def assignRec (ja : Ja) (valueLen : Nat) : Option Ja :=
  if ja.fits valueLen then some ja
  else (findRun ja.dsegs ((valueLen + 8 + 0xfffff) / 2 ^ 20) maxDsegs 0 0).map fun pos =>
    { ja with currPos := pos }

/-- The loop that adds `inc` units from segment `dseg` on. The count is that of the
segments from `dseg` to the end of `dsegs`. -/
def fill : Nat → (Nat → Nat) → Nat → Nat → Option (Nat → Nat)
  | 0, _, _, _ => none
  | n + 1, dsegs, dseg, inc =>
      if (dsegs dseg + inc) % 2 ^ 32 > 2 ^ 16 then
        fill n (Function.update dsegs dseg (2 ^ 16)) (dseg + 1)
          (u32Sub inc (u32Sub (2 ^ 16) (dsegs dseg)))
      else some (Function.update dsegs dseg ((dsegs dseg + inc) % 2 ^ 32))

/-- `sen_io_write_ja` at `curr_pos`, with what follows it. -/
def writeRec (ja : Ja) (id : Nat) (value : List UInt8) : Option Ja :=
  let newpos := ja.currPos
  let dseg := newpos / 2 ^ 16
  let doff := newpos % 2 ^ 16 * 16
  let inc := unitsOf value.length
  (fill (maxDsegs - dseg) ja.dsegs dseg inc).map fun dsegs =>
    { ja with
      currPos := if (newpos + inc) % 2 ^ 32 % 2 ^ 16 ≠ 0 then (newpos + inc) % 2 ^ 32 else 0
      dsegs := dsegs
      mem := ja.mem.write (segAddr dseg doff) (ehead value.length id ++ value) }

/-- `while (dec > max) { dec -= max; ja->dsegs[dseg++] = 0; }`. -/
def releaseWhole : Nat → (Nat → Nat) → Nat → Nat → Option ((Nat → Nat) × Nat × Nat)
  | 0, _, _, _ => none
  | n + 1, dsegs, dseg, dec =>
      if dec > 2 ^ 16 then releaseWhole n (Function.update dsegs dseg 0) (dseg + 1) (dec - 2 ^ 16)
      else some (dsegs, dseg, dec)

/-- What `sen_ja_put` does with a value that has been replaced. What it leaves in its last
segment becomes a value of no id. -/
def release (ja : Ja) (oe : Einfo) : Option Ja :=
  let dseg := oe.pos / 2 ^ 16
  let off := oe.pos % 2 ^ 16
  let dec := unitsOf oe.size
  if off + dec > 2 ^ 16 then
    (releaseWhole (maxDsegs - (dseg + 1))
      (Function.update ja.dsegs dseg (u32Sub (ja.dsegs dseg) (2 ^ 16 - off))) (dseg + 1)
      (dec - (2 ^ 16 - off))).map fun (dsegs, dseg, dec) =>
        { ja with
          dsegs := Function.update dsegs dseg (u32Sub (dsegs dseg) dec)
          mem := ja.mem.write (segAddr dseg 0) (ehead (dec * 16 - 8) 0) }
  else some { ja with dsegs := Function.update ja.dsegs dseg (u32Sub (ja.dsegs dseg) dec) }

/-- The last block of `sen_ja_put`: `ne` becomes the table entry of `id`. -/
def setEinfo (ja : Ja) (id : Nat) (ne : Einfo) : Option Ja :=
  let oe := loadEinfo ja.mem (ja.epAddr id)
  let ja := { ja with mem := ja.mem.write (ja.epAddr id) (le32 ne.pos ++ le32 ne.size) }
  if oe.size ≠ 0 then ja.release oe else some ja

/-- The table segment of `id`, assigned if it is not yet. -/
def needEseg (ja : Ja) (id : Nat) : Option Ja :=
  if ja.esegs (id / 2 ^ 17) = segNotAssigned then ja.assignEseg (id / 2 ^ 17) else some ja

/-- `sen_ja_put`. -/
def put (ja : Ja) (id : Nat) (value : List UInt8) : Option (SenRc × Ja) :=
  if maxEsegs ≤ id / 2 ^ 17 then none
  else match ja.needEseg id with
    | none => some (.internalError, ja)
    | some ja =>
        if value = [] then (ja.setEinfo id ⟨0, 0⟩).map fun ja => (.success, ja)
        else match ja.assignRec value.length with
          | none => some (.otherError, ja)
          | some ja => (ja.writeRec id value).bind fun ja' =>
              (ja'.setEinfo id ⟨ja.currPos, value.length⟩).map fun ja => (.success, ja)

/-- `sen_io_read_ja`: the value, unless the header is not that of the id's value. -/
def readJa (m : Memory UInt8) (id : Nat) (e : Einfo) : Option (List UInt8) :=
  let a := segAddr (e.pos / 2 ^ 16) (e.pos % 2 ^ 16 * 16)
  if loadU32 m (a + 4) ≠ id then none
  else if loadU32 m a ≠ e.size then none
  else some (m.read (a + 8) e.size)

/-- `sen_ja_ref`; the inner `none` is `NULL`. -/
def ref (ja : Ja) (id : Nat) : Option (Option (List UInt8)) :=
  if maxEsegs ≤ id / 2 ^ 17 then none
  else if ja.esegs (id / 2 ^ 17) = segNotAssigned then some none
  else
    let e := loadEinfo ja.mem (ja.epAddr id)
    if e.size = 0 then some none else some (readJa ja.mem id e)

end Ja

end Senna.Store
