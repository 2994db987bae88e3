/-
# Buffer records

A posting that has not been flushed yet is a record in a buffer segment: two links and a
body that `encode_rec` wrote. This file has the hits that a term's postings stand for, the
body of a record, the record, the term slot and the segment as data.
-/

import Senna.Inv.Posting

namespace Senna.Inv

open Senna.Io

/-- The gaps `pp->pos - lpos` of a position list, coded one after the other. -/
def encPositions : Nat → List Nat → List UInt8
  | _, [] => []
  | lpos, pos :: ps => senBEnc (u32Sub pos lpos) ++ encPositions pos ps

/-- A posting with its positions. -/
structure Hit where
  rid : Nat
  sid : Nat
  score : Nat
  pos : List Nat
  deriving DecidableEq, Repr

namespace Hit

/-- The document a hit is in. -/
def id (h : Hit) : DocId := ⟨h.rid, h.sid⟩

/-- The frequency of the term in the document. -/
def tf (h : Hit) : Nat := h.pos.length

end Hit

/-- The documents of `hs` increase strictly. -/
def Sorted (hs : List Hit) : Prop := hs.Pairwise fun g h => g.id < h.id

instance (hs : List Hit) : Decidable (Sorted hs) :=
  inferInstanceAs (Decidable (hs.Pairwise _))

@[simp]
theorem sorted_cons {h : Hit} {hs : List Hit} :
    Sorted (h :: hs) ↔ (∀ g ∈ hs, h.id < g.id) ∧ Sorted hs := List.pairwise_cons

/-- The hit of a document. -/
def find (hs : List Hit) (d : DocId) : Option Hit := hs.find? fun h => h.id = d

@[simp]
theorem find_nil (d : DocId) : find [] d = none := rfl

theorem find_cons (h : Hit) (hs : List Hit) (d : DocId) :
    find (h :: hs) d = if h.id = d then some h else find hs d := by
  by_cases hd : h.id = d <;> simp [find, hd]

theorem find_eq_none {hs : List Hit} {d : DocId} (h : ∀ g ∈ hs, g.id ≠ d) : find hs d = none := by
  simpa [find] using h

/-- `sen_inv_updspec`, with its position chain as a list. -/
structure UpdSpec where
  rid : Nat
  sid : Nat
  score : Nat
  tf : Nat
  pos : List Nat
  deriving DecidableEq, Repr

/-- `SEN_INV_MAX_TF`, at which `sen_inv_updspec_add` stops counting. -/
def senInvMaxTf : Nat := 0x1ffff

/-- `encode_rec` up to the padding. -/
def encodeBody (rid sid tf score : Nat) (pos : List Nat) : List UInt8 :=
  senBEnc rid ++ senBEnc sid
    ++ (if score = 0 then senBEnc (tf * 2) else senBEnc (tf * 2 + 1) ++ senBEnc score)
    ++ encPositions 0 (pos.take tf)

/-- `while (((intptr_t)p & 0x03)) { *p++ = 0; }` from an aligned start. -/
def pad4 (bs : List UInt8) : List UInt8 := bs ++ List.replicate ((4 - bs.length % 4) % 4) 0

/-- `encode_rec(u, &size, deletep)`: the bytes written. -/
def encodeRec (u : UpdSpec) (deletep : Bool) : List UInt8 :=
  let tf := if deletep then 0 else u.tf
  let score := if deletep then 0 else u.score
  pad4 (encodeBody u.rid u.sid tf score u.pos)

/-- `SEN_B_DEC(rid, p); SEN_B_DEC(sid, p);` -/
def readId (body : List UInt8) : Option (DocId × List UInt8) := do
  let (rid, p) ← senBDec body
  let (sid, p) ← senBDec p
  some (⟨rid, sid⟩, p)

/-- `buffer_rec` and the bytes that follow it. -/
structure BufferRec where
  step : Nat
  jump : Nat
  body : List UInt8
  deriving DecidableEq, Repr

/-- `buffer_term`. A slot whose `tid` is zero is void. -/
structure BufferTerm where
  tid : Nat
  sizeInChunk : Nat
  posInChunk : Nat
  sizeInBuffer : Nat
  posInBuffer : Nat
  deriving DecidableEq, Repr

/-- `sen_inv_buffer`: header, term slots and records. `chunk` is `none` for
`CHUNK_NOT_ASSIGNED`, `header.nterms` is the number of slots, and the records put
since the segment was cleared stand with their positions, the latest first. -/
structure Buffer where
  chunk : Option Nat
  chunkSize : Nat
  bufferFree : Nat
  ntermsVoid : Nat
  terms : List BufferTerm
  recs : List (Nat × BufferRec)
  deriving DecidableEq, Repr

namespace Buffer

/-- `BUFFER_REC_AT(b,pos)`. -/
def recAt (b : Buffer) (pos : Nat) : Option BufferRec := b.recs.lookup pos

/-- Overwrite the record at `pos`. -/
def updRec (b : Buffer) (pos : Nat) (f : BufferRec → BufferRec) : Buffer :=
  { b with recs := b.recs.map fun (p, r) => if p = pos then (p, f r) else (p, r) }

theorem recAt_updRec (b : Buffer) (pos : Nat) (f : BufferRec → BufferRec) (p : Nat) :
    (b.updRec pos f).recAt p = if p = pos then (b.recAt p).map f else b.recAt p := by
  unfold recAt updRec
  induction b.recs with
  | nil => simp
  | cons x rs ih =>
      obtain ⟨k, r⟩ := x
      by_cases hpk : p = k
      · subst hpk
        by_cases hk : p = pos <;> simp [hk]
      · have hpk' : (p == k) = false := by simpa using hpk
        by_cases hk : k = pos
        · simp only [List.map_cons, hk, if_true, List.lookup_cons, hk ▸ hpk', ih]
        · simp only [List.map_cons, hk, if_false, List.lookup_cons, hpk', ih]

end Buffer

end Senna.Inv
