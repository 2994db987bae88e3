/-
# The chunk side of a cursor

`sen_inv_cursor_next` reads the chunk stream of a term posting by posting. What the
writer puts into a chunk, `GETNEXTC_` and the cursor both read back
(`chunk_stream_round_trip`).
-/

import Senna.Inv.Record

namespace Senna.Inv

open Senna.Io

/-- `sen_inv_posting`. -/
structure InvPosting extends Posting where
  rest : Nat
  pos : Nat
  deriving DecidableEq, Repr

/-- The chunk side of `sen_inv_cursor`. `cp` and `cpp` are the bytes from these pointers
on, `cp` up to `cpe`. -/
structure Cursor where
  withPos : Bool
  chunkUsed : Bool
  flags : DocFlags
  pc : InvPosting
  cp : List UInt8
  cpp : List UInt8
  deriving DecidableEq, Repr

/-- `while (tf--) { SEN_B_SKIP(pp); }` -/
def skipPositions : Nat → List UInt8 → Option (List UInt8)
  | 0, pp => some pp
  | tf + 1, pp => do
      let pp ← senBSkip pp
      skipPositions tf pp

namespace Cursor

/-- `if (c->with_pos) { while (c->pc.rest--) { SEN_B_SKIP(c->cpp); } }` -/
def skipRest (c : Cursor) : Option (List UInt8) :=
  if c.withPos then skipPositions c.pc.rest c.cpp else some c.cpp

/-- The branch of `sen_inv_cursor_next` under `if (c->stat & CHUNK_USED)`. -/
def nextChunk (c : Cursor) : Option Cursor :=
  if c.chunkUsed then
    match c.cp with
    | [] => some { c with pc.rid := 0 }
    | _ :: _ => do
        let cpp ← c.skipRest
        let (d, cp) ← decPosting ⟨c.pc.toPosting, c.flags⟩ c.cp
        some { c with
          flags := d.flags, pc := ⟨d.toPosting, d.tf, 0⟩, cp := cp, cpp := cpp }
  else some c

/-- The postings that the chunk branch of `sen_inv_cursor_next` reads until `cpe`. -/
def chunkPostings : Nat → Cursor → Option (List Posting)
  | 0, c => if c.cp = [] then some [] else none
  | n + 1, c =>
      if c.cp = [] then some []
      else do
        let c ← c.nextChunk
        let ps ← chunkPostings n c
        some (c.pc.toPosting :: ps)

/-- Without positions, the chunk branch decodes a stream as `GETNEXTC_` does. -/
theorem chunkPostings_of_stream {d : DocInfo} {p : List UInt8} {ps : List Posting}
    (h : Stream d p ps) {c : Cursor} (hused : c.chunkUsed = true) (hpos : c.withPos = false)
    (hd : (⟨c.pc.toPosting, c.flags⟩ : DocInfo) = d) (hcp : c.cp = p) {n : Nat}
    (hn : ps.length ≤ n) : chunkPostings n c = some ps := by
  induction h generalizing c n with
  | nil => cases n <;> simp [chunkPostings, hcp]
  | @cons d d₁ p p₁ ps head _ ih =>
      obtain ⟨n, rfl⟩ : ∃ m, n = m + 1 := ⟨n - 1, by simp at hn; omega⟩
      cases p with
      | nil => simp [decPosting_nil] at head
      | cons x p =>
          have hnext : c.nextChunk = some { c with
              flags := d₁.flags, pc := ⟨d₁.toPosting, d₁.tf, 0⟩, cp := p₁ } := by
            simp [nextChunk, hused, hcp, skipRest, hpos, hd, head]
          have hrec := ih (c := { c with
            flags := d₁.flags, pc := ⟨d₁.toPosting, d₁.tf, 0⟩, cp := p₁ })
            hused hpos rfl rfl (n := n) (by simpa using hn)
          simp [chunkPostings, hcp, hnext, hrec]

end Cursor

/-- Fold `PUTNEXT_` over postings, each with the position stream it is put from. -/
def PutState.putAll : PutState → List (Posting × List UInt8) → Option PutState
  | st, [] => some st
  | st, (p, pp) :: l => do
      let (st, _) ← st.putNext_ p pp
      putAll st l

/-- The fold runs through on increasing postings, and the encoder then holds them all. -/
theorem PutState.Encodes.putAll {st : PutState} {ps : List Posting} (h : st.Encodes ps)
    {l : List (Posting × List UInt8)} (hok : ∀ x ∈ l, x.1.Ok)
    (hcopy : ∀ x ∈ l, (copyPositions x.1.tf x.2).isSome) (hlt : ∀ x ∈ l, st.lid.id < x.1.id)
    (hsorted : (l.map fun x => x.1.id).Pairwise (· < ·)) :
    ∃ st', st.putAll l = some st' ∧ st'.Encodes (ps ++ l.map Prod.fst) := by
  induction l generalizing st ps with
  | nil => exact ⟨st, rfl, by simpa using h⟩
  | cons x l ih =>
      obtain ⟨p, pp⟩ := x
      rw [List.forall_mem_cons] at hok hcopy hlt
      rw [List.map_cons, List.pairwise_cons] at hsorted
      obtain ⟨⟨codes, rest⟩, hcodes⟩ := Option.isSome_iff_exists.mp hcopy.1
      obtain ⟨st₁, hput, henc, hlid, -, -⟩ := h.putNext_ hok.1 hlt.1 hcodes
      have hlt₁ : ∀ x ∈ l, st₁.lid.id < x.1.id := by
        rw [Posting.id, hlid]
        exact fun x hx => hsorted.1 _ (List.mem_map_of_mem hx)
      obtain ⟨st', hrun, henc'⟩ := ih henc hok.2 hcopy.2 hlt₁ hsorted.2
      exact ⟨st', by simp [PutState.putAll, hput, hrun], by simpa using henc'⟩

/-- **Chunk posting streams round-trip.** For every strictly increasing list of
postings, each with a position stream to copy from, the fold of `PUTNEXT_` and the
final write of the pending posting produce a stream that both decoders read back to
its very end as that list; and the data of a posting never begins with a marker. -/
theorem chunk_stream_round_trip (l : List (Posting × List UInt8))
    (hrid : ∀ x ∈ l, 1 ≤ x.1.rid ∧ x.1.rid < 2 ^ 32)
    (hsid : ∀ x ∈ l, 1 ≤ x.1.sid ∧ x.1.sid < 2 ^ 32)
    (htf : ∀ x ∈ l, 1 ≤ x.1.tf ∧ x.1.tf ≤ senInvMaxTf)
    (hscore : ∀ x ∈ l, x.1.score < 2 ^ 32)
    (hpos : ∀ x ∈ l, (copyPositions x.1.tf x.2).isSome)
    (hsorted : (l.map fun x => x.1.id).Pairwise (· < ·)) :
    ∃ st, PutState.init.putAll l = some st ∧
      (∀ n ≥ l.length, getPostings n .zero st.putLast.tc = some (l.map Prod.fst)) ∧
      (∀ c : Cursor, c.chunkUsed = true → c.withPos = false → c.pc.toPosting = ⟨0, 0, 0, 0⟩ →
        c.flags = ⟨false, false, false⟩ → c.cp = st.putLast.tc →
        ∀ n ≥ l.length, c.chunkPostings n = some (l.map Prod.fst)) ∧
      ∀ x ∈ l, ∀ dgap < 2 ^ 32, ∃ b p, senCEnc dgap x.1.tf = b :: p ∧ ¬ IsMarker b := by
  have hok : ∀ x ∈ l, x.1.Ok := fun x hx =>
    ⟨(hrid x hx).1, (hsid x hx).1, (htf x hx).1, (hrid x hx).2, (hsid x hx).2,
      lt_of_le_of_lt (htf x hx).2 (by decide), hscore x hx⟩
  have hlt : ∀ x ∈ l, PutState.init.lid.id < x.1.id := fun x hx => .inl (hrid x hx).1
  obtain ⟨st, hrun, henc⟩ := PutState.Encodes.init.putAll hok hpos hlt hsorted
  obtain ⟨c', hdec⟩ := henc.putLast
  have hstream : Stream .zero st.putLast.tc (l.map Prod.fst) := hdec.stream
  refine ⟨st, hrun, fun n hn => hstream.getPostings n (by simpa using hn), ?_, ?_⟩
  · intro c hused hwp hpc hflags hcp n hn
    exact Cursor.chunkPostings_of_stream hstream hused hwp (by rw [hpc, hflags]; rfl) hcp
      (by simpa using hn)
  · exact fun x hx dgap hd => senCEnc_eq_cons dgap x.1.tf hd (htf x hx).1

/-- A score that only the second posting has, and a section gap. -/
theorem chunk_stream_round_trip_pair :
    ∃ st, PutState.init.putAll [(⟨7, 1, 1, 0⟩, [5]), (⟨7, 3, 2, 9⟩, [1, 2])] = some st ∧
      getPostings 2 .zero st.putLast.tc = some [⟨7, 1, 1, 0⟩, ⟨7, 3, 2, 9⟩] := by
  obtain ⟨st, hrun, hdec, -⟩ := chunk_stream_round_trip
    [(⟨7, 1, 1, 0⟩, [5]), (⟨7, 3, 2, 9⟩, [1, 2])] (by decide) (by decide) (by decide) (by decide)
    (by decide) (by decide)
  exact ⟨st, hrun, hdec 2 le_rfl⟩

end Senna.Inv
