/-
# Chunk posting streams

A flushed term keeps its postings in a chunk as a byte stream. `buffer_flush`
writes the stream with `PUTNEXT_`, one posting behind: the optional score and
section-gap fields of a posting are governed by sticky mode bits, and the marker
bytes that toggle them are chosen by looking at the posting that follows.
`GETNEXTC_` reads the stream back.

A decoder only needs the markers in front of a posting to agree with the mode
bits used to write it. `decPosting_putPosting` says so once, for any choice of
markers, and both the interior rule and the rule for the last posting are
instances of it.
-/

import Senna.Base
import Senna.Io.Byte

namespace Senna.Inv

open Senna.Io

/-- A record id and a section id, the key of a posting inside a term. -/
structure DocId where
  rid : Nat
  sid : Nat
  deriving DecidableEq, Repr

/-- The order of the postings of a term. -/
def DocId.Lt (a b : DocId) : Prop :=
  a.rid < b.rid ∨ (a.rid = b.rid ∧ a.sid < b.sid)

instance : LT DocId := ⟨DocId.Lt⟩

instance (a b : DocId) : Decidable (a < b) :=
  inferInstanceAs (Decidable (a.rid < b.rid ∨ (a.rid = b.rid ∧ a.sid < b.sid)))

theorem DocId.lt_def {a b : DocId} :
    a < b ↔ a.rid < b.rid ∨ (a.rid = b.rid ∧ a.sid < b.sid) := Iff.rfl

theorem DocId.lt_trans {a b c : DocId} (hab : a < b) (hbc : b < c) : a < c := by
  rw [DocId.lt_def] at *
  omega

theorem DocId.lt_irrefl (a : DocId) : ¬ a < a := by
  rw [DocId.lt_def]
  omega

/-- The part of a posting that the posting stream of a chunk stores. -/
structure Posting where
  rid : Nat
  sid : Nat
  tf : Nat
  score : Nat
  deriving DecidableEq, Repr

/-- The document a posting is about. -/
def Posting.id (p : Posting) : DocId := ⟨p.rid, p.sid⟩

/-- The mode bits of a posting stream: `1` (this posting alone has a score), `2`
(postings have a score) and `4` (postings have a section gap). -/
structure DocFlags where
  once : Bool
  score : Bool
  gap : Bool
  deriving DecidableEq, Repr

/-- `docinfo`: the posting at hand of an encoder or a decoder, with its mode bits. -/
structure DocInfo extends Posting where
  flags : DocFlags
  deriving DecidableEq, Repr

/-- `docinfo x = {0, 0, 0, 0, 0}`. -/
def DocInfo.zero : DocInfo := ⟨⟨0, 0, 0, 0⟩, ⟨false, false, false⟩⟩

/-- `SEN_C_ENC(dgap,tf,p)`: the bytes written at `p`. -/
def senCEnc (d t : Nat) : List UInt8 :=
  if d < 0x46 ∧ t ≤ 2 then
    [cByte ((d <<< 1) + (t - 1))]
  else if d < 0x46 ∧ t ≤ 6 then
    [cByte (0xc0 + (d >>> 6)), cByte ((d <<< 2) + (t - 3))]
  else if d < 0x1000 ∧ t ≤ 4 then
    [cByte (0xc0 + (d >>> 6)), cByte ((d <<< 2) + (t - 1))]
  else if d < 0x4000 ∧ t ≤ 0x40 then
    [cByte (0x90 + (d >>> 10)), cByte (d >>> 2), cByte ((d <<< 6) + (t - 1))]
  else if d < 0x80000 ∧ t ≤ 4 then
    [cByte (0xa0 + (d >>> 14)), cByte (d >>> 6), cByte ((d <<< 2) + (t - 1))]
  else
    0x8f :: (senBEnc d ++ senBEnc t)

/-- `SEN_C_DEC(dgap,tf,p)`: gap, frequency and the stream after them. -/
def senCDec : List UInt8 → Option (Nat × Nat × List UInt8)
  | [] => none
  | b :: p =>
      let v := b.toNat
      if v >>> 4 = 0x08 then
        if v = 0x8f then do
          let (dgap, p) ← senBDec p
          let (tf, p) ← senBDec p
          some (dgap, tf, p)
        else some (v >>> 1, v % 2 + 1, p)
      else if v >>> 4 = 0x09 then
        match p with
        | b₁ :: b₂ :: p =>
            some (((v - 0x90) <<< 10) + (b₁.toNat <<< 2) + (b₂.toNat >>> 6), b₂.toNat % 0x40 + 1, p)
        | _ => none
      else if v >>> 4 = 0x0a ∨ v >>> 4 = 0x0b then
        match p with
        | b₁ :: b₂ :: p =>
            some (((v - 0xa0) <<< 14) + (b₁.toNat <<< 6) + (b₂.toNat >>> 2), b₂.toNat % 4 + 1, p)
        | _ => none
      else if 0x0c ≤ v >>> 4 then
        match p with
        | b₁ :: p =>
            let dgap := ((v - 0xc0) <<< 6) + (b₁.toNat >>> 2)
            let tf := b₁.toNat % 4 + 1
            some (dgap, if dgap < 0x46 then tf + 2 else tf, p)
        | _ => none
      else
        some (v >>> 1, v % 2 + 1, p)

/-- The two marker bytes for scores and the one for section gaps. -/
def IsMarker (b : UInt8) : Prop := b = 0x8c ∨ b = 0x8d ∨ b = 0x8e

instance (b : UInt8) : Decidable (IsMarker b) := by
  unfold IsMarker
  infer_instance

theorem not_isMarker_of_toNat {b : UInt8} (h : b.toNat < 0x8c ∨ 0x8e < b.toNat) :
    ¬ IsMarker b := by
  rintro (rfl | rfl | rfl) <;> simp at h

/-- Every code of a positive frequency is a byte that is no marker, and a tail. -/
theorem senCEnc_eq_cons (d t : Nat) (hd : d < 2 ^ 32) (ht : 0 < t) :
    ∃ b p, senCEnc d t = b :: p ∧ ¬ IsMarker b := by
  unfold senCEnc
  simp only [Nat.shiftRight_eq_div_pow, Nat.shiftLeft_eq]
  split_ifs <;>
    exact ⟨_, _, rfl, not_isMarker_of_toNat (by simp; try omega)⟩

/-- Decoding a gap and a frequency reads them back and stops right after them. -/
theorem senCDec_senCEnc (d t : Nat) (hd : d < 2 ^ 32) (ht : 0 < t) (ht' : t < 2 ^ 32)
    (p : List UInt8) : senCDec (senCEnc d t ++ p) = some (d, t, p) := by
  unfold senCEnc
  simp only [Nat.shiftRight_eq_div_pow, Nat.shiftLeft_eq]
  split_ifs with h₁ h₂ h₃ h₄ h₅
  case' neg =>
    simp only [List.cons_append, List.append_assoc, senCDec, Nat.shiftRight_eq_div_pow]
    simp [senBDec_senBEnc d hd, senBDec_senBEnc t ht']
  all_goals
    simp only [List.cons_append, List.nil_append, senCDec, toNat_cByte,
      Nat.shiftRight_eq_div_pow, Nat.shiftLeft_eq]
    split_ifs <;> first | omega | (simp; omega)

/-- Test the byte at the stream pointer for a marker, stepping over it when it is there. -/
def takeMarker (m : UInt8) : List UInt8 → Bool × List UInt8
  | [] => (false, [])
  | b :: p => if b = m then (true, p) else (false, b :: p)

@[simp]
theorem takeMarker_self (m : UInt8) (p : List UInt8) : takeMarker m (m :: p) = (true, p) := by
  simp [takeMarker]

theorem takeMarker_of_ne {m b : UInt8} (h : b ≠ m) (p : List UInt8) :
    takeMarker m (b :: p) = (false, b :: p) := by
  simp [takeMarker, h]

/-- `if (present) { SEN_B_DEC(v, p); } else { v = 0; }` -/
def decField (present : Bool) (p : List UInt8) : Option (Nat × List UInt8) :=
  if present then senBDec p else some (0, p)

/-- Decode one posting of a stream. The text between the marker tests and the
section id is the same in `GETNEXTC_` and in `sen_inv_cursor_next`. -/
def decPosting (c : DocInfo) (p : List UInt8) : Option (DocInfo × List UInt8) := do
  let (once, p) := takeMarker 0x8c p
  let (score, p) := takeMarker 0x8d p
  let (gap, p) := takeMarker 0x8e p
  let flags : DocFlags := ⟨once, c.flags.score ^^ score, c.flags.gap ^^ gap⟩
  let (dgap, tf, p) ← senCDec p
  let rid := (c.rid + dgap) % 2 ^ 32
  let sid := if dgap ≠ 0 then 0 else c.sid
  let (sgap, p) ← decField flags.gap p
  let (score, p) ← decField (flags.once || flags.score) p
  some (⟨⟨rid, (sid + (sgap + 1)) % 2 ^ 32, tf, score⟩, flags⟩, p)

/-- `GETNEXTC_()`: `scp` is the stream up to `sce`, and `cid.rid = 0` marks its end. -/
def getNextC_ (cid : DocInfo) (scp : List UInt8) : Option (DocInfo × List UInt8) :=
  match scp with
  | [] => some ({ cid with rid := 0 }, [])
  | _ :: _ => decPosting cid scp

/-- The postings that repeated `GETNEXTC_` yields until it reports the end. The
count bounds the recursion; every posting takes at least one byte. -/
def getPostings : Nat → DocInfo → List UInt8 → Option (List Posting)
  | _, _, [] => some []
  | 0, _, _ :: _ => none
  | n + 1, cid, b :: scp => do
      let (cid, scp) ← getNextC_ cid (b :: scp)
      let ps ← getPostings n cid scp
      some (cid.toPosting :: ps)

/-- `if (present) { SEN_B_ENC(v, p); }` -/
def encField (present : Bool) (v : Nat) : List UInt8 :=
  if present then senBEnc v else []

theorem decField_encField {present : Bool} {v : Nat} (hv : v < 2 ^ 32)
    (habsent : present = false → v = 0) (p : List UInt8) :
    decField present (encField present v ++ p) = some (v, p) := by
  cases present with
  | false => simp [decField, encField, habsent rfl]
  | true => simp [decField, encField, senBDec_senBEnc v hv]

/-- The bytes of one posting after its markers, under the mode bits `flags`. -/
def putPosting (flags : DocFlags) (dgap tf sgap score : Nat) : List UInt8 :=
  senCEnc dgap tf ++ encField flags.gap sgap ++ encField (flags.once || flags.score) score

/-- The encoder's choice for the score of the pending posting, given that of the next. -/
def scoreMark (flags : DocFlags) (score next : Nat) : DocFlags × List UInt8 :=
  let flags := { flags with once := false }
  if score ≠ 0 then
    if !flags.score then
      if next ≠ 0 then ({ flags with score := true }, [0x8d])
      else ({ flags with once := true }, [0x8c])
    else (flags, [])
  else if next = 0 ∧ flags.score then ({ flags with score := false }, [0x8d])
  else (flags, [])

/-- The encoder's choice for the section gap of the pending posting, given that of the next. -/
def gapMark (flags : DocFlags) (sgap next : Nat) : DocFlags × List UInt8 :=
  if sgap ≠ 0 then
    if !flags.gap then ({ flags with gap := true }, [0x8e]) else (flags, [])
  else if next = 1 ∧ flags.gap then ({ flags with gap := false }, [0x8e])
  else (flags, [])

/-- The state of `PUTNEXT_`: the pending posting `lid` with its gaps, the two
temporary streams filled so far and the number of postings put. -/
structure PutState where
  lid : DocInfo
  dgap_ : Nat
  sgap_ : Nat
  tc : List UInt8
  tp : List UInt8
  ndf : Nat
  deriving DecidableEq, Repr

/-- The state at the head of the loop over the terms. -/
def PutState.init : PutState := ⟨.zero, 0, 0, [], [], 0⟩

/-- Write the pending posting, looking at the score and the section gap of the next. -/
def PutState.flushPending (st : PutState) (score sgap : Nat) : PutState :=
  if st.sgap_ ≠ 0 then
    let (flags, m₁) := scoreMark st.lid.flags st.lid.score score
    let (flags, m₂) := gapMark flags (st.sgap_ - 1) sgap
    { st with
      lid := { st.lid with flags := flags }
      tc := st.tc ++ m₁ ++ m₂
        ++ putPosting flags st.dgap_ st.lid.tf (st.sgap_ - 1) st.lid.score }
  else st

/-- `while (id.tf--) { SEN_B_COPY(tpp, pp); }` -/
def copyPositions : Nat → List UInt8 → Option (List UInt8 × List UInt8)
  | 0, pp => some ([], pp)
  | tf + 1, pp => do
      let (code, pp) ← senBCopy pp
      let (codes, pp) ← copyPositions tf pp
      some (code ++ codes, pp)

/-- `PUTNEXT_(id,pp)`; the second component is `pp` after the copy. The counter
`ndf` is incremented by both callers right before. -/
def PutState.putNext_ (st : PutState) (id : Posting) (pp : List UInt8) :
    Option (PutState × List UInt8) := do
  let dgap := u32Sub id.rid st.lid.rid
  let sgap := if dgap ≠ 0 then id.sid else u32Sub id.sid st.lid.sid
  let st := st.flushPending id.score sgap
  let (codes, pp) ← copyPositions id.tf pp
  some ({ st with
    lid := ⟨id, st.lid.flags⟩
    dgap_ := dgap
    sgap_ := sgap
    tp := st.tp ++ codes
    ndf := st.ndf + 1 }, pp)

/-- The encoder's choice for the last posting, which has no next one. -/
def lastMark (flags : DocFlags) (score sgap : Nat) : DocFlags × List UInt8 :=
  let (flags, m₁) : DocFlags × List UInt8 :=
    if score ≠ 0 ∧ !flags.score then ({ flags with score := true }, [0x8d]) else (flags, [])
  let (flags, m₂) : DocFlags × List UInt8 :=
    if sgap ≠ 0 ∧ !flags.gap then ({ flags with gap := true }, [0x8e]) else (flags, [])
  (flags, m₁ ++ m₂)

/-- The write of the last pending posting, after the merge loop. -/
def PutState.putLast (st : PutState) : PutState :=
  if st.sgap_ ≠ 0 then
    let sgap := st.sgap_ - 1
    let (flags, m) := lastMark st.lid.flags st.lid.score sgap
    { st with
      lid := { st.lid with flags := flags }
      sgap_ := sgap
      tc := st.tc ++ m ++ senCEnc st.dgap_ st.lid.tf
        ++ encField flags.gap sgap ++ encField flags.score st.lid.score }
  else st

/-- Markers `m₈c m₈d m₈e` in front of a posting lead from mode bits `f` to `g`. -/
structure Marks (f g : DocFlags) (m : List UInt8) : Prop where
  bytes : m = (if g.once then [0x8c] else []) ++ (if f.score ≠ g.score then [0x8d] else [])
    ++ (if f.gap ≠ g.gap then [0x8e] else [])

/-- A conditional marker is found exactly when it was written. -/
private theorem takeMarker_ite {m : UInt8} {c : Bool} {p : List UInt8}
    (hp : p.head? ≠ some m) : takeMarker m ((if c then [m] else []) ++ p) = (c, p) := by
  cases c with
  | true => simp
  | false =>
      cases p with
      | nil => rfl
      | cons b p => simpa using takeMarker_of_ne (by simpa using hp) p

private theorem head?_ite_append {m n : UInt8} {c : Bool} {p : List UInt8}
    (hn : n ≠ m) (hp : p.head? ≠ some m) :
    ((if c then [n] else []) ++ p).head? ≠ some m := by
  cases c <;> simpa

/-- **One posting.** Whatever markers the encoder chose, a decoder whose sticky
bits are those in force before them reads the posting back and ends with the
bits in force after them. -/
theorem decPosting_putPosting {c : DocInfo} {g : DocFlags} {m : List UInt8}
    (hm : Marks c.flags g m) {dgap tf sgap score : Nat}
    (hd : dgap < 2 ^ 32) (ht : 0 < tf) (ht' : tf < 2 ^ 32) (hs : sgap < 2 ^ 32)
    (hsc : score < 2 ^ 32) (hgap : g.gap = false → sgap = 0)
    (hscore : g.once = false → g.score = false → score = 0) (p : List UInt8) :
    decPosting c (m ++ putPosting g dgap tf sgap score ++ p) =
      some (⟨⟨(c.rid + dgap) % 2 ^ 32,
        ((if dgap ≠ 0 then 0 else c.sid) + (sgap + 1)) % 2 ^ 32, tf, score⟩, g⟩, p) := by
  set fields := encField g.gap sgap ++ (encField (g.once || g.score) score ++ p) with hfields
  have hbytes : m ++ putPosting g dgap tf sgap score ++ p =
      (if g.once then [0x8c] else []) ++ ((if c.flags.score ^^ g.score then [0x8d] else [])
        ++ ((if c.flags.gap ^^ g.gap then [0x8e] else []) ++ (senCEnc dgap tf ++ fields))) := by
    rw [hm.bytes, hfields, putPosting]
    simp [← Bool.bne_eq_xor]
  obtain ⟨b, q, hbq, hb⟩ := senCEnc_eq_cons dgap tf hd ht
  have hhead : ∀ mk, IsMarker mk → (senCEnc dgap tf ++ fields).head? ≠ some mk := by
    rintro mk hmk h
    rw [hbq] at h
    simp only [List.cons_append, List.head?_cons, Option.some.injEq] at h
    exact hb (h ▸ hmk)
  have hhead' : ∀ mk, IsMarker mk → mk ≠ 0x8e →
      ((if c.flags.gap ^^ g.gap then [0x8e] else []) ++ (senCEnc dgap tf ++ fields)).head?
        ≠ some mk :=
    fun mk hmk hne => head?_ite_append hne.symm (hhead mk hmk)
  have hsbits : (c.flags.score ^^ (c.flags.score ^^ g.score)) = g.score := by simp
  have hgbits : (c.flags.gap ^^ (c.flags.gap ^^ g.gap)) = g.gap := by simp
  have hhead'' : ∀ mk, mk = 0x8c →
      ((if c.flags.score ^^ g.score then [0x8d] else []) ++
        ((if c.flags.gap ^^ g.gap then [0x8e] else []) ++ (senCEnc dgap tf ++ fields))).head?
        ≠ some mk := by
    rintro mk rfl
    exact head?_ite_append (by decide) (hhead' 0x8c (by decide) (by decide))
  rw [hbytes, decPosting]
  simp only [takeMarker_ite (hhead'' 0x8c rfl), takeMarker_ite (hhead' 0x8d (by decide)
      (by decide)),
    takeMarker_ite (hhead 0x8e (by decide)), hsbits, hgbits,
    senCDec_senCEnc dgap tf hd ht ht', Option.bind_eq_bind, Option.bind_some]
  -- the gap field is read exactly when it was written, and so is the score
  have hscore' : (g.once || g.score) = false → score = 0 := by
    rw [Bool.or_eq_false_iff]
    exact fun h => hscore h.1 h.2
  simp only [hfields, decField_encField hs hgap, decField_encField hsc hscore', Option.bind_some]

/-- `w` is the code of the postings `ps` for a decoder in state `c`, which it
leaves in state `c'` whatever follows `w`. -/
inductive Decodes : DocInfo → List UInt8 → List Posting → DocInfo → Prop
  | nil (c : DocInfo) : Decodes c [] [] c
  | cons {c c₁ c' : DocInfo} {w₁ w₂ : List UInt8} {ps : List Posting}
      (head : ∀ q, decPosting c (w₁ ++ q) = some (c₁, q))
      (tail : Decodes c₁ w₂ ps c') : Decodes c (w₁ ++ w₂) (c₁.toPosting :: ps) c'

theorem Decodes.append {c c' c'' : DocInfo} {w w' : List UInt8} {ps ps' : List Posting}
    (h : Decodes c w ps c') (h' : Decodes c' w' ps' c'') :
    Decodes c (w ++ w') (ps ++ ps') c'' := by
  induction h with
  | nil => exact h'
  | cons head _ ih => simpa using Decodes.cons head (ih h')

theorem Decodes.single {c : DocInfo} {w : List UInt8} (c₁ : DocInfo)
    (h : ∀ q, decPosting c (w ++ q) = some (c₁, q)) : Decodes c w [c₁.toPosting] c₁ := by
  simpa using Decodes.cons h (.nil c₁)

/-- The postings a stream yields from a decoder state on, read to its very end. -/
inductive Stream : DocInfo → List UInt8 → List Posting → Prop
  | nil (c : DocInfo) : Stream c [] []
  | cons {c c₁ : DocInfo} {p p₁ : List UInt8} {ps : List Posting}
      (head : decPosting c p = some (c₁, p₁)) (tail : Stream c₁ p₁ ps) :
      Stream c p (c₁.toPosting :: ps)

theorem decPosting_nil (c : DocInfo) : decPosting c [] = none := rfl

theorem Decodes.stream {c c' : DocInfo} {w : List UInt8} {ps : List Posting}
    (h : Decodes c w ps c') : Stream c w ps := by
  induction h with
  | nil => exact .nil _
  | cons head _ ih => exact .cons (head _) ih

theorem Stream.getPostings {c : DocInfo} {p : List UInt8} {ps : List Posting}
    (h : Stream c p ps) : ∀ n, ps.length ≤ n → getPostings n c p = some ps := by
  induction h with
  | nil c => intro n _; cases n <;> rfl
  | @cons c c₁ p p₁ ps head _ ih =>
      intro n hn
      obtain ⟨n, rfl⟩ : ∃ m, n = m + 1 := ⟨n - 1, by simp at hn; omega⟩
      cases p with
      | nil => simp [decPosting_nil] at head
      | cons b p =>
          simp only [Senna.Inv.getPostings, getNextC_, head, Option.bind_eq_bind, Option.bind_some]
          rw [ih n (by simpa using hn)]
          rfl

/-- What a posting stream can store: `uint32_t` fields, and ids and a frequency that
are not zero. -/
structure Posting.Ok (p : Posting) : Prop where
  rid_pos : 0 < p.rid
  sid_pos : 0 < p.sid
  tf_pos : 0 < p.tf
  rid_lt : p.rid < 2 ^ 32
  sid_lt : p.sid < 2 ^ 32
  tf_lt : p.tf < 2 ^ 32
  score_lt : p.score < 2 ^ 32

/-- The pending posting of `st` is the next one for a decoder in state `c`. -/
structure PutState.Pending (c : DocInfo) (st : PutState) : Prop where
  score_flag : c.flags.score = st.lid.flags.score
  gap_flag : c.flags.gap = st.lid.flags.gap
  ok : st.lid.toPosting.Ok
  rid : c.rid + st.dgap_ = st.lid.rid
  sid : (if st.dgap_ ≠ 0 then 0 else c.sid) + st.sgap_ = st.lid.sid
  sgap_pos : 0 < st.sgap_

/-- The encoder has put the postings `ps`: all but the last are in `tc`, and the
last one is pending. -/
inductive PutState.Encodes : PutState → List Posting → Prop
  | empty {st : PutState} (lid : st.lid = .zero) (sgap : st.sgap_ = 0) (tc : st.tc = []) :
      Encodes st []
  | pending {st : PutState} {ps : List Posting} {c : DocInfo}
      (written : Decodes .zero st.tc ps c) (pending : st.Pending c) :
      Encodes st (ps ++ [st.lid.toPosting])

theorem PutState.Encodes.init : PutState.init.Encodes [] := .empty rfl rfl rfl

/-- What `scoreMark` chooses is justified by the markers it writes. -/
theorem scoreMark_spec (f : DocFlags) (score next : Nat) :
    (scoreMark f score next).2 =
        (if (scoreMark f score next).1.once then [0x8c] else [])
          ++ (if f.score ≠ (scoreMark f score next).1.score then [0x8d] else []) ∧
      (scoreMark f score next).1.gap = f.gap ∧
      ((scoreMark f score next).1.once = false →
        (scoreMark f score next).1.score = false → score = 0) := by
  obtain ⟨once, s, gap⟩ := f
  unfold scoreMark
  by_cases h₁ : score = 0 <;> by_cases h₂ : next = 0 <;> cases s <;> simp [h₁, h₂]

/-- What `gapMark` chooses is justified by the markers it writes. -/
theorem gapMark_spec (f : DocFlags) (sgap next : Nat) :
    (gapMark f sgap next).2 = (if f.gap ≠ (gapMark f sgap next).1.gap then [0x8e] else []) ∧
      (gapMark f sgap next).1.once = f.once ∧ (gapMark f sgap next).1.score = f.score ∧
      ((gapMark f sgap next).1.gap = false → sgap = 0) := by
  obtain ⟨once, s, gap⟩ := f
  unfold gapMark
  by_cases h₁ : sgap = 0 <;> by_cases h₂ : next = 1 <;> cases gap <;> simp [h₁, h₂]

/-- What `lastMark` chooses is justified by the markers it writes; it uses no `0x8c`. -/
theorem lastMark_spec (f : DocFlags) (score sgap : Nat) :
    (lastMark f score sgap).2 =
        (if f.score ≠ (lastMark f score sgap).1.score then [0x8d] else [])
          ++ (if f.gap ≠ (lastMark f score sgap).1.gap then [0x8e] else []) ∧
      ((lastMark f score sgap).1.gap = false → sgap = 0) ∧
      ((lastMark f score sgap).1.score = false → score = 0) := by
  obtain ⟨once, s, gap⟩ := f
  unfold lastMark
  by_cases h₁ : score = 0 <;> by_cases h₂ : sgap = 0 <;> cases s <;> cases gap <;> simp [h₁, h₂]

/-- Writing the pending posting with justified markers extends what is decoded by it. -/
theorem PutState.Pending.decodes {c : DocInfo} {st : PutState} (h : st.Pending c)
    {g : DocFlags} {m : List UInt8} (hm : Marks st.lid.flags g m)
    (hgap : g.gap = false → st.sgap_ - 1 = 0)
    (hscore : g.once = false → g.score = false → st.lid.score = 0) :
    Decodes c (m ++ putPosting g st.dgap_ st.lid.tf (st.sgap_ - 1) st.lid.score)
      [st.lid.toPosting] ⟨st.lid.toPosting, g⟩ := by
  have hm' : Marks c.flags g m := ⟨by rw [h.score_flag, h.gap_flag]; exact hm.bytes⟩
  have hrid := h.rid
  have hsid := h.sid
  have hpos := h.sgap_pos
  have ok := h.ok
  have hd : st.dgap_ < 2 ^ 32 := by have := ok.rid_lt; omega
  have hs : st.sgap_ - 1 < 2 ^ 32 := by have := ok.sid_lt; omega
  refine Decodes.single ⟨st.lid.toPosting, g⟩ fun q => ?_
  rw [decPosting_putPosting hm' hd ok.tf_pos ok.tf_lt hs ok.score_lt hgap hscore q]
  have hr : (c.rid + st.dgap_) % 2 ^ 32 = st.lid.rid := by
    rw [hrid]; exact Nat.mod_eq_of_lt ok.rid_lt
  have hsd : ((if st.dgap_ ≠ 0 then 0 else c.sid) + (st.sgap_ - 1 + 1)) % 2 ^ 32 =
      st.lid.sid := by
    rw [Nat.sub_add_cancel hpos, hsid]; exact Nat.mod_eq_of_lt ok.sid_lt
  rw [hr, hsd]

/-- **Interior rule.** Once the next posting is known, the pending one is written
and decodes to itself. -/
theorem PutState.Pending.flushPending {c : DocInfo} {st : PutState} (h : st.Pending c)
    (score sgap : Nat) :
    ∃ w, (st.flushPending score sgap).tc = st.tc ++ w ∧
      Decodes c w [st.lid.toPosting]
        ⟨st.lid.toPosting, (st.flushPending score sgap).lid.flags⟩ := by
  have hne : st.sgap_ ≠ 0 := Nat.pos_iff_ne_zero.mp h.sgap_pos
  simp only [PutState.flushPending, if_pos hne]
  obtain ⟨hs₁, hs₂, hs₃⟩ := scoreMark_spec st.lid.flags st.lid.score score
  generalize scoreMark st.lid.flags st.lid.score score = sm at *
  obtain ⟨hg₁, hg₂, hg₃, hg₄⟩ := gapMark_spec sm.1 (st.sgap_ - 1) sgap
  generalize gapMark sm.1 (st.sgap_ - 1) sgap = gm at *
  refine ⟨(sm.2 ++ gm.2) ++ putPosting gm.1 st.dgap_ st.lid.tf (st.sgap_ - 1) st.lid.score,
    by simp only [List.append_assoc], h.decodes ⟨?_⟩ hg₄ ?_⟩
  · rw [hg₁, hs₁, hs₂, hg₂, hg₃]
  · rw [hg₂, hg₃]
    exact hs₃

/-- **Last rule.** The final write decodes to the pending posting as well. -/
theorem PutState.Encodes.putLast {st : PutState} {ps : List Posting} (h : st.Encodes ps) :
    ∃ c, Decodes .zero st.putLast.tc ps c := by
  cases h with
  | empty hlid hsgap htc =>
      exact ⟨.zero, by simpa [PutState.putLast, hsgap, htc] using Decodes.nil _⟩
  | @pending ps c written pending =>
      have hne : st.sgap_ ≠ 0 := Nat.pos_iff_ne_zero.mp pending.sgap_pos
      obtain ⟨hm, hgap, hscore⟩ := lastMark_spec st.lid.flags st.lid.score (st.sgap_ - 1)
      simp only [PutState.putLast, if_pos hne]
      generalize lastMark st.lid.flags st.lid.score (st.sgap_ - 1) = lm at *
      -- bit 1 may still be set from the posting before; the last write ignores it
      have hdec := pending.decodes (g := ⟨false, lm.1.score, lm.1.gap⟩) (m := lm.2)
        ⟨by simpa using hm⟩ hgap (fun _ => hscore)
      exact ⟨⟨st.lid.toPosting, false, lm.1.score, lm.1.gap⟩,
        by simpa [putPosting] using written.append hdec⟩

/-- **One `PUTNEXT_`.** Putting a later posting whose positions can be copied
succeeds, and the encoder then holds one posting more. -/
theorem PutState.Encodes.putNext_ {st : PutState} {ps : List Posting} (h : st.Encodes ps)
    {p : Posting} (hp : p.Ok) (hlt : st.lid.toPosting.id < p.id)
    {pp codes rest : List UInt8} (hcopy : copyPositions p.tf pp = some (codes, rest)) :
    ∃ st', st.putNext_ p pp = some (st', rest) ∧ st'.Encodes (ps ++ [p]) ∧
      st'.lid.toPosting = p ∧ st'.tp = st.tp ++ codes ∧ st'.ndf = st.ndf + 1 := by
  set dgap := u32Sub p.rid st.lid.rid with hdgap
  set sgap := if dgap ≠ 0 then p.sid else u32Sub p.sid st.lid.sid with hsgap
  have hput : st.putNext_ p pp = some ({ st.flushPending p.score sgap with
      lid := ⟨p, (st.flushPending p.score sgap).lid.flags⟩
      dgap_ := dgap
      sgap_ := sgap
      tp := (st.flushPending p.score sgap).tp ++ codes
      ndf := (st.flushPending p.score sgap).ndf + 1 }, rest) := by
    simp only [PutState.putNext_, ← hdgap, ← hsgap, hcopy, Option.bind_eq_bind, Option.bind_some]
  have htp : (st.flushPending p.score sgap).tp = st.tp := by
    simp only [PutState.flushPending]
    split_ifs <;> rfl
  have hndf : (st.flushPending p.score sgap).ndf = st.ndf := by
    simp only [PutState.flushPending]
    split_ifs <;> rfl
  refine ⟨_, hput, ?_, rfl, by simp [htp], by simp [hndf]⟩
  -- the gaps of `p` against the pending posting, as numbers
  have hgaps : ∀ c : DocInfo, c.toPosting = st.lid.toPosting → c.rid + dgap = p.rid ∧
      (if dgap ≠ 0 then 0 else c.sid) + sgap = p.sid ∧ 0 < sgap := by
    intro c hc
    rw [show c.rid = st.lid.rid from congrArg Posting.rid hc,
      show c.sid = st.lid.sid from congrArg Posting.sid hc]
    rw [DocId.lt_def] at hlt
    simp only [Posting.id] at hlt
    have hle : st.lid.rid ≤ p.rid := by omega
    have hdg : dgap = p.rid - st.lid.rid := u32Sub_of_le hle hp.rid_lt
    have hsid := hp.sid_pos
    by_cases h0 : dgap = 0
    · have hsle : st.lid.sid ≤ p.sid := by omega
      have hsg : sgap = p.sid - st.lid.sid := by
        rw [hsgap, if_neg (not_not.mpr h0), u32Sub_of_le hsle hp.sid_lt]
      simp only [h0, ne_eq, not_true_eq_false, if_false]
      omega
    · have hsg : sgap = p.sid := by rw [hsgap, if_pos h0]
      simp only [ne_eq, h0, not_false_eq_true, if_true]
      omega
  cases h with
  | empty hlid hsg0 htc =>
      have hfl : st.flushPending p.score sgap = st := by simp [PutState.flushPending, hsg0]
      obtain ⟨h₁, h₂, h₃⟩ := hgaps .zero (by rw [hlid])
      have hdec : Decodes .zero (st.flushPending p.score sgap).tc [] .zero := by
        rw [hfl, htc]; exact .nil _
      exact .pending hdec ⟨by rw [hfl, hlid], by rw [hfl, hlid], hp, h₁, h₂, h₃⟩
  | @pending ps c written pending =>
      obtain ⟨w, hw, hdec⟩ := pending.flushPending p.score sgap
      obtain ⟨h₁, h₂, h₃⟩ :=
        hgaps ⟨st.lid.toPosting, (st.flushPending p.score sgap).lid.flags⟩ rfl
      refine .pending (c := ⟨st.lid.toPosting, (st.flushPending p.score sgap).lid.flags⟩) ?_
        ⟨rfl, rfl, hp, h₁, h₂, h₃⟩
      rw [hw]
      exact written.append hdec

end Senna.Inv
