/-
# Exact search

The main loop of `sen_index_select` walks the documents of the first token. It skips
the other tokens to the same document and, when all of them are there, lets the
tokens chase each other around: each one is moved to the first position from `pos` on,
and `pos` follows whoever is ahead, until all of them agree on it. When a token leaves
the document, the document that token has moved to is where the first token goes next.

The loop is modelled for the modes other than near search. Scores are computed
exactly; `res_add` takes them modulo `2 ^ 32`, which is all the source computes.
-/

import Senna.Index.Token

namespace Senna.Index

open Senna.Inv Senna.Lib

universe u

variable {ρ : Type u}

/-- `posinfo`. -/
structure PosInfo where
  rid : Nat
  sid : Nat
  pos : Nat
  deriving DecidableEq, Repr

/-- The two things the loop does with a records object: `sen_set_at` and `res_add`. -/
structure Records (ρ : Type u) where
  has : ρ → PosInfo → Bool
  add : ρ → PosInfo → Nat → ρ

/-- What the loop reads of its arguments: `rep`, `orp` and `get_weight`. -/
structure SelectArg where
  rep : Bool
  orp : Bool
  weight : Nat → Nat → Int

/-- The conversion to `uint32_t`. -/
def toU32 (n : Int) : Nat := (n % 2 ^ 32).toNat

/-- The variables of the chase. The token at `tip` is the first of `after`. -/
structure Chase (ρ : Type u) where
  before : List TokenInfo
  after : List TokenInfo
  pos : Int
  count : Nat
  score : Nat
  noccur : Nat
  tscore : Nat
  records : ρ

namespace Chase

/-- `if (tip == tie) { tip = tis; }` -/
def turn (s : Chase ρ) : Chase ρ :=
  match s.after with
  | [] => { s with before := [], after := s.before }
  | _ :: _ => s

/-- The comparison of `ti->pos` with `pos`. -/
def meet (s : Chase ρ) (ti : TokenInfo) : Chase ρ :=
  if ti.pos = s.pos then { s with score := s.score + ti.p.hit.score, count := s.count + 1 }
  else { s with score := ti.p.hit.score, count := 1, pos := ti.pos }

/-- What happens once all `n` tokens agree. -/
def report (R : Records ρ) (rep : Bool) (w : Int) (d : DocId) (n : Nat) (s : Chase ρ) : Chase ρ :=
  if s.count = n then
    { s with
      records := if rep then R.add s.records ⟨d.rid, d.sid, toU32 s.pos⟩ (toU32 ((s.score + 1) * w))
        else s.records
      tscore := s.tscore + s.score
      score := 0
      count := 0
      pos := s.pos + 1
      noccur := s.noccur + 1 }
  else s

/-- The loop of the chase in document `d`. It ends with a token leaving the document: for
the document returned, or for good. -/
def run (R : Records ρ) (rep : Bool) (w : Int) (d : DocId) (n : Nat) :
    Nat → Chase ρ → Option (Chase ρ × Option DocId)
  | 0, _ => none
  | k + 1, s =>
      let s := s.turn
      match s.after with
      | [] => none
      | ti :: after =>
          (ti.skipPos k d.rid d.sid (toU32 s.pos)).bind fun (rc, ti) =>
            let s := { s with before := s.before ++ [ti], after := after }
            if rc ≠ .success then some (s, none)
            else if ti.p.hit.rid ≠ d.rid ∨ ti.p.hit.sid ≠ d.sid then some (s, some ti.doc)
            else run R rep w d n k ((s.meet ti).report R rep w d n)

end Chase

/-- How skipping the other tokens to the document of the first one ends. -/
inductive Others
  | exhausted
  | ahead (d : DocId)
  | level
  deriving DecidableEq, Repr

/-- The loop `for (tip = tis + 1; tip < tie; tip++)`. -/
def skipOthers (k : Nat) (d : DocId) : List TokenInfo → Option (List TokenInfo × Others)
  | [] => some ([], .level)
  | ti :: ts =>
      (ti.skip k d.rid d.sid).bind fun (rc, ti) =>
        if rc ≠ .success then some (ti :: ts, .exhausted)
        else if ti.p.hit.rid ≠ d.rid ∨ ti.p.hit.sid ≠ d.sid then some (ti :: ts, .ahead ti.doc)
        else (skipOthers k d ts).map fun (ts, o) => (ti :: ts, o)

/-- The document a chase goes on with: where a token has moved to, or the next section. -/
def nextDoc (d : DocId) (left : Option DocId) : DocId :=
  left.getD ⟨d.rid, (d.sid + 1) % 2 ^ 32⟩

/-- What the loop does with a document that all tokens are in. -/
def selectDoc (R : Records ρ) (arg : SelectArg) (d : DocId) (k : Nat) (tis : List TokenInfo)
    (r : ρ) : Option (List TokenInfo × ρ × DocId) :=
  let w := arg.weight d.rid d.sid
  if w ≠ 0 ∧ (arg.orp ∨ R.has r ⟨d.rid, d.sid, 0⟩) then
    match tis, arg.rep with
    | [ti], false =>
        let noccur := ti.p.hit.tf
        let r := if noccur ≠ 0 then
          R.add r ⟨d.rid, d.sid, 0⟩ (toU32 ((noccur + ti.p.hit.score) * w)) else r
        some ([ti], r, nextDoc d none)
    | _, _ =>
        (Chase.run R arg.rep w d tis.length k ⟨[], tis, 0, 0, 0, 0, 0, r⟩).map fun (s, left) =>
          let r := if s.noccur ≠ 0 ∧ !arg.rep then
            R.add s.records ⟨d.rid, d.sid, 0⟩ (toU32 ((s.noccur + s.tscore) * w)) else s.records
          (s.before ++ s.after, r, nextDoc d left)
  else some (tis, r, nextDoc d none)

/-- The main loop of `sen_index_select`, from its head to `exit`. -/
def selectLoop (R : Records ρ) (arg : SelectArg) : Nat → List TokenInfo → ρ → Option ρ
  | 0, _, _ => none
  | _ + 1, [], _ => none
  | k + 1, t :: ts, r =>
      let d := t.doc
      (skipOthers k d ts).bind fun (ts, o) =>
        match o with
        | .exhausted => some r
        | .ahead nd =>
            (t.skip k nd.rid nd.sid).bind fun (rc, t) =>
              if rc ≠ .success then some r else selectLoop R arg k (t :: ts) r
        | .level =>
            (selectDoc R arg d k (t :: ts) r).bind fun (tis, r, nd) =>
              match tis with
              | [] => none
              | t :: ts =>
                  (t.skip k nd.rid nd.sid).bind fun (rc, t) =>
                    if rc ≠ .success then some r else selectLoop R arg k (t :: ts) r

end Senna.Index
