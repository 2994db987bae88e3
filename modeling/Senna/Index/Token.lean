/-
# Query tokens

A token of a query reads the postings of one or more terms through a heap of
cursors. `token_info_skip` moves it to the first posting that is not before a given
document, `token_info_skip_pos` to the first position of a document that is not
before a given one. A cursor is modelled by the hits it still has to yield, which is
what `sen_inv_cursor_next` and `sen_inv_cursor_next_pos` show of it.

The second half says where a token with a single cursor stands after a skip.
-/

import Senna.Base
import Senna.Inv.Record
import Senna.Lib.Fuel

namespace Senna.Index

open Senna.Inv Senna.Lib

/-- An open cursor: `post` with the position read last, the positions of the same
posting not read yet, and the postings after it. -/
structure PostCursor where
  hit : Hit
  pos : Nat
  unread : List Nat
  later : List Hit
  deriving DecidableEq, Repr

namespace PostCursor

/-- `sen_inv_cursor_next`, `none` when it reports the end. -/
def next (c : PostCursor) : Option PostCursor :=
  match c.later with
  | [] => none
  | h :: hs => some ⟨h, 0, h.pos, hs⟩

/-- `sen_inv_cursor_next_pos`, `none` when the posting has no more position. -/
def nextPos (c : PostCursor) : Option PostCursor :=
  match c.unread with
  | [] => none
  | p :: ps => some { c with pos := p, unread := ps }

/-- `SEN_INV_CURSOR_CMP(c1,c2)`. -/
def cmp (c₁ c₂ : PostCursor) : Bool :=
  c₁.hit.rid > c₂.hit.rid ∨ (c₁.hit.rid = c₂.hit.rid ∧
    (c₁.hit.sid > c₂.hit.sid ∨ (c₁.hit.sid = c₂.hit.sid ∧ c₁.pos > c₂.pos)))

end PostCursor

/-- `cursor_heap`: the first `n_entries` bins. -/
abbrev CursorHeap := List PostCursor

namespace CursorHeap

/-- `cursor_heap_min`. -/
def min (h : CursorHeap) : Option PostCursor := h.head?

/-- The loop of `cursor_heap_recalc_min`: sink `c` from bin `n`. -/
def sink (c : PostCursor) : Nat → CursorHeap → Nat → CursorHeap
  | 0, bins, n => bins.set n c
  | k + 1, bins, n =>
      let n₁ := n * 2 + 1
      let n₂ := n₁ + 1
      match bins[n₁]?, bins[n₂]? with
      | some c₁, some c₂ =>
          if c.cmp c₁ then
            if c.cmp c₂ && c₁.cmp c₂ then sink c k (bins.set n c₂) n₂
            else sink c k (bins.set n c₁) n₁
          else if c.cmp c₂ then sink c k (bins.set n c₂) n₂
          else bins.set n c
      | some c₁, none => if c.cmp c₁ then sink c k (bins.set n c₁) n₁ else bins.set n c
      | none, _ => bins.set n c

/-- `cursor_heap_recalc_min`. -/
def recalcMin (h : CursorHeap) : CursorHeap :=
  match h with
  | c :: _ :: _ => sink c h.length h 0
  | _ => h

/-- `h->bins[0] = h->bins[--h->n_entries];` -/
def dropMin (h : CursorHeap) : CursorHeap :=
  match h with
  | [] => []
  | [_] => []
  | _ :: cs => cs.getLastD ⟨⟨0, 0, 0, []⟩, 0, [], []⟩ :: cs.dropLast

/-- `sen_inv_cursor_next(c)` followed by `sen_inv_cursor_next_pos(c)`. -/
def nextAndPos (c : PostCursor) : Option PostCursor := c.next.bind PostCursor.nextPos

/-- `cursor_heap_pop`. -/
def pop (h : CursorHeap) : CursorHeap :=
  match h with
  | [] => []
  | c :: cs =>
      match nextAndPos c with
      | some c => recalcMin (c :: cs)
      | none => recalcMin (dropMin (c :: cs))

/-- `cursor_heap_pop_pos`. -/
def popPos (h : CursorHeap) : CursorHeap :=
  match h with
  | [] => []
  | c :: cs =>
      match c.nextPos with
      | some c => recalcMin (c :: cs)
      | none =>
          match nextAndPos c with
          | some c => recalcMin (c :: cs)
          | none => recalcMin (dropMin (c :: cs))

end CursorHeap

/-- `token_info`. `size` and `ntoken` only serve to sort the tokens. `p` is the posting
`*ti->p` as it was when the token was last moved. -/
structure TokenInfo where
  cursors : CursorHeap
  offset : Nat
  pos : Int
  p : PostCursor
  deriving DecidableEq, Repr

namespace TokenInfo

/-- The posting a token stands at. -/
def doc (ti : TokenInfo) : DocId := ti.p.hit.id

/-- `ti->pos = p->pos - ti->offset; ti->p = p;` -/
def settle (ti : TokenInfo) (c : PostCursor) : TokenInfo :=
  { ti with pos := c.pos - ti.offset, p := c }

/-- `token_info_skip`; the count bounds the pops. -/
def skip : Nat → TokenInfo → Nat → Nat → Option (SenRc × TokenInfo)
  | 0, _, _, _ => none
  | k + 1, ti, rid, sid =>
      match ti.cursors.min with
      | none => some (.internalError, ti)
      | some c =>
          if c.hit.rid > rid ∨ (c.hit.rid = rid ∧ c.hit.sid ≥ sid) then
            some (.success, ti.settle c)
          else skip k { ti with cursors := ti.cursors.pop } rid sid

/-- The loop of `token_info_skip_pos`, after `pos += ti->offset`. -/
def skipPosLoop : Nat → TokenInfo → Nat → Nat → Nat → Option (SenRc × TokenInfo)
  | 0, _, _, _, _ => none
  | k + 1, ti, rid, sid, pos =>
      match ti.cursors.min with
      | none => some (.internalError, ti)
      | some c =>
          if c.hit.rid ≠ rid ∨ c.hit.sid ≠ sid ∨ c.pos ≥ pos then
            some (.success, ti.settle c)
          else skipPosLoop k { ti with cursors := ti.cursors.popPos } rid sid pos

/-- `token_info_skip_pos(ti, rid, sid, pos)`. -/
def skipPos (k : Nat) (ti : TokenInfo) (rid sid pos : Nat) : Option (SenRc × TokenInfo) :=
  skipPosLoop k ti rid sid ((pos + ti.offset) % 2 ^ 32)

end TokenInfo

/-- A token of a query as its index sees it: the hits of its term, and its offset. -/
structure TokenStream where
  hits : List Hit
  offset : Nat
  deriving DecidableEq, Repr

/-- The positions of a hit increase strictly and are `int` values, as `sen_inv_updspec_add`
takes them. -/
structure PosOk (h : Hit) : Prop where
  ne_nil : h.pos ≠ []
  sorted : h.pos.Pairwise (· < ·)
  lt : ∀ p ∈ h.pos, p < 2 ^ 31
  rid_lt : h.rid < 2 ^ 32
  sid_lt : h.sid < 2 ^ 32

/-- A nonempty stream of postings, sorted by document, and an `int` offset. -/
structure TokenStream.Ok (t : TokenStream) : Prop where
  ne_nil : t.hits ≠ []
  sorted : Sorted t.hits
  pos : ∀ h ∈ t.hits, PosOk h
  offset_lt : t.offset < 2 ^ 31

namespace TokenInfo

/-- The token stands at the position `a` of the hit `h`, with the positions `as` and the
hits `hs` still to come. -/
structure At (ti : TokenInfo) (off : Nat) (h : Hit) (a : Nat) (as : List Nat) (hs : List Hit) :
    Prop where
  cursors : ti.cursors = [⟨h, a, as, hs⟩]
  offset : ti.offset = off
  pos : ti.pos = a - off
  p : ti.p = ⟨h, a, as, hs⟩

variable {ti : TokenInfo} {off : Nat} {h : Hit} {a : Nat} {as : List Nat} {hs : List Hit}

theorem At.doc (hat : ti.At off h a as hs) : ti.doc = h.id := by
  rw [TokenInfo.doc, hat.p]

/-- The heap of a token whose cursor has just been moved to the first of the hits. -/
def load : List Hit → CursorHeap
  | [] => []
  | h :: hs =>
      match h.pos with
      | [] => []
      | a :: as => [⟨h, a, as, hs⟩]

@[simp]
theorem load_nil : load [] = [] := rfl

theorem load_cons (hpos : h.pos = a :: as) : load (h :: hs) = [⟨h, a, as, hs⟩] := by
  simp [load, hpos]

/-- Every way to leave a posting loads the hits behind it. -/
theorem pop_single (c : PostCursor) : CursorHeap.pop [c] = load c.later := by
  rcases hl : c.later with _ | ⟨h, hs⟩
  · simp [CursorHeap.pop, CursorHeap.nextAndPos, PostCursor.next, hl, CursorHeap.dropMin,
      CursorHeap.recalcMin]
  · rcases hp : h.pos with _ | ⟨a, as⟩ <;>
      simp [CursorHeap.pop, CursorHeap.nextAndPos, PostCursor.next, PostCursor.nextPos, hl, hp,
        CursorHeap.dropMin, CursorHeap.recalcMin, load]

theorem popPos_single (c : PostCursor) :
    CursorHeap.popPos [c] = match c.unread with
      | [] => load c.later
      | p :: ps => [{ c with pos := p, unread := ps }] := by
  rcases hu : c.unread with _ | ⟨p, ps⟩
  · rw [← pop_single]
    simp [CursorHeap.popPos, CursorHeap.pop, PostCursor.nextPos, hu]
  · simp [CursorHeap.popPos, PostCursor.nextPos, hu, CursorHeap.recalcMin]

/-- The token stands at the first position of the first of the hits, if there is any. -/
structure Fresh (ti : TokenInfo) (off : Nat) (hs : List Hit) : Prop where
  cursors : ti.cursors = load hs
  offset : ti.offset = off
  settled : ∀ c, ti.cursors = [c] → ti.pos = c.pos - off ∧ ti.p = c

theorem Fresh.at (hf : ti.Fresh off (h :: hs)) (first : h.pos = a :: as) :
    ti.At off h a as hs := by
  have hc : ti.cursors = [⟨h, a, as, hs⟩] := by rw [hf.cursors, load_cons first]
  obtain ⟨hpos, hp⟩ := hf.settled _ hc
  exact ⟨hc, hf.offset, hpos, hp⟩

theorem Fresh.exists_at (hf : ti.Fresh off (h :: hs)) (hpos : h.pos ≠ []) :
    ∃ a as, h.pos = a :: as ∧ ti.At off h a as hs := by
  obtain ⟨a, as, first⟩ := List.exists_cons_of_ne_nil hpos
  exact ⟨a, as, first, hf.at first⟩

theorem At.fresh (hat : ti.At off h a as hs) (first : h.pos = a :: as) :
    ti.Fresh off (h :: hs) := by
  refine ⟨by rw [hat.cursors, load_cons first], hat.offset, fun c hc => ?_⟩
  rw [hat.cursors, List.singleton_inj] at hc
  subst hc
  exact ⟨hat.pos, hat.p⟩

theorem at_settle (hc : ti.cursors = [⟨h, a, as, hs⟩]) (hoff : ti.offset = off) :
    (ti.settle ⟨h, a, as, hs⟩).At off h a as hs :=
  ⟨hc, hoff, by simp [settle, hoff], rfl⟩

/-- The hits from the document `d` on. -/
def fromDoc (d : DocId) (hs : List Hit) : List Hit := hs.dropWhile fun h => h.id < d

theorem not_stop_iff {d : DocId} :
    ¬ (h.rid > d.rid ∨ (h.rid = d.rid ∧ h.sid ≥ d.sid)) ↔ h.id < d := by
  rw [DocId.lt_def]
  simp only [Hit.id]
  omega

/-- Skipping a token that has just been loaded. -/
theorem skip_load {d : DocId} (hc : ti.cursors = load hs) (hoff : ti.offset = off)
    (hpos : ∀ h ∈ hs, h.pos ≠ []) :
    ∃ rc ti', Settles (fun k => skip k ti d.rid d.sid) (rc, ti') ∧ ti'.Fresh off (fromDoc d hs) ∧
      (rc = .success ↔ fromDoc d hs ≠ []) := by
  induction hs generalizing ti with
  | nil =>
      refine ⟨.internalError, ti, .succ (fun k => ?_) (.pure _), ⟨hc, hoff, ?_⟩, by simp [fromDoc]⟩
      · simp [skip, hc, CursorHeap.min]
      · simp [hc]
  | cons h hs ih =>
      rw [List.forall_mem_cons] at hpos
      obtain ⟨a, as, first⟩ := List.exists_cons_of_ne_nil hpos.1
      rw [load_cons first] at hc
      by_cases hlt : h.id < d
      · have hpop : ({ ti with cursors := ti.cursors.pop } : TokenInfo).cursors = load hs := by
          rw [hc, pop_single]
        obtain ⟨rc, ti', hrun, hfresh, hrc⟩ := ih hpop hoff hpos.2
        have hdrop : fromDoc d (h :: hs) = fromDoc d hs := by simp [fromDoc, hlt]
        rw [hdrop]
        refine ⟨rc, ti', .succ (fun k => ?_) hrun, hfresh, hrc⟩
        simp only [skip, hc, CursorHeap.min, List.head?_cons, not_stop_iff.mpr hlt, if_false]
      · have hdrop : fromDoc d (h :: hs) = h :: hs := by simp [fromDoc, hlt]
        have hstop := not_not.mp (mt not_stop_iff.mp hlt)
        rw [hdrop]
        refine ⟨.success, _, .succ (fun k => ?_) (.pure _), (at_settle hc hoff).fresh first,
          by simp⟩
        simp [skip, hc, CursorHeap.min, hstop]

/-- Skipping a token that is not before the document leaves it where it is. -/
theorem At.skip_of_le {d : DocId} (hat : ti.At off h a as hs) (hle : ¬ h.id < d) :
    ∃ ti', Settles (fun k => skip k ti d.rid d.sid) (.success, ti') ∧ ti'.At off h a as hs := by
  have hstop := not_not.mp (mt not_stop_iff.mp hle)
  refine ⟨_, .succ (fun k => ?_) (.pure _), at_settle hat.cursors hat.offset⟩
  simp [skip, hat.cursors, CursorHeap.min, hstop]

/-- Skipping a token that is before the document moves it on among its later hits. -/
theorem At.skip_of_lt {d : DocId} (hat : ti.At off h a as hs) (hlt : h.id < d)
    (hpos : ∀ h ∈ hs, h.pos ≠ []) :
    ∃ rc ti', Settles (fun k => skip k ti d.rid d.sid) (rc, ti') ∧ ti'.Fresh off (fromDoc d hs) ∧
      (rc = .success ↔ fromDoc d hs ≠ []) := by
  have hpop : ({ ti with cursors := ti.cursors.pop } : TokenInfo).cursors = load hs := by
    rw [hat.cursors, pop_single]
  obtain ⟨rc, ti', hrun, hfresh⟩ := skip_load (d := d) hpop hat.offset hpos
  refine ⟨rc, ti', .succ (fun k => ?_) hrun, hfresh⟩
  simp only [skip, hat.cursors, CursorHeap.min, List.head?_cons, not_stop_iff.mpr hlt, if_false]

/-- The loop of `token_info_skip_pos` stops when the token has left the document. -/
theorem skipPosLoop_load {d : DocId} (hc : ti.cursors = load hs) (hoff : ti.offset = off)
    (hpos : ∀ h ∈ hs, h.pos ≠ []) (hd : ∀ h ∈ hs, d < h.id) (q : Nat) :
    ∃ rc ti', Settles (fun k => skipPosLoop k ti d.rid d.sid q) (rc, ti') ∧ ti'.Fresh off hs ∧
      (rc = .success ↔ hs ≠ []) := by
  cases hs with
  | nil =>
      refine ⟨.internalError, ti, .succ (fun k => ?_) (.pure _), ⟨hc, hoff, ?_⟩, by simp⟩
      · simp [skipPosLoop, hc, CursorHeap.min]
      · simp [hc]
  | cons h hs =>
      rw [List.forall_mem_cons] at hpos hd
      obtain ⟨a, as, first⟩ := List.exists_cons_of_ne_nil hpos.1
      rw [load_cons first] at hc
      have hne : h.rid ≠ d.rid ∨ h.sid ≠ d.sid ∨ a ≥ q := by
        have hlt := hd.1
        rw [DocId.lt_def] at hlt
        simp only [Hit.id] at hlt
        omega
      refine ⟨.success, _, .succ (fun k => ?_) (.pure _), (at_settle hc hoff).fresh first,
        by simp⟩
      simp [skipPosLoop, hc, CursorHeap.min, hne]

/-- **Skipping positions.** The token moves to the first position of the document that is
not before `q`, or on to its next posting when there is none. -/
theorem skipPosLoop_spec {d : DocId} (hc : ti.cursors = [⟨h, a, as, hs⟩]) (hoff : ti.offset = off)
    (hid : h.id = d) (hpos : ∀ h ∈ hs, h.pos ≠ []) (hd : ∀ h ∈ hs, d < h.id) (q : Nat) :
    (∃ a' as' ti', (a :: as).dropWhile (· < q) = a' :: as' ∧
      Settles (fun k => skipPosLoop k ti d.rid d.sid q) (.success, ti') ∧
      ti'.At off h a' as' hs) ∨
    ((a :: as).dropWhile (· < q) = [] ∧
      ∃ rc ti', Settles (fun k => skipPosLoop k ti d.rid d.sid q) (rc, ti') ∧ ti'.Fresh off hs ∧
        (rc = .success ↔ hs ≠ [])) := by
  have hrid : h.rid = d.rid := congrArg DocId.rid hid
  have hsid : h.sid = d.sid := congrArg DocId.sid hid
  induction as generalizing ti a with
  | nil =>
      by_cases hq : a < q
      · have hpop : ({ ti with cursors := ti.cursors.popPos } : TokenInfo).cursors = load hs := by
          rw [hc, popPos_single]
        obtain ⟨rc, ti', hrun, hfresh⟩ := skipPosLoop_load hpop hoff hpos hd q
        refine .inr ⟨by simp [hq], rc, ti', .succ (fun k => ?_) hrun, hfresh⟩
        simp [skipPosLoop, hc, CursorHeap.min, hrid, hsid, hq]
      · refine .inl ⟨a, [], _, by simp [hq], .succ (fun k => ?_) (.pure _), at_settle hc hoff⟩
        simp [skipPosLoop, hc, CursorHeap.min, not_lt.mp hq]
  | cons b bs ih =>
      by_cases hq : a < q
      · have hstep : ∀ k, skipPosLoop (k + 1) ti d.rid d.sid q =
            skipPosLoop k { ti with cursors := ti.cursors.popPos } d.rid d.sid q := by
          intro k
          simp [skipPosLoop, hc, CursorHeap.min, hrid, hsid, hq]
        have hdrop : (a :: b :: bs).dropWhile (· < q) = (b :: bs).dropWhile (· < q) := by
          simp [hq]
        rw [hdrop]
        have hpop : ({ ti with cursors := ti.cursors.popPos } : TokenInfo).cursors =
            [⟨h, b, bs, hs⟩] := by rw [hc, popPos_single]
        rcases ih hpop hoff with ⟨a', as', ti', hd', hrun, hat⟩ | ⟨hd', rc, ti', hrun, h'⟩
        · exact .inl ⟨a', as', ti', hd', .succ hstep hrun, hat⟩
        · exact .inr ⟨hd', rc, ti', .succ hstep hrun, h'⟩
      · refine .inl ⟨a, b :: bs, _, by simp [hq], .succ (fun k => ?_) (.pure _), at_settle hc hoff⟩
        simp [skipPosLoop, hc, CursorHeap.min, not_lt.mp hq]

end TokenInfo

/-- `token_info_open` and `cursor_heap_push` for one term: the cursor is moved to the first
position of its first posting. -/
def TokenStream.tokenInfoOpen (t : TokenStream) : Option TokenInfo :=
  match TokenInfo.load t.hits with
  | c :: cs => some ⟨c :: cs, t.offset, c.pos - t.offset, c⟩
  | [] => none

theorem TokenStream.Ok.tokenInfoOpen {t : TokenStream} (ht : t.Ok) :
    ∃ ti, t.tokenInfoOpen = some ti ∧ ti.Fresh t.offset t.hits := by
  obtain ⟨h, hs, hh⟩ := List.exists_cons_of_ne_nil ht.ne_nil
  obtain ⟨a, as, first⟩ := List.exists_cons_of_ne_nil (ht.pos h (by simp [hh])).ne_nil
  have hload : TokenInfo.load t.hits = [⟨h, a, as, hs⟩] := by rw [hh, TokenInfo.load_cons first]
  refine ⟨⟨[⟨h, a, as, hs⟩], t.offset, a - t.offset, ⟨h, a, as, hs⟩⟩,
      by simp [TokenStream.tokenInfoOpen, hload],
    hload.symm, rfl, fun c hc => ?_⟩
  rw [List.singleton_inj] at hc
  subst hc
  exact ⟨rfl, rfl⟩

end Senna.Index
