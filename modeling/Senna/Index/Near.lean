/-
# Near search

In the near modes the loop of `sen_index_select` looks, in a document that all tokens are in,
for positions of the tokens that lie within `max_interval` of each other. It keeps the tokens
in a search tree by their positions. The token that is furthest behind is moved on, behind the
foremost one when all of them are close enough, and else to where it could be close to it.

`exit(0)` for a tree whose first token is ahead of its last one is `none` here.
-/

import Senna.Index.MainLoop
import Senna.Lib.SearchTree

namespace Senna.Index

open Senna.Inv Senna.Lib

universe u

variable {ρ : Type u}

/-- The position of the token `i`. -/
def posAt (tis : List TokenInfo) (i : Nat) : Int := (tis[i]?.map (·.pos)).getD 0

/-- `btr`, with the numbers of the tokens in `tis` for the tokens. -/
abbrev Btr := SearchTree.Ends Nat

namespace Btr

/-- `bt_zap`. -/
def zap : Btr := SearchTree.Ends.empty

/-- `bt_push`. -/
def push (bt : Btr) (tis : List TokenInfo) (ti : Nat) : Btr :=
  SearchTree.Ends.push (posAt tis) ti bt

/-- `bt_pop`. -/
def pop (bt : Btr) (tis : List TokenInfo) : Btr :=
  SearchTree.Ends.reinsertMin (posAt tis) bt

end Btr

/-- How `SKIP_OR_BREAK` ends: with the token still in the document, or with a `break`, for the
document the token has moved to or because it has run out of postings. -/
inductive Skipped
  | stays
  | leaves (left : Option DocId)
  deriving DecidableEq, Repr

/-- What `SKIP_OR_BREAK` makes of a token that has been moved. -/
def skipped (d : DocId) (rc : SenRc) (ti : TokenInfo) : Skipped :=
  if rc ≠ .success then .leaves none
  else if ti.p.hit.rid ≠ d.rid ∨ ti.p.hit.sid ≠ d.sid then .leaves (some ti.doc)
  else .stays

/-- `SKIP_OR_BREAK(pos)` for the token `i`. -/
def skipOrBreak (k : Nat) (d : DocId) (pos : Int) (i : Nat) (tis : List TokenInfo) :
    Option (List TokenInfo × Skipped) :=
  tis[i]?.bind fun ti =>
    (ti.skipPos k d.rid d.sid (toU32 pos)).map fun r => (tis.set i r.2, skipped d r.1 r.2)

/-- The loop that fills the tree with the tokens `is`. -/
def pushAll (k : Nat) (d : DocId) :
    List Nat → List TokenInfo → Btr → Option (List TokenInfo × Btr × Skipped)
  | [], tis, bt => some (tis, bt, .stays)
  | i :: is, tis, bt =>
      (skipOrBreak k d 0 i tis).bind fun
        | (tis, .stays) => pushAll k d is tis (bt.push tis i)
        | (tis, .leaves left) => some (tis, bt, .leaves left)

/-- The variables of the loop that walks through the document. -/
structure Near (ρ : Type u) where
  tis : List TokenInfo
  bt : Btr
  noccur : Nat
  records : ρ

namespace Near

/-- `SKIP_OR_BREAK(pos); bt_pop(bt);` for the first token of the tree. -/
def advance (s : Near ρ) (k : Nat) (d : DocId) (i : Nat) (pos : Int) :
    Option (Near ρ × Skipped) :=
  (skipOrBreak k d pos i s.tis).map fun
    | (tis, .stays) => ({ s with tis := tis, bt := s.bt.pop tis }, .stays)
    | (tis, .leaves left) => ({ s with tis := tis }, .leaves left)

/-- What is done with positions that are close enough. -/
def report (R : Records ρ) (rep : Bool) (w : Int) (d : DocId) (min : Int) (s : Near ρ) : Near ρ :=
  { s with
    records := if rep then R.add s.records ⟨d.rid, d.sid, toU32 min⟩ (toU32 w) else s.records
    noccur := s.noccur + 1 }

/-- A round of the loop. -/
def round (R : Records ρ) (rep : Bool) (w : Int) (d : DocId) (maxInterval : Int) (k : Nat)
    (s : Near ρ) : Option (Near ρ × Skipped) :=
  match s.bt.min, s.bt.max with
  | some i, some j =>
      let min := posAt s.tis i
      let max := posAt s.tis j
      if min > max then none
      else if max - min ≤ maxInterval then
        let s := s.report R rep w d min
        if min = max + 1 then some (s, .leaves none) else s.advance k d i (max + 1)
      else if min = max - maxInterval then some (s, .leaves none)
      else s.advance k d i (max - maxInterval)
  | _, _ => none

/-- The loop. It ends with a token leaving the document. -/
def run (R : Records ρ) (rep : Bool) (w : Int) (d : DocId) (maxInterval : Int) :
    Nat → Near ρ → Option (Near ρ × Option DocId)
  | 0, _ => none
  | k + 1, s =>
      (s.round R rep w d maxInterval k).bind fun
        | (s, .stays) => run R rep w d maxInterval k s
        | (s, .leaves left) => some (s, left)

/-- The branch for `mode == sen_sel_near`. -/
def branch (R : Records ρ) (rep : Bool) (w : Int) (d : DocId) (maxInterval : Int) (k : Nat)
    (tis : List TokenInfo) (r : ρ) : Option (Near ρ × Option DocId) :=
  (pushAll k d (List.range tis.length) tis .zap).bind fun
    | (tis, bt, .stays) => run R rep w d maxInterval k ⟨tis, bt, 0, r⟩
    | (tis, bt, .leaves left) => some (⟨tis, bt, 0, r⟩, left)

end Near

/-- What the loop does in the near modes with a document that all tokens are in. -/
def nearDoc (R : Records ρ) (arg : SelectArg) (maxInterval : Int) (d : DocId) (k : Nat)
    (tis : List TokenInfo) (r : ρ) : Option (List TokenInfo × ρ × DocId) :=
  let w := arg.weight d.rid d.sid
  if w ≠ 0 ∧ (arg.orp ∨ R.has r ⟨d.rid, d.sid, 0⟩) then
    match tis, arg.rep with
    | [ti], false =>
        let noccur := ti.p.hit.tf
        let r := if noccur ≠ 0 then
          R.add r ⟨d.rid, d.sid, 0⟩ (toU32 ((noccur + ti.p.hit.score) * w)) else r
        some ([ti], r, nextDoc d none)
    | _, _ =>
        (Near.branch R arg.rep w d maxInterval k tis r).map fun (s, left) =>
          let r := if s.noccur ≠ 0 ∧ !arg.rep then
            R.add s.records ⟨d.rid, d.sid, 0⟩ (toU32 (s.noccur * w)) else s.records
          (s.tis, r, nextDoc d left)
  else some (tis, r, nextDoc d none)

/-- The main loop of `sen_index_select` in the near modes. -/
def selectNear (R : Records ρ) (arg : SelectArg) (maxInterval : Int) :
    Nat → List TokenInfo → ρ → Option ρ := mainLoop (nearDoc R arg maxInterval)

namespace Near

variable {R : Records ρ} {rep : Bool} {w : Int} {d : DocId} {maxInterval : Int}
  {tis tis' : List TokenInfo} {r : ρ} {s s' : Near ρ} {i k : Nat} {pos : Int}

/-- The states in which the loop begins a round. -/
inductive Heads (R : Records ρ) (rep : Bool) (w : Int) (d : DocId) (maxInterval : Int)
    (tis : List TokenInfo) (r : ρ) : Near ρ → Prop
  | enter {k : Nat} {tis' : List TokenInfo} {bt : Btr}
      (filled : pushAll k d (List.range tis.length) tis .zap = some (tis', bt, .stays)) :
      Heads R rep w d maxInterval tis r ⟨tis', bt, 0, r⟩
  | next {k : Nat} {s s' : Near ρ} (before : Heads R rep w d maxInterval tis r s)
      (round : s.round R rep w d maxInterval k = some (s', .stays)) :
      Heads R rep w d maxInterval tis r s'

theorem posAt_set_of_ne {i j : Nat} (ti : TokenInfo) (h : j ≠ i) :
    posAt (tis.set i ti) j = posAt tis j := by
  rw [posAt, posAt, List.getElem?_set_ne h.symm]

/-- `SKIP_OR_BREAK` moves its own token only. -/
theorem skipOrBreak_eq_some {sk : Skipped} (h : skipOrBreak k d pos i tis = some (tis', sk)) :
    ∃ ti, tis' = tis.set i ti := by
  unfold skipOrBreak at h
  obtain ⟨ti, -, h⟩ := Option.bind_eq_some_iff.mp h
  obtain ⟨⟨rc, ti'⟩, -, h⟩ := Option.map_eq_some_iff.mp h
  exact ⟨ti', (congrArg Prod.fst h).symm⟩

/-- The tree holds the tokens `done`, in the order of their positions. -/
structure Filled (done : List Nat) (tis : List TokenInfo) (bt : Btr) : Prop where
  ends : bt.Ok (posAt tis)
  members : (SearchTree.inorder bt.root).Perm done

theorem Filled.push {done : List Nat} {bt : Btr} (h : Filled done tis bt) {ti : TokenInfo}
    (hi : i ∉ done) : Filled (i :: done) (tis.set i ti) (bt.push (tis.set i ti) i) := by
  have hkeep : bt.Ok (posAt (tis.set i ti)) := by
    apply h.ends.congr
    intro j hj
    apply posAt_set_of_ne
    rintro rfl
    exact hi (h.members.mem_iff.mp hj)
  obtain ⟨hok, hperm⟩ := SearchTree.Ends.Ok.push hkeep i
  exact ⟨hok, hperm.trans (h.members.cons i)⟩

theorem pushAll_filled {is done : List Nat} {bt bt' : Btr} (h : Filled done tis bt)
    (hnodup : (is ++ done).Nodup) (hrun : pushAll k d is tis bt = some (tis', bt', .stays)) :
    Filled (is.reverse ++ done) tis' bt' ∧ tis'.length = tis.length := by
  induction is generalizing done tis bt with
  | nil =>
      obtain ⟨rfl, rfl⟩ : tis = tis' ∧ bt = bt' := by simpa [pushAll] using hrun
      exact ⟨h, rfl⟩
  | cons i is ih =>
      rw [pushAll] at hrun
      obtain ⟨⟨tis₁, sk⟩, hskip, hrest⟩ := Option.bind_eq_some_iff.mp hrun
      obtain ⟨ti, rfl⟩ := skipOrBreak_eq_some hskip
      have hi : i ∉ done := fun hmem =>
        (List.nodup_cons.mp hnodup).1 (List.mem_append_right _ hmem)
      cases sk with
      | leaves left => simp at hrest
      | stays =>
          have hnodup' : (is ++ i :: done).Nodup := List.nodup_middle.mpr hnodup
          obtain ⟨hfilled, hlen⟩ := ih (h.push hi) hnodup' hrest
          refine ⟨?_, by rw [hlen, List.length_set]⟩
          simpa using hfilled

/-- A round reinserts the first token of the tree. -/
theorem round_eq_some (h : s.round R rep w d maxInterval k = some (s', .stays)) :
    ∃ i ti, s.bt.min = some i ∧ s'.tis = s.tis.set i ti ∧ s'.bt = s.bt.pop s'.tis := by
  have hadvance : ∀ {s₀ : Near ρ} {i : Nat} {pos : Int},
      s₀.advance k d i pos = some (s', .stays) → s₀.tis = s.tis → s₀.bt = s.bt →
        ∃ ti, s'.tis = s.tis.set i ti ∧ s'.bt = s.bt.pop s'.tis := by
    intro s₀ i pos hrun htis hbt
    obtain ⟨⟨tis₁, sk⟩, hskip, heq⟩ := Option.map_eq_some_iff.mp hrun
    obtain ⟨ti, rfl⟩ := skipOrBreak_eq_some hskip
    cases sk with
    | leaves left => simp at heq
    | stays =>
        obtain rfl : _ = s' := congrArg Prod.fst heq
        exact ⟨ti, by rw [htis], by rw [hbt]⟩
  unfold round at h
  split at h
  · next i j hmin hmax =>
      dsimp only at h
      split_ifs at h
      · simp at h
      · obtain ⟨ti, h₁, h₂⟩ := hadvance h rfl rfl
        exact ⟨i, ti, hmin, h₁, h₂⟩
      · simp at h
      · obtain ⟨ti, h₁, h₂⟩ := hadvance h rfl rfl
        exact ⟨i, ti, hmin, h₁, h₂⟩
  · exact absurd h nofun

theorem Filled.pop {done : List Nat} {bt : Btr} (h : Filled done tis bt) (hnodup : done.Nodup)
    (hmin : bt.min = some i) (ti : TokenInfo) :
    Filled done (tis.set i ti) (bt.pop (tis.set i ti)) := by
  rw [h.ends.min] at hmin
  obtain ⟨l, hl⟩ := List.head?_eq_some_iff.mp hmin
  have hi : i ∉ l := by
    have hmembers := h.members.nodup_iff.mpr hnodup
    rw [hl] at hmembers
    exact (List.nodup_cons.mp hmembers).1
  obtain ⟨hok, hperm⟩ :=
    SearchTree.Ends.Ok.reinsertMin (posAt (tis.set i ti)) h.ends hl fun j hj => by
      apply posAt_set_of_ne
      rintro rfl
      exact hi hj
  exact ⟨hok, hperm.trans h.members⟩

/-- Whatever the tokens do, the tree is a search tree of all of them when a round begins. -/
theorem Heads.filled (h : Heads R rep w d maxInterval tis r s) :
    Filled (List.range tis.length).reverse s.tis s.bt ∧ s.tis.length = tis.length := by
  induction h with
  | enter filled =>
      obtain ⟨hfilled, hlen⟩ := pushAll_filled
        (show Filled [] _ _ from ⟨SearchTree.Ends.ok_empty _, .refl _⟩)
            (by simpa using List.nodup_range) filled
      exact ⟨by simpa using hfilled, hlen⟩
  | next before round ih =>
      obtain ⟨i, ti, hmin, htis, hbt⟩ := round_eq_some round
      rw [hbt, htis]
      refine ⟨ih.1.pop (List.nodup_reverse.mpr List.nodup_range) hmin ti, ?_⟩
      rw [List.length_set]
      exact ih.2

/-- The tokens that are kept as the first and the last of the tree are the ones with the least
and the greatest position. -/
def Extreme (n : Nat) (s : Near ρ) : Prop :=
  ∃ i j, s.bt.min = some i ∧ s.bt.max = some j ∧ i < n ∧ j < n ∧
    ∀ t < n, posAt s.tis i ≤ posAt s.tis t ∧ posAt s.tis t ≤ posAt s.tis j

theorem Filled.extreme {n : Nat} (h : Filled (List.range n).reverse s.tis s.bt) (hn : 0 < n) :
    s.Extreme n := by
  have hmem : ∀ t, t ∈ SearchTree.inorder s.bt.root ↔ t < n := by
    intro t
    rw [h.members.mem_iff]
    simp
  have hroot : SearchTree.inorder s.bt.root ≠ [] := List.ne_nil_of_mem ((hmem 0).mpr hn)
  obtain ⟨i, hi⟩ : ∃ i, s.bt.min = some i := by
    rw [h.ends.min]
    exact ⟨_, List.head?_eq_some_head hroot⟩
  obtain ⟨j, hj⟩ : ∃ j, s.bt.max = some j := by
    rw [h.ends.max]
    exact ⟨_, List.getLast?_eq_some_getLast hroot⟩
  refine ⟨i, j, hi, hj, (hmem i).mp ?_, (hmem j).mp ?_, fun t ht => ⟨?_, ?_⟩⟩
  · rw [h.ends.min] at hi
    exact List.mem_of_head? hi
  · rw [h.ends.max] at hj
    exact List.mem_of_getLast? hj
  · exact h.ends.min_le hi ((hmem t).mpr ht)
  · exact h.ends.le_max hj ((hmem t).mpr ht)

theorem Heads.extreme (h : Heads R rep w d maxInterval tis r s) (hne : tis ≠ []) :
    s.Extreme tis.length :=
  h.filled.1.extreme (List.length_pos_of_ne_nil hne)

end Near

end Senna.Index
