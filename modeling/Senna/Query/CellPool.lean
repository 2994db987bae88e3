/-
# The pool of cells

The parser looks at the number of cells and of keywords before each token, but the token
takes up to two cells, and every parenthesis takes one more when it is left.

`Inside` is what holds while no cell was written behind the pool: the bulk cells are the
keywords read so far. A call of the parser keeps it or ends behind the pool, and `FineAt`
says which of the two.
-/

import Senna.Lib.Fuel
import Senna.Query.Pieces

namespace Senna.Query

open Senna.Snip (SenEncoding)
open Senna.Index (senIsspace)
open Senna.Lib

/-- The bytes of a bulk cell. -/
def PoolCell.bytes (text : List UInt8) : PoolCell → List (List UInt8)
  | .bulk value size => [(text.drop value).take size]
  | _ => []

namespace ParseState

/-- The bytes of the bulk cells, in the order of the cells. -/
def bulks (s : ParseState) : List (List UInt8) :=
  (List.range s.curCell).flatMap fun i => ((s.pool i).map (PoolCell.bytes s.text)).getD []

/-- Some cell was written behind the pool. -/
def Overran (A : Parser) (s : ParseState) : Prop := ∃ w ∈ s.writes, A.maxCells ≤ w.index

/-- No cell was written behind the pool, and the bulk cells hold the keywords `C`. -/
structure Inside (A : Parser) (str : List UInt8) (C : List (List UInt8)) (s : ParseState) :
    Prop where
  length : s.text.length = str.length
  cur_le : s.cur ≤ str.length
  cells : s.curCell ≤ A.maxCells
  writes : ∀ w ∈ s.writes, w.index < A.maxCells ∧ w.cur ≤ str.length
  ranges : ∀ i value size, s.pool i = some (.bulk value size) → value + size ≤ s.cur
  bulks : s.bulks = C

variable {A : Parser} {str : List UInt8} {C : List (List UInt8)} {s : ParseState}

theorem rest_moveTo {p : List UInt8} (h : p <:+ s.rest) : (s.moveTo p).rest = p :=
  (List.suffix_iff_eq_drop.mp (h.trans (List.drop_suffix _ _))).symm

theorem cur_le_moveTo {p : List UInt8} (h : p <:+ s.rest) (hcur : s.cur ≤ s.text.length) :
    s.cur ≤ (s.moveTo p).cur := by
  have hle := h.length_le
  rw [rest, List.length_drop] at hle
  show s.cur ≤ s.text.length - p.length
  omega

theorem rest_next {b : UInt8} {p : List UInt8} (h : s.rest = b :: p) : s.next.rest = p := by
  show s.text.drop (s.cur + 1) = p
  rw [← List.drop_drop, ← rest, h, List.drop_one, List.tail_cons]

theorem cur_lt {b : UInt8} {p : List UInt8} (h : s.rest = b :: p) : s.cur < s.text.length := by
  by_contra hle
  rw [rest, List.drop_of_length_le (by omega)] at h
  cases h

theorem getD_cur {b : UInt8} {p : List UInt8} (h : s.rest = b :: p) : s.text.getD s.cur 0 = b := by
  rw [List.getD_eq_getElem?_getD, ← List.head?_drop, ← rest, h]
  rfl

/-- The bulk cells depend only on the text before the place `n`. -/
theorem bulks_congr {s' : ParseState} {n : Nat} (hcells : s'.curCell = s.curCell)
    (hpool : s'.pool = s.pool) (htext : s'.text.take n = s.text.take n)
    (hranges : ∀ i value size, s.pool i = some (.bulk value size) → value + size ≤ n) :
    s'.bulks = s.bulks := by
  rw [ParseState.bulks, ParseState.bulks, hcells, hpool]
  congr 1
  funext i
  cases hi : s.pool i with
  | none => rfl
  | some c =>
      cases c with
      | list => rfl
      | op => rfl
      | bulk value size =>
          have hle := hranges i value size hi
          have htake (text : List UInt8) :
              (text.drop value).take size = ((text.take n).drop value).take size := by
            rw [List.take_drop, List.take_drop, List.take_take, min_eq_left hle]
          show [(s'.text.drop value).take size] = [(s.text.drop value).take size]
          rw [htake s'.text, htake s.text, htext]

/-- The state after the cell `c` was taken from the pool. -/
def taken (s : ParseState) (c : PoolCell) : ParseState :=
  { s with
    curCell := s.curCell + 1
    pool := Function.update s.pool s.curCell (some c)
    writes := s.writes ++ [⟨s.curCell, s.cur⟩] }

theorem cellNew_of_lt (h : s.curCell < A.maxCells) (c : PoolCell) :
    A.cellNew c s = (some s.curCell, s.taken c) := by
  rw [Parser.cellNew, if_pos h.le, Parser.store]
  dsimp only
  rw [if_pos h]
  rfl

namespace Inside

/-- Reading on. -/
theorem advance (h : s.Inside A str C) {n : Nat} (hle : s.cur ≤ n) (hn : n ≤ str.length) :
    ParseState.Inside A str C { s with cur := n } where
  length := h.length
  cur_le := hn
  cells := h.cells
  writes := h.writes
  ranges i value size hi := (h.ranges i value size hi).trans hle
  bulks := h.bulks

theorem moveTo (h : s.Inside A str C) {p : List UInt8} (hp : p <:+ s.rest) :
    (s.moveTo p).Inside A str C := by
  apply h.advance
  · exact cur_le_moveTo hp (h.length ▸ h.cur_le)
  · rw [h.length]
    exact Nat.sub_le _ _

theorem next (h : s.Inside A str C) {b : UInt8} {p : List UInt8} (hrest : s.rest = b :: p) :
    s.next.Inside A str C :=
  h.advance (Nat.le_succ _) (h.length ▸ cur_lt hrest)

/-- The text behind the place `cur` is written. -/
theorem retext (h : s.Inside A str C) {text : List UInt8} {n : Nat}
    (hlength : text.length = s.text.length) (htake : text.take s.cur = s.text.take s.cur)
    (hle : s.cur ≤ n) (hn : n ≤ str.length) :
    ParseState.Inside A str C { s with text := text, cur := n } where
  length := hlength.trans h.length
  cur_le := hn
  cells := h.cells
  writes := h.writes
  ranges i value size hi := (h.ranges i value size hi).trans hle
  bulks := by
    have hsame : ParseState.bulks { s with text := text, cur := n } = s.bulks :=
      bulks_congr rfl rfl htake h.ranges
    rw [hsame, h.bulks]

/-- A new cell, as long as there is one. -/
theorem taken (h : s.Inside A str C) (hlt : s.curCell < A.maxCells) {c : PoolCell}
    (hc : ∀ value size, c = .bulk value size → value + size ≤ s.cur) :
    (s.taken c).Inside A str (C ++ c.bytes s.text) := by
  refine ⟨h.length, h.cur_le, hlt, ?_, ?_, ?_⟩
  · intro w hw
    rcases List.mem_append.mp hw with hw | hw
    · exact h.writes w hw
    · rw [List.mem_singleton.mp hw]
      exact ⟨hlt, h.cur_le⟩
  · intro i value size hi
    rw [ParseState.taken] at hi
    dsimp only at hi
    by_cases hic : i = s.curCell
    · rw [hic, Function.update_self] at hi
      exact hc value size (Option.some.inj hi)
    · rw [Function.update_of_ne hic] at hi
      exact h.ranges i value size hi
  · rw [ParseState.bulks, ParseState.taken]
    dsimp only
    rw [List.range_succ, List.flatMap_append, List.flatMap_singleton, Function.update_self]
    congr 1
    rw [← h.bulks, ParseState.bulks]
    refine List.flatMap_congr fun i hi => ?_
    rw [Function.update_of_ne (List.mem_range.mp hi).ne]

/-- Linking the list. -/
theorem setCdr (h : s.Inside A str C) {i : Nat} (hlt : i < A.maxCells) (cdr : Option Nat) :
    (A.setCdr i cdr s).Inside A str C ∧ (A.setCdr i cdr s).curCell = s.curCell ∧
      (A.setCdr i cdr s).curExpr = s.curExpr ∧ (A.setCdr i cdr s).rest = s.rest := by
  rw [Parser.setCdr]
  split
  · next car cdr' hpool =>
      rw [Parser.store, if_pos hlt]
      refine ⟨⟨h.length, h.cur_le, h.cells, ?_, ?_, ?_⟩, rfl, rfl, rfl⟩
      · intro w hw
        rcases List.mem_append.mp hw with hw | hw
        · exact h.writes w hw
        · rw [List.mem_singleton.mp hw]
          exact ⟨hlt, h.cur_le⟩
      · intro j value size hj
        dsimp only at hj
        by_cases hji : j = i
        · rw [hji, Function.update_self] at hj
          cases hj
        · rw [Function.update_of_ne hji] at hj
          exact h.ranges j value size hj
      · rw [← h.bulks, ParseState.bulks, ParseState.bulks]
        dsimp only
        refine List.flatMap_congr fun j _ => ?_
        by_cases hji : j = i
        · rw [hji, Function.update_self, hpool]
          rfl
        · rw [Function.update_of_ne hji]
  · exact ⟨h, rfl, rfl, rfl⟩

end Inside

/-- A new cell behind the pool. -/
theorem overran_cellNew (h : s.curCell = A.maxCells) (c : PoolCell) :
    (A.cellNew c s).2.Overran A := by
  rw [Parser.cellNew, if_pos h.le]
  exact ⟨⟨s.curCell, s.cur⟩, List.mem_append_right _ (List.mem_singleton_self _), h.ge⟩

/-- A token was read from the state `s`: the keywords `w` with `own` cells for it, and `rest`
behind it. -/
structure Took (A : Parser) (str : List UInt8) (C : List (List UInt8)) (s : ParseState)
    (w : List (List UInt8)) (own : Nat) (rest : List UInt8) (s' : ParseState) : Prop where
  inside : s'.Inside A str (C ++ w)
  curCell : s'.curCell = s.curCell + own
  curExpr : s'.curExpr = s.curExpr + w.length
  rest : s'.rest = rest

theorem took_nil (h : s.Inside A str C) : Took A str C s [] 0 s.rest s :=
  ⟨by rwa [List.append_nil], rfl, rfl, rfl⟩

/-- An operator. -/
theorem took_opNew (h : s.Inside A str C) (hlt : s.curCell < A.maxCells) (op : SelOperator)
    (weight : Int) (mode : Option SelMode) (option : Int) :
    Took A str C s [] 1 s.rest (A.opNew op weight mode option s).2 := by
  have hinside := h.taken hlt (c := .op ⟨op, weight, mode, option⟩) (fun _ _ heq => nomatch heq)
  rw [Parser.opNew, cellNew_of_lt hlt]
  exact ⟨hinside, rfl, rfl, rfl⟩

/-- A keyword. -/
theorem took_tokenNew (h : s.Inside A str C) (hlt : s.curCell < A.maxCells) {start : Nat}
    {w : List UInt8} (hne : w ≠ []) (hw : (s.text.drop start).take w.length = w)
    (hle : start + w.length ≤ s.cur) :
    A.tokenNew start (start + w.length) s =
        (some s.curCell, { s.taken (.bulk start w.length) with curExpr := s.curExpr + 1 }) ∧
      Took A str C s [w] 1 s.rest
        { s.taken (.bulk start w.length) with curExpr := s.curExpr + 1 } := by
  have hpos : 0 < w.length := List.length_pos_iff.mpr hne
  have hinside := h.taken hlt (c := .bulk start w.length) (by
    intro value size heq
    obtain ⟨rfl, rfl⟩ := PoolCell.bulk.inj heq
    exact hle)
  rw [PoolCell.bytes, hw] at hinside
  constructor
  · rw [Parser.tokenNew, if_neg (by omega), Nat.add_sub_cancel_left, cellNew_of_lt hlt]
    rfl
  · exact ⟨⟨hinside.length, hinside.cur_le, hinside.cells, hinside.writes, hinside.ranges,
      hinside.bulks⟩, rfl, rfl, rfl⟩

/-- A keyword that is empty takes no cell. -/
theorem tokenNew_self (start : Nat) (s : ParseState) : A.tokenNew start start s = (none, s) :=
  if_pos (le_refl start)

/-- What `token_new` makes of the bytes from `start` on. -/
theorem took_tokenNew_keyword (h : s.Inside A str C) (hlt : s.curCell < A.maxCells) {start : Nat}
    {w : List UInt8} (hw : (s.text.drop start).take w.length = w) (hle : start + w.length ≤ s.cur) :
    Took A str C s (if w = [] then [] else [w]) (if w = [] then 0 else 1) s.rest
      (A.tokenNew start (start + w.length) s).2 := by
  by_cases hne : w = []
  · subst hne
    rw [List.length_nil, Nat.add_zero, tokenNew_self]
    exact took_nil h
  · obtain ⟨hnew, htook⟩ := took_tokenNew h hlt hne hw hle
    rw [hnew, if_neg hne, if_neg hne]
    exact htook

/-- The deletion of the last cell. -/
theorem Inside.cellDel (h : s.Inside A str C) (hlt : s.curCell < A.maxCells) {start : Nat}
    {w : List UInt8} (hle : start + w.length ≤ s.cur) :
    ParseState.Inside A str C
      { (s.taken (.bulk start w.length)).cellDel with curExpr := s.curExpr + 1 - 1 } where
  length := h.length
  cur_le := h.cur_le
  cells := h.cells
  writes := by
    intro v hv
    rcases List.mem_append.mp hv with hv | hv
    · exact h.writes v hv
    · rw [List.mem_singleton.mp hv]
      exact ⟨hlt, h.cur_le⟩
  ranges := by
    intro i value size hi
    rw [ParseState.cellDel, ParseState.taken] at hi
    dsimp only at hi
    by_cases hic : i = s.curCell
    · rw [hic, Function.update_self] at hi
      obtain ⟨rfl, rfl⟩ := PoolCell.bulk.inj (Option.some.inj hi)
      exact hle
    · rw [Function.update_of_ne hic] at hi
      exact h.ranges i value size hi
  bulks := by
    rw [← h.bulks, ParseState.bulks, ParseState.bulks, ParseState.cellDel,
      ParseState.taken]
    dsimp only
    rw [Nat.add_sub_cancel]
    refine List.flatMap_congr fun i hi => ?_
    rw [Function.update_of_ne (List.mem_range.mp hi).ne]

/-- **A phrase**, behind its quotation mark. -/
theorem took_getPhrase (h : s.Inside A str C) (hlt : s.curCell < A.maxCells)
    {c rest : List UInt8} (hphrase : phraseText A.encoding s.rest = some (c, rest)) :
    ∃ t, Took A str C s (if c = [] then [] else [c]) (if c = [] then 0 else 1) rest t.2 ∧
      (∀ k, A.getPhrase k s = none ∨ A.getPhrase k s = some t) ∧
      ∀ k, s.rest.length < k → A.getPhrase k s = some t := by
  obtain ⟨text, hlength, htake, hcopy, hfit, hrest, hall, hset⟩ :=
    Parser.phraseLoop_of_some (le_refl s.cur) (h.length ▸ h.cur_le) hphrase
  have hmoved : ParseState.Inside A str C
      { s with text := text, cur := s.text.length - rest.length } :=
    h.retext hlength htake (by omega) (by rw [h.length]; exact Nat.sub_le _ _)
  have hrest' : ParseState.rest { s with text := text, cur := s.text.length - rest.length } =
      rest := hrest
  have htook := took_tokenNew_keyword (A := A) hmoved hlt hcopy (by
    show s.cur + c.length ≤ s.text.length - rest.length
    omega)
  rw [hrest'] at htook
  refine ⟨_, ⟨htook.inside, htook.curCell, htook.curExpr, htook.rest⟩, fun k => ?_, fun k hk => ?_⟩
  · rw [Parser.getPhrase]
    rcases hall k with hnone | hsome
    · exact Or.inl (by rw [hnone]; rfl)
    · exact Or.inr (by rw [hsome]; rfl)
  · rw [Parser.getPhrase, hset k hk]
    rfl

/-- The test for the word `OR`. -/
theorem isOr_iff {text w : List UInt8} {start : Nat} (hw : (text.drop start).take w.length = w) :
    (text.getD start 0 = 0x4f ∧ text.getD (start + 1) 0 = 0x52 ∧ w.length = 2) ↔
      w = [0x4f, 0x52] := by
  have hget (i : Nat) (hi : i < w.length) : text.getD (start + i) 0 = w.getD i 0 := by
    rw [List.getD_eq_getElem?_getD, List.getD_eq_getElem?_getD, ← hw, List.getElem?_take_of_lt hi,
      List.getElem?_drop]
  constructor
  · rintro ⟨ho, hr, hlen⟩
    obtain ⟨a, b, rfl⟩ := List.length_eq_two.mp hlen
    have ha := hget 0 (by simp)
    have hb := hget 1 (by simp)
    rw [Nat.add_zero, ho] at ha
    rw [hr] at hb
    rw [ha, hb]
    rfl
  · rintro rfl
    exact ⟨hget 0 (by decide), hget 1 (by decide), rfl⟩

/-- A word, or the operator `OR`. -/
theorem took_getDefault (h : s.Inside A str C) (hlt : s.curCell < A.maxCells)
    (hcur : s.cur ≤ s.text.length) :
    Took A str C s
      (if (wordScan A.encoding s.rest).1 = [0x4f, 0x52] then Piece.orWord
        else .word (wordScan A.encoding s.rest).1).keyword
      (if (wordScan A.encoding s.rest).1 = [0x4f, 0x52] then Piece.orWord
        else .word (wordScan A.encoding s.rest).1).ownCells
      (wordScan A.encoding s.rest).2 (A.getDefault s).2 := by
  have hsuffix := wordScan_suffix A.encoding s.rest
  obtain ⟨hfront, hlength⟩ := wordScan_prefix A.encoding s.rest
  rw [Parser.getDefault, Parser.getWord]
  dsimp only
  generalize wordScan A.encoding s.rest = r at hsuffix hfront hlength ⊢
  obtain ⟨w, rest⟩ := r
  dsimp only at hsuffix hfront hlength ⊢
  have hmoved := h.moveTo hsuffix
  have hrest := rest_moveTo hsuffix
  have hw : ((s.moveTo rest).text.drop s.cur).take w.length = w :=
    (List.prefix_iff_eq_take.mp hfront).symm
  have hle : s.cur + w.length ≤ (s.moveTo rest).cur := by
    rw [ParseState.rest, List.length_drop] at hlength
    show s.cur + w.length ≤ s.text.length - rest.length
    omega
  by_cases hne : w = []
  · subst hne
    rw [List.length_nil, Nat.add_zero, tokenNew_self, if_neg (by decide)]
    have htook := took_nil hmoved
    rw [hrest] at htook
    exact ⟨htook.inside, htook.curCell, htook.curExpr, htook.rest⟩
  · obtain ⟨hnew, htook⟩ := took_tokenNew hmoved hlt hne hw hle
    have hpool : ((s.moveTo rest).taken (.bulk s.cur w.length)).pool (s.moveTo rest).curCell =
        some (.bulk s.cur w.length) := Function.update_self ..
    have hw' : (((s.moveTo rest).taken (.bulk s.cur w.length)).text.drop s.cur).take w.length =
        w := hw
    rw [hnew]
    dsimp only
    rw [hpool]
    dsimp only
    by_cases hor : w = [0x4f, 0x52]
    · rw [if_pos ((isOr_iff hw').mpr hor), if_pos hor]
      have hdel := hmoved.cellDel hlt hle
      have hop := took_opNew hdel hlt .or 5 none 0
      exact ⟨hop.inside, hop.curCell, hop.curExpr, hop.rest.trans hrest⟩
    · rw [if_neg (mt (isOr_iff hw').mp hor), if_neg hor, Piece.keyword, Piece.ownCells, if_neg hne,
        if_neg hne]
      exact ⟨htook.inside, htook.curCell, htook.curExpr, htook.rest.trans hrest⟩

/-- A `*` with the mode behind it. -/
theorem took_getStar (h : s.Inside A str C) (hlt : s.curCell < A.maxCells) :
    Took A str C s [] (match getOp s.rest with
        | none => 0
        | some _ => 1)
      (match getOp s.rest with
        | none => s.rest
        | some (_, _, rest) => rest) (A.getStar s).2 := by
  rw [Parser.getStar]
  cases hop : getOp s.rest with
  | none => exact took_nil h
  | some r =>
      obtain ⟨mode, option, rest⟩ := r
      have hsuffix := getOp_suffix hop
      have htook := took_opNew (h.moveTo hsuffix) hlt A.defaultOp 5 (some mode) option
      rw [rest_moveTo hsuffix] at htook
      exact ⟨htook.inside, htook.curCell, htook.curExpr, htook.rest⟩

/-- **A token** that is neither a phrase nor in parentheses. -/
theorem took_simpleToken (h : s.Inside A str C) (hlt : s.curCell < A.maxCells) {b : UInt8}
    {p : List UInt8} (hrest : s.rest = b :: p) (hclose : b ≠ 0x29) (hquote : b ≠ 0x22)
    (hopen : b ≠ 0x28) :
    Took A str C s (pieceAt A.encoding b p).1.keyword (pieceAt A.encoding b p).1.ownCells
      (pieceAt A.encoding b p).2 (A.simpleToken b s).2 := by
  have hnext := h.next hrest
  have hrest' := rest_next hrest
  rw [pieceAt, if_neg hclose, if_neg hquote, if_neg hopen]
  by_cases hstar : b = 0x2a
  · have htook := took_getStar hnext hlt
    rw [hrest'] at htook
    rw [if_pos hstar, Parser.simpleToken, if_pos hstar]
    cases hop : getOp p with
    | none =>
        rw [hop] at htook
        exact ⟨htook.inside, htook.curCell, htook.curExpr, htook.rest⟩
    | some r =>
        rw [hop] at htook
        exact ⟨htook.inside, htook.curCell, htook.curExpr, htook.rest⟩
  rw [if_neg hstar]
  by_cases hop : b ∈ [0x2b, 0x2d, 0x3e, 0x3c, 0x7e]
  · obtain ⟨op, weight, hnew⟩ : ∃ op weight, A.simpleToken b s = A.opNew op weight none 0
        s.next := by
      simp only [List.mem_cons, List.not_mem_nil, or_false] at hop
      rcases hop with rfl | rfl | rfl | rfl | rfl
      · exact ⟨.and, 5, rfl⟩
      · exact ⟨.but, 5, rfl⟩
      · exact ⟨.adjust, 6, rfl⟩
      · exact ⟨.adjust, 4, rfl⟩
      · exact ⟨.adjust, -1, rfl⟩
    have htook := took_opNew hnext hlt op weight none 0
    rw [if_pos hop, hnew]
    exact ⟨htook.inside, htook.curCell, htook.curExpr, htook.rest.trans hrest'⟩
  · have hdefault : A.simpleToken b s = A.getDefault s := by
      simp only [List.mem_cons, List.not_mem_nil, or_false, not_or] at hop
      obtain ⟨hand, hbut, hinc, hdec, hneg⟩ := hop
      rw [Parser.simpleToken, if_neg hstar, if_neg hand, if_neg hbut, if_neg hinc, if_neg hdec,
        if_neg hneg]
    have htook := took_getDefault h hlt (h.length ▸ h.cur_le)
    rw [hrest] at htook
    rw [if_neg hop, hdefault]
    exact htook

end ParseState

/-- The cells of a piece that is neither a parenthesis nor a phrase without an end. -/
def Piece.cells (x : Piece) : Nat := x.ownCells + 1

/-- The walk over the pieces stays inside the pool: `d` groups are open, `c` cells and `e`
keywords are taken. Where the walk stops, every open group still takes a cell. -/
def FineAt (maxCells maxExprs : Nat) : Nat → Nat → Nat → List Piece → Prop
  | d, c, _, [] => c + d ≤ maxCells
  | d, c, e, x :: ps =>
      if maxExprs ≤ e ∨ maxCells ≤ c then c + d ≤ maxCells
      else
        match x, d with
        | .broken, _ => False
        | .closed, 0 => True
        | .closed, d + 1 => FineAt maxCells maxExprs d (c + 1) e ps
        | .opened, d => FineAt maxCells maxExprs (d + 1) c e ps
        | x, d => FineAt maxCells maxExprs d (c + x.cells) (e + x.keyword.length) ps

section

variable {A : Parser} {str : List UInt8} {K : List (List UInt8)} {s s' : ParseState}

namespace ParseState

/-- The walk from the state `s` on stays inside the pool. -/
def Fine (A : Parser) (d : Nat) (s : ParseState) : Prop :=
  FineAt A.maxCells A.maxExprs d s.curCell s.curExpr (pieces A.encoding s.rest)

/-- Inside the pool, with the keywords read so far and those to come together `K`. -/
def Good (A : Parser) (str : List UInt8) (K : List (List UInt8)) (s : ParseState) : Prop :=
  ∃ C, s.Inside A str C ∧ C ++ keywordsOf (pieces A.encoding s.rest) = K

/-- The call that began in `s` returned in `s'` to where a cell links the group: what this
says about the walk. -/
structure Returned (A : Parser) (s s' : ParseState) : Prop where
  outermost : s.Fine A 0
  enclosed : ∀ d, s.Fine A (d + 1) ↔
    FineAt A.maxCells A.maxExprs d (s'.curCell + 1) s'.curExpr (pieces A.encoding s'.rest)
  rest : s'.rest.length ≤ s.rest.length

/-- The end of a call behind the pool. -/
def Failed (A : Parser) (s s' : ParseState) : Prop := s'.Overran A ∧ ∀ d, ¬s.Fine A d

/-- What a call of `get_expr` in `s` leads to. -/
def ExprPost (A : Parser) (str : List UInt8) (K : List (List UInt8)) (s s' : ParseState) : Prop :=
  Failed A s s' ∨ (s'.Good A str K ∧ Returned A s s')

/-- What a call of `get_token` in `s` leads to. -/
def TokenPost (A : Parser) (str : List UInt8) (K : List (List UInt8)) (s : ParseState)
    (t : Option Nat × ParseState) : Prop :=
  Failed A s t.2 ∨ (t.2.Good A str K ∧
    match t.1 with
    | none => Returned A s t.2
    | some i => i < A.maxCells ∧ (∀ d, s.Fine A d ↔ t.2.Fine A d) ∧
        t.2.rest.length < s.rest.length)

end ParseState

section

variable {maxCells maxExprs d c e : Nat} {ps : List Piece}

/-- Where the walk stops. -/
theorem fineAt_stop (h : maxExprs ≤ e ∨ maxCells ≤ c) :
    FineAt maxCells maxExprs d c e ps ↔ c + d ≤ maxCells := by
  cases ps with
  | nil => exact Iff.rfl
  | cons x ps =>
      unfold FineAt
      rw [if_pos h]

/-- A walk that took more cells than there are. -/
theorem not_fineAt (h : maxCells < c) : ¬FineAt maxCells maxExprs d c e ps := by
  rw [fineAt_stop (Or.inr h.le)]
  omega

theorem fineAt_broken (h : ¬(maxExprs ≤ e ∨ maxCells ≤ c)) :
    ¬FineAt maxCells maxExprs d c e (.broken :: ps) := by
  rw [FineAt, if_neg h]
  exact id

theorem fineAt_closed_zero (h : ¬(maxExprs ≤ e ∨ maxCells ≤ c)) :
    FineAt maxCells maxExprs 0 c e (.closed :: ps) := by
  rw [FineAt, if_neg h]
  trivial

theorem fineAt_closed_succ (h : ¬(maxExprs ≤ e ∨ maxCells ≤ c)) :
    FineAt maxCells maxExprs (d + 1) c e (.closed :: ps) ↔
      FineAt maxCells maxExprs d (c + 1) e ps := by
  rw [FineAt, if_neg h]

theorem fineAt_opened (h : ¬(maxExprs ≤ e ∨ maxCells ≤ c)) :
    FineAt maxCells maxExprs d c e (.opened :: ps) ↔
      FineAt maxCells maxExprs (d + 1) c e ps := by
  rw [FineAt, if_neg h]

/-- A piece that is neither a parenthesis nor a phrase without an end. -/
def Piece.Simple (x : Piece) : Prop := x ≠ .broken ∧ x ≠ .closed ∧ x ≠ .opened

theorem fineAt_simple {x : Piece} (hx : x.Simple) (h : ¬(maxExprs ≤ e ∨ maxCells ≤ c)) :
    FineAt maxCells maxExprs d c e (x :: ps) ↔
      FineAt maxCells maxExprs d (c + x.cells) (e + x.keyword.length) ps := by
  obtain ⟨hbroken, hclosed, hopened⟩ := hx
  conv_lhs => unfold FineAt
  rw [if_neg h]
  cases x with
  | broken => exact absurd rfl hbroken
  | closed => exact absurd rfl hclosed
  | opened => exact absurd rfl hopened
  | _ => exact Iff.rfl

end

namespace ParseState

/-- The state behind the spaces. -/
def skip (A : Parser) (s : ParseState) : ParseState := s.moveTo (skipSpace A.encoding s.rest)

/-- `get_token` returns without looking at the text, or there is no text. -/
def Stops (A : Parser) (s : ParseState) : Prop :=
  (A.maxExprs ≤ s.curExpr ∨ A.maxCells ≤ s.curCell) ∨ pieces A.encoding s.rest = []

theorem rest_skip (A : Parser) (s : ParseState) : (s.skip A).rest = skipSpace A.encoding s.rest :=
  rest_moveTo (skipSpace_suffix _ _)

theorem getToken_succ (A : Parser) (s : ParseState) (k : Nat) :
    A.getToken (k + 1) s =
      if A.maxExprs ≤ s.curExpr ∨ A.maxCells ≤ s.curCell ∨
          (s.skip A).text.length ≤ (s.skip A).cur then some (none, s.skip A)
      else
        let b := (s.skip A).text.getD (s.skip A).cur 0
        if b = 0 then some (none, s.skip A)
        else if b = 0x29 then some (none, (s.skip A).next)
        else if b = 0x22 then
          (A.getPhrase k (s.skip A).next).map fun u => A.cons u.1 none u.2
        else if b = 0x28 then (A.getExpr k (s.skip A).next).map fun u => A.cons u.1 none u.2
        else some (A.cons (A.simpleToken b (s.skip A)).1 none (A.simpleToken b (s.skip A)).2) := by
  rw [Parser.getToken]
  rfl

theorem getToken_stop (h : s.Stops A) (k : Nat) :
    A.getToken (k + 1) s = some (none, s.skip A) := by
  rw [getToken_succ]
  by_cases hstop : A.maxExprs ≤ s.curExpr ∨ A.maxCells ≤ s.curCell ∨
      (s.skip A).text.length ≤ (s.skip A).cur
  · rw [if_pos hstop]
  · rw [if_neg hstop]
    obtain ⟨hexpr, hcell, hcur⟩ : ¬A.maxExprs ≤ s.curExpr ∧ ¬A.maxCells ≤ s.curCell ∧
        ¬(s.skip A).text.length ≤ (s.skip A).cur := by
      simpa only [not_or] using hstop
    have hpieces := h.resolve_left (not_or.mpr ⟨hexpr, hcell⟩)
    have hrest := rest_skip A s
    have hbyte : (s.skip A).text.getD (s.skip A).cur 0 = 0 := by
      cases hs : skipSpace A.encoding s.rest with
      | nil =>
          rw [hs, ParseState.rest, List.drop_eq_nil_iff] at hrest
          exact absurd hrest hcur
      | cons b p =>
          have hb : b = 0 := by
            by_contra hb
            rw [pieces_of_cons hs, if_neg hb] at hpieces
            cases hpieces
          rw [hs] at hrest
          exact (getD_cur hrest).trans hb
    exact if_pos hbyte

/-- A piece that is looked at. -/
theorem getToken_piece (h : ¬s.Stops A) {b : UInt8} {p : List UInt8}
    (hs : skipSpace A.encoding s.rest = b :: p) (k : Nat) :
    A.getToken (k + 1) s =
      if b = 0x29 then some (none, (s.skip A).next)
      else if b = 0x22 then
        (A.getPhrase k (s.skip A).next).map fun u => A.cons u.1 none u.2
      else if b = 0x28 then (A.getExpr k (s.skip A).next).map fun u => A.cons u.1 none u.2
      else some (A.cons (A.simpleToken b (s.skip A)).1 none (A.simpleToken b (s.skip A)).2) := by
  obtain ⟨hlimits, hpieces⟩ := not_or.mp h
  have hrest : (s.skip A).rest = b :: p := (rest_skip A s).trans hs
  have hb : b ≠ 0 := by
    intro hb
    rw [pieces_of_cons hs, if_pos hb] at hpieces
    exact hpieces rfl
  have hgo : ¬(A.maxExprs ≤ s.curExpr ∨ A.maxCells ≤ s.curCell ∨
      (s.skip A).text.length ≤ (s.skip A).cur) := by
    have := cur_lt hrest
    rw [← or_assoc]
    exact not_or.mpr ⟨hlimits, by omega⟩
  have hbyte : (s.skip A).text.getD (s.skip A).cur 0 = b := getD_cur hrest
  rw [getToken_succ, if_neg hgo]
  dsimp only
  rw [hbyte, if_neg hb]

/-- There is a piece to look at. -/
theorem exists_piece (h : ¬s.Stops A) : ∃ b p, skipSpace A.encoding s.rest = b :: p ∧
    pieces A.encoding s.rest =
      (pieceAt A.encoding b p).1 :: pieces A.encoding (pieceAt A.encoding b p).2 := by
  obtain ⟨-, hpieces⟩ := not_or.mp h
  cases hs : skipSpace A.encoding s.rest with
  | nil => exact absurd (pieces_of_nil hs) hpieces
  | cons b p =>
      refine ⟨b, p, rfl, ?_⟩
      rw [pieces_of_cons hs] at hpieces ⊢
      split_ifs at hpieces ⊢
      · exact absurd rfl hpieces
      · rfl

end ParseState

namespace ParseState

theorem writes_cellNew (c : PoolCell) : s.writes ⊆ (A.cellNew c s).2.writes := by
  rw [Parser.cellNew]
  split_ifs
  · exact List.subset_append_left _ _
  · exact List.Subset.refl _

theorem writes_tokenNew (start stop : Nat) : s.writes ⊆ (A.tokenNew start stop s).2.writes := by
  have hnew := writes_cellNew (A := A) (s := s) (.bulk start (stop - start))
  rw [Parser.tokenNew]
  split_ifs
  · exact List.Subset.refl _
  · generalize A.cellNew (.bulk start (stop - start)) s = new at hnew ⊢
    obtain ⟨t, s'⟩ := new
    cases t with
    | none => exact hnew
    | some c => exact hnew

theorem writes_setCdr (i : Nat) (cdr : Option Nat) : s.writes ⊆ (A.setCdr i cdr s).writes := by
  rw [Parser.setCdr]
  split
  · exact List.subset_append_left _ _
  · exact List.Subset.refl _

theorem writes_getPhrase {k : Nat} {t : Option Nat × ParseState} (h : A.getPhrase k s = some t) :
    s.writes ⊆ t.2.writes := by
  rw [Parser.getPhrase] at h
  obtain ⟨⟨text, cur, d⟩, -, rfl⟩ := Option.map_eq_some_iff.mp h
  exact writes_tokenNew (s := { s with text := text, cur := cur }) _ _

theorem writes_getDefault : s.writes ⊆ (A.getDefault s).2.writes := by
  have hword : s.writes ⊆ (A.getWord s).2.writes := writes_tokenNew (s := s.moveTo _) _ _
  rw [Parser.getDefault]
  split
  · next heq => rw [heq] at hword; exact hword
  · next c s' heq =>
      rw [heq] at hword
      split
      · split_ifs
        · exact List.Subset.trans hword
            (writes_cellNew (s := { s'.cellDel with curExpr := s'.curExpr - 1 }) _)
        · exact hword
      · exact hword

theorem writes_simpleToken (b : UInt8) : s.writes ⊆ (A.simpleToken b s).2.writes := by
  have hop (op : SelOperator) (weight : Int) (mode : Option SelMode) (option : Int)
      (s' : ParseState) (hs : s'.writes = s.writes) :
      s.writes ⊆ (A.opNew op weight mode option s').2.writes :=
    hs ▸ writes_cellNew _
  rw [Parser.simpleToken]
  split_ifs
  · rw [Parser.getStar]
    split
    · exact List.Subset.refl _
    · exact hop _ _ _ _ _ rfl
  · exact hop _ _ _ _ _ rfl
  · exact hop _ _ _ _ _ rfl
  · exact hop _ _ _ _ _ rfl
  · exact hop _ _ _ _ _ rfl
  · exact hop _ _ _ _ _ rfl
  · exact writes_getDefault

/-- The calls of the parser only add to what is written. -/
theorem writes_calls (k : Nat) :
    (∀ s t, A.getToken k s = some t → s.writes ⊆ t.2.writes) ∧
      (∀ s t, A.getExpr k s = some t → s.writes ⊆ t.2.writes) ∧
      ∀ c s s', A.exprLoop k c s = some s' → s.writes ⊆ s'.writes := by
  induction k with
  | zero => exact ⟨nofun, nofun, nofun⟩
  | succ k ih =>
      obtain ⟨htoken, hexpr, hloop⟩ := ih
      refine ⟨fun s t h => ?_, fun s t h => ?_, fun c s s' h => ?_⟩
      · by_cases hstop : s.Stops A
        · rw [getToken_stop hstop] at h
          obtain rfl := Option.some.inj h
          exact List.Subset.refl _
        · obtain ⟨b, p, hs, -⟩ := exists_piece hstop
          rw [getToken_piece hstop hs] at h
          have hskip : s.writes ⊆ (s.skip A).next.writes := List.Subset.refl _
          split_ifs at h
          · obtain rfl := Option.some.inj h
            exact hskip
          · obtain ⟨u, hphrase, rfl⟩ := Option.map_eq_some_iff.mp h
            exact List.Subset.trans (List.Subset.trans hskip (writes_getPhrase hphrase))
                (writes_cellNew _)
          · obtain ⟨u, hgroup, rfl⟩ := Option.map_eq_some_iff.mp h
            exact List.Subset.trans (List.Subset.trans hskip (hexpr _ _ hgroup)) (writes_cellNew _)
          · obtain rfl := Option.some.inj h
            exact List.Subset.trans (writes_simpleToken (s := s.skip A) b) (writes_cellNew _)
      · rw [Parser.getExpr] at h
        obtain ⟨⟨r, s₁⟩, hfirst, h⟩ := Option.bind_eq_some_iff.mp h
        obtain ⟨s₂, hrest, rfl⟩ := Option.map_eq_some_iff.mp h
        exact List.Subset.trans (htoken _ _ hfirst) (hloop _ _ _ hrest)
      · cases c with
        | none =>
            rw [Parser.exprLoop] at h
            obtain rfl := Option.some.inj h
            exact List.Subset.refl _
        | some c =>
            rw [Parser.exprLoop] at h
            obtain ⟨⟨c', s₁⟩, hnext, h⟩ := Option.bind_eq_some_iff.mp h
            exact List.Subset.trans (htoken _ _ hnext)
              (List.Subset.trans (writes_setCdr c c') (hloop _ _ _ h))

theorem Overran.mono (h : s.Overran A) (hsub : s.writes ⊆ s'.writes) : s'.Overran A := by
  obtain ⟨w, hw, hle⟩ := h
  exact ⟨w, hsub hw, hle⟩

end ParseState

end

end Senna.Query
