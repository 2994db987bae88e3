/-
# When the parser stays inside its pool

The post-condition of the calls of the parser gives both directions: a walk over the pieces
that stays inside the pool is a run of the parser that terminates, and a run that writes no
cell behind the pool is such a walk.

The walk is then counted. `need` are the cells of the pieces, a parenthesis included when it
is opened; the parser stays inside the pool if the pieces it reaches need no more cells than
there are, or if the pool is used up at a place outside all parentheses, where nobody takes
another cell.
-/

import Senna.Query.CellPool

namespace Senna.Query

open Senna.Snip (SenEncoding)
open Senna.Index (senIsspace)
open Senna.Lib

namespace ParseState

variable {A : Parser} {str : List UInt8} {K : List (List UInt8)} {s s' : ParseState}

theorem Good.skip (h : s.Good A str K) : (s.skip A).Good A str K := by
  obtain ⟨C, hinside, hkeywords⟩ := h
  refine ⟨C, hinside.moveTo (skipSpace_suffix _ _), ?_⟩
  rw [rest_skip, pieces_skipSpace, hkeywords]

/-- The call that returns at once. -/
theorem returned_stop (h : s.Good A str K) (hstop : s.Stops A) : Returned A s (s.skip A) := by
  obtain ⟨C, hinside, -⟩ := h
  have hcells := hinside.cells
  refine ⟨?_, fun d => ?_, ?_⟩
  · rcases hstop with hlimit | hnil
    · exact (fineAt_stop hlimit).mpr hcells
    · rw [Fine, hnil]
      exact hcells
  · rw [rest_skip, pieces_skipSpace]
    show _ ↔ FineAt A.maxCells A.maxExprs d (s.curCell + 1) s.curExpr _
    rcases hstop with hlimit | hnil
    · rw [Fine, fineAt_stop hlimit, fineAt_stop (hlimit.imp_right Nat.le_succ_of_le)]
      omega
    · rw [Fine, hnil, FineAt, FineAt]
      omega
  · rw [rest_skip]
    exact (skipSpace_suffix _ _).length_le

/-- The cell that links a token to the list. -/
theorem tokenPost_cons {C : List (List UInt8)} {u : Option Nat × ParseState}
    (hinside : u.2.Inside A str C) (hkeywords : C ++ keywordsOf (pieces A.encoding u.2.rest) = K)
    (hfine : ∀ d, s.Fine A d ↔
      FineAt A.maxCells A.maxExprs d (u.2.curCell + 1) u.2.curExpr (pieces A.encoding u.2.rest))
    (hrest : u.2.rest.length < s.rest.length) :
    TokenPost A str K s (A.cons u.1 none u.2) := by
  rw [Parser.cons]
  rcases hinside.cells.lt_or_eq with hlt | heq
  · rw [cellNew_of_lt hlt]
    have htaken : (u.2.taken (.list u.1 none)).Inside A str (C ++ []) :=
      hinside.taken hlt (c := .list u.1 none) (fun _ _ heq => nomatch heq)
    rw [List.append_nil] at htaken
    exact Or.inr ⟨⟨C, htaken, hkeywords⟩, hlt, hfine, hrest⟩
  · refine Or.inl ⟨overran_cellNew heq _, fun d hd => ?_⟩
    exact not_fineAt (by omega) ((hfine d).mp hd)

/-- A token that is neither in parentheses nor broken. -/
theorem tokenPost_took {C : List (List UInt8)} {x : Piece} {p : List UInt8} (hx : x.Simple)
    (hkeywords : C ++ keywordsOf (pieces A.encoding s.rest) = K)
    (hlimits : ¬(A.maxExprs ≤ s.curExpr ∨ A.maxCells ≤ s.curCell))
    (hpieces : pieces A.encoding s.rest = x :: pieces A.encoding p)
    (hp : p.length < s.rest.length) (s₀ : ParseState) (hcell : s₀.curCell = s.curCell)
    (hexpr : s₀.curExpr = s.curExpr) {u : Option Nat × ParseState}
    (htook : Took A str C s₀ x.keyword x.ownCells p u.2) :
    TokenPost A str K s (A.cons u.1 none u.2) := by
  refine tokenPost_cons htook.inside ?_ (fun d => ?_) (htook.rest ▸ hp)
  · rw [hpieces] at hkeywords
    rw [htook.rest, List.append_assoc]
    exact hkeywords
  · rw [Fine, hpieces, fineAt_simple hx hlimits, htook.rest, htook.curCell, htook.curExpr, hcell,
      hexpr]
    exact Iff.rfl

/-- The piece at a byte that is no quotation mark and no parenthesis. -/
theorem pieceAt_simple {encoding : SenEncoding} {b : UInt8} (p : List UInt8) (hclose : b ≠ 0x29)
    (hquote : b ≠ 0x22) (hopen : b ≠ 0x28) : (pieceAt encoding b p).1.Simple := by
  rw [pieceAt, if_neg hclose, if_neg hquote, if_neg hopen]
  split_ifs
  · split <;> exact ⟨Piece.noConfusion, Piece.noConfusion, Piece.noConfusion⟩
  · exact ⟨Piece.noConfusion, Piece.noConfusion, Piece.noConfusion⟩
  · dsimp only
    split_ifs <;> exact ⟨Piece.noConfusion, Piece.noConfusion, Piece.noConfusion⟩

/-- **A token** is read from a state inside the pool, if the calls of `get_expr` with this
fuel do what they should. -/
theorem tokenPost_getToken {k : Nat}
    (ih : ∀ s t, s.Good A str K → A.getExpr k s = some t → ExprPost A str K s t.2)
    (h : s.Good A str K) {t : Option Nat × ParseState} (ht : A.getToken (k + 1) s = some t) :
    TokenPost A str K s t := by
  by_cases hstop : s.Stops A
  · rw [getToken_stop hstop] at ht
    obtain rfl := Option.some.inj ht
    exact Or.inr ⟨h.skip, returned_stop h hstop⟩
  obtain ⟨hlimits, -⟩ := not_or.mp hstop
  obtain ⟨C, hinside, hkeywords⟩ := h
  have hlt : s.curCell < A.maxCells := not_le.mp (not_or.mp hlimits).2
  obtain ⟨b, p, hs, hpieces⟩ := exists_piece hstop
  have hrest : (s.skip A).rest = b :: p := (rest_skip A s).trans hs
  have hnext : (s.skip A).next.rest = p := rest_next hrest
  have hinside' : (s.skip A).Inside A str C := hinside.moveTo (skipSpace_suffix _ _)
  have hinside'' : (s.skip A).next.Inside A str C := hinside'.next hrest
  have hlength : p.length < s.rest.length := by
    have hle := (skipSpace_suffix A.encoding s.rest).length_le
    rw [hs, List.length_cons] at hle
    omega
  rw [getToken_piece hstop hs] at ht
  split_ifs at ht with hclose hquote hopen
  · -- the parenthesis ends the call
    obtain rfl := Option.some.inj ht
    rw [pieceAt, if_pos hclose] at hpieces
    refine Or.inr ⟨⟨C, hinside'', ?_⟩, ?_, fun d => ?_, hnext ▸ hlength.le⟩
    · rw [hpieces] at hkeywords
      rw [hnext]
      exact hkeywords
    · rw [Fine, hpieces]
      exact fineAt_closed_zero hlimits
    · rw [Fine, hpieces, fineAt_closed_succ hlimits, hnext]
      exact Iff.rfl
  · obtain ⟨u, hu, rfl⟩ := Option.map_eq_some_iff.mp ht
    rw [pieceAt, if_neg hclose, if_pos hquote] at hpieces
    cases hphrase : phraseText A.encoding p with
    | none =>
        rw [← hnext] at hphrase
        rw [Parser.getPhrase, Parser.phraseLoop_of_none (le_refl _) hphrase] at hu
        cases hu
    | some r =>
        obtain ⟨c, rest⟩ := r
        rw [hphrase] at hpieces
        obtain ⟨t, htook, hall, -⟩ := took_getPhrase hinside'' hlt (hnext.symm ▸ hphrase)
        obtain rfl : u = t := by
          rcases hall k with hnone | hsome
          · rw [hnone] at hu
            cases hu
          · exact Option.some.inj (hu.symm.trans hsome)
        have hle := (phraseText_suffix hphrase).length_le
        exact tokenPost_took (x := .phrase c)
          ⟨Piece.noConfusion, Piece.noConfusion, Piece.noConfusion⟩ hkeywords hlimits hpieces
          (lt_of_le_of_lt hle hlength) (s.skip A).next rfl rfl htook
  · -- a group takes its cell when it is left
    obtain ⟨u, hu, rfl⟩ := Option.map_eq_some_iff.mp ht
    rw [pieceAt, if_neg hclose, if_neg hquote, if_pos hopen] at hpieces
    have hgood : (s.skip A).next.Good A str K := by
      refine ⟨C, hinside'', ?_⟩
      rw [hpieces] at hkeywords
      rw [hnext]
      exact hkeywords
    have hfine (d : Nat) : s.Fine A d ↔ (s.skip A).next.Fine A (d + 1) := by
      rw [Fine, hpieces, fineAt_opened hlimits, Fine, hnext]
      exact Iff.rfl
    rcases ih _ u hgood hu with ⟨hover, hnot⟩ | ⟨⟨C', hinside₁, hkeywords₁⟩, hreturned⟩
    · exact Or.inl ⟨hover.mono (writes_cellNew _), fun d hd => hnot _ ((hfine d).mp hd)⟩
    · refine tokenPost_cons hinside₁ hkeywords₁ (fun d => ?_) ?_
      · rw [hfine, hreturned.enclosed]
      · have hle := hreturned.rest
        rw [hnext] at hle
        exact lt_of_le_of_lt hle hlength
  · obtain rfl := Option.some.inj ht
    have htook := took_simpleToken hinside' hlt hrest hclose hquote hopen
    have hle : (pieceAt A.encoding b p).2.length < (b :: p).length := by
      refine pieceAt_lt ?_
      have hspace := skipSpace_stop A.encoding s.rest
      rw [hs] at hspace
      exact hspace.resolve_left (List.cons_ne_nil b p)
    exact tokenPost_took (pieceAt_simple p hclose hquote hopen) hkeywords hlimits hpieces
      (lt_of_lt_of_le hle hlength) (s.skip A) rfl rfl htook

/-- A call that reads on where another one returned. -/
theorem ExprPost.trans (hfine : ∀ d, s.Fine A d ↔ s'.Fine A d)
    (hrest : s'.rest.length ≤ s.rest.length) {s'' : ParseState} (h : ExprPost A str K s' s'') :
    ExprPost A str K s s'' := by
  rcases h with ⟨hover, hnot⟩ | ⟨hgood, hreturned⟩
  · exact Or.inl ⟨hover, fun d hd => hnot d ((hfine d).mp hd)⟩
  · exact Or.inr ⟨hgood, (hfine 0).mpr hreturned.outermost,
      fun d => (hfine (d + 1)).trans (hreturned.enclosed d), hreturned.rest.trans hrest⟩

/-- Linking the list changes nothing for the walk. -/
theorem TokenPost.setCdr {i : Nat} (hi : i < A.maxCells) (cdr : Option Nat)
    {t : Option Nat × ParseState} (h : TokenPost A str K s t) :
    TokenPost A str K s (t.1, A.setCdr i cdr t.2) := by
  obtain ⟨r, s₁⟩ := t
  rcases h with ⟨hover, hnot⟩ | ⟨⟨C, hinside, hkeywords⟩, hnext⟩
  · exact Or.inl ⟨hover.mono (writes_setCdr i cdr), hnot⟩
  · obtain ⟨hset, hcell, hexpr, hrest⟩ := hinside.setCdr hi cdr
    dsimp only at hset hcell hexpr hrest hkeywords hnext
    refine Or.inr ⟨⟨C, hset, by rw [hrest, hkeywords]⟩, ?_⟩
    cases r with
    | none =>
        refine ⟨hnext.outermost, fun d => ?_, hrest ▸ hnext.rest⟩
        rw [hcell, hexpr, hrest]
        exact hnext.enclosed d
    | some j =>
        refine ⟨hnext.1, fun d => ?_, hrest ▸ hnext.2.2⟩
        rw [hnext.2.1 d, Fine, Fine, hcell, hexpr, hrest]

/-- **The calls of the parser**: what they lead to from a state inside the pool. -/
theorem parser_post (A : Parser) (str : List UInt8) (K : List (List UInt8)) (k : Nat) :
    (∀ s t, s.Good A str K → A.getToken k s = some t → TokenPost A str K s t) ∧
      (∀ s t, s.Good A str K → A.getExpr k s = some t → ExprPost A str K s t.2) ∧
      ∀ i s s', s.Good A str K → i < A.maxCells → A.exprLoop k (some i) s = some s' →
        ExprPost A str K s s' := by
  induction k with
  | zero => exact ⟨nofun, nofun, nofun⟩
  | succ k ih =>
      obtain ⟨htoken, hexpr, hloop⟩ := ih
      have hwrites := (writes_calls (A := A) k).2.2
      have hfirst {s s₁ s₂ : ParseState} {r : Option Nat} (hpost : TokenPost A str K s (r, s₁))
          (hrun : A.exprLoop k r s₁ = some s₂) : ExprPost A str K s s₂ := by
        rcases hpost with ⟨hover, hnot⟩ | ⟨hgood, hnext⟩
        · exact Or.inl ⟨hover.mono (hwrites _ _ _ hrun), hnot⟩
        · cases r with
          | none =>
              obtain ⟨j, rfl⟩ : ∃ j, k = j + 1 := by
                cases k with
                | zero => rw [Parser.exprLoop] at hrun; cases hrun
                | succ j => exact ⟨j, rfl⟩
              rw [Parser.exprLoop] at hrun
              obtain rfl := Option.some.inj hrun
              exact Or.inr ⟨hgood, hnext⟩
          | some i => exact (hloop i _ _ hgood hnext.1 hrun).trans hnext.2.1 hnext.2.2.le
      refine ⟨fun s t h ht => tokenPost_getToken hexpr h ht, fun s t h ht => ?_,
        fun i s s' h hi hrun => ?_⟩
      · rw [Parser.getExpr] at ht
        obtain ⟨⟨r, s₁⟩, hcall, ht⟩ := Option.bind_eq_some_iff.mp ht
        obtain ⟨s₂, hrun, rfl⟩ := Option.map_eq_some_iff.mp ht
        exact hfirst (htoken _ _ h hcall) hrun
      · rw [Parser.exprLoop] at hrun
        obtain ⟨⟨c, s₁⟩, hcall, hrun⟩ := Option.bind_eq_some_iff.mp hrun
        exact hfirst ((htoken _ _ h hcall).setCdr hi c) hrun

/-- A token is read in finitely many rounds, if a group in it is. -/
theorem settles_getToken {d : Nat} (h : s.Good A str K) (hfine : s.Fine A d)
    (ih : ∀ s' d', s'.Good A str K → s'.Fine A d' → s'.rest.length < s.rest.length →
      ∃ t, Settles (fun k => A.getExpr k s') t) :
    ∃ t, Settles (fun k => A.getToken k s) t := by
  by_cases hstop : s.Stops A
  · exact ⟨_, Settles.succ (fun k => getToken_stop hstop k) (Settles.pure _)⟩
  obtain ⟨hlimits, -⟩ := not_or.mp hstop
  obtain ⟨C, hinside, hkeywords⟩ := h
  have hlt : s.curCell < A.maxCells := not_le.mp (not_or.mp hlimits).2
  obtain ⟨b, p, hs, hpieces⟩ := exists_piece hstop
  have hrest : (s.skip A).rest = b :: p := (rest_skip A s).trans hs
  have hnext : (s.skip A).next.rest = p := rest_next hrest
  have hinside' : (s.skip A).next.Inside A str C :=
    (hinside.moveTo (skipSpace_suffix _ _)).next hrest
  have htoken := getToken_piece hstop hs
  rw [Fine, hpieces] at hfine
  rw [hpieces] at hkeywords
  by_cases hclose : b = 0x29
  · exact ⟨_, Settles.succ (fun k => (htoken k).trans (if_pos hclose)) (Settles.pure _)⟩
  simp only [if_neg hclose] at htoken
  rw [pieceAt, if_neg hclose] at hfine hkeywords
  by_cases hquote : b = 0x22
  · simp only [if_pos hquote] at htoken hfine hkeywords
    cases hphrase : phraseText A.encoding p with
    | none =>
        rw [hphrase] at hfine
        exact absurd hfine (fineAt_broken hlimits)
    | some r =>
        obtain ⟨t, -, -, hset⟩ := took_getPhrase hinside' hlt (hnext.symm ▸ hphrase)
        have hsettles : Settles (fun k => A.getPhrase k (s.skip A).next) t := ⟨_, hset⟩
        exact ⟨_, Settles.succ htoken (hsettles.map _)⟩
  simp only [if_neg hquote] at htoken hfine hkeywords
  by_cases hopen : b = 0x28
  · simp only [if_pos hopen] at htoken hfine hkeywords
    have hlength : (s.skip A).next.rest.length < s.rest.length := by
      have hle := (skipSpace_suffix A.encoding s.rest).length_le
      rw [hs, List.length_cons] at hle
      rw [hnext]
      omega
    have hinner : (s.skip A).next.Fine A (d + 1) := by
      rw [Fine, hnext]
      exact (fineAt_opened hlimits).mp hfine
    obtain ⟨t, hset⟩ := ih _ _ ⟨C, hinside', by rw [hnext]; exact hkeywords⟩ hinner hlength
    exact ⟨_, Settles.succ htoken (hset.map _)⟩
  · simp only [if_neg hopen] at htoken
    exact ⟨_, Settles.succ htoken (Settles.pure _)⟩

/-- **Termination**: a walk that stays inside the pool is a run of the parser. The
induction is on the text that is left. -/
theorem settles_calls {d : Nat} (h : s.Good A str K) (hfine : s.Fine A d) :
    (∃ t, Settles (fun k => A.getExpr k s) t) ∧
      ∀ i < A.maxCells, ∃ s', Settles (fun k => A.exprLoop k (some i) s) s' := by
  generalize hn : s.rest.length = n
  induction n using Nat.strong_induction_on generalizing s d with
  | _ n ih =>
      obtain ⟨⟨r, s₁⟩, htoken⟩ := settles_getToken h hfine fun s' d' h' hfine' hlt =>
        (ih _ (hn ▸ hlt) h' hfine' rfl).1
      have hpost : TokenPost A str K s (r, s₁) := by
        obtain ⟨k, hk⟩ := htoken
        exact (parser_post A str K k).1 _ _ h (hk k (le_refl k))
      have hloop {s₁ : ParseState} (hpost : TokenPost A str K s (r, s₁)) :
          ∃ s₂, Settles (fun k => A.exprLoop k r s₁) s₂ := by
        rcases hpost with ⟨-, hnot⟩ | ⟨hgood, hnext⟩
        · exact absurd hfine (hnot d)
        · cases r with
          | none => exact ⟨s₁, Settles.succ (fun k => by rw [Parser.exprLoop]) (Settles.pure _)⟩
          | some i =>
              exact (ih _ (hn ▸ hnext.2.2) hgood ((hnext.2.1 d).mp hfine) rfl).2 i hnext.1
      refine ⟨?_, fun i hi => ?_⟩
      · obtain ⟨s₂, hset⟩ := hloop hpost
        refine ⟨(r, s₂), Settles.succ (fun k => ?_) (Settles.bind
          (g := fun k t => (A.exprLoop k t.1 t.2).map fun s => (t.1, s)) htoken
          (hset.map fun s => (r, s)))⟩
        rw [Parser.getExpr]
      · obtain ⟨s₂, hset⟩ := hloop (hpost.setCdr hi r)
        refine ⟨s₂, Settles.succ (fun k => ?_) (Settles.bind
          (g := fun k t => A.exprLoop k t.1 (A.setCdr i t.1 t.2)) htoken hset)⟩
        rw [Parser.exprLoop]

end ParseState

/-- The pieces the parser can reach: up to the last keyword it counts, to a parenthesis that
closes nothing and to a phrase it never leaves. `d` groups are open and `e` keywords are
read. -/
def reached (maxExprs : Nat) : Nat → Nat → List Piece → List Piece
  | _, _, [] => []
  | d, e, x :: ps =>
      if maxExprs ≤ e then []
      else
        match x, d with
        | .broken, _ => [.broken]
        | .closed, 0 => []
        | .closed, d + 1 => .closed :: reached maxExprs d e ps
        | .opened, d => .opened :: reached maxExprs (d + 1) e ps
        | x, d => x :: reached maxExprs d (e + x.keyword.length) ps

/-- The cells for a piece: one for a group, and for a token that is not empty two. -/
def Piece.need : Piece → Nat
  | .opened => 1
  | .closed => 0
  | x => x.cells

/-- The cells for the pieces. -/
def need (ps : List Piece) : Nat := (ps.map Piece.need).sum

/-- The pieces `R` fit into the pool: there is a cell for every one of them, or the pool is
used up exactly at a place outside all groups. -/
def FitsPool (maxCells : Nat) (R : List Piece) : Prop :=
  (.broken ∉ R ∧ need R ≤ maxCells) ∨
    ∃ G, G <+: R ∧ .broken ∉ G ∧ need G = maxCells ∧ G.count .opened = G.count .closed

section

variable {maxCells maxExprs : Nat}

theorem reached_simple {x : Piece} (hx : x.Simple) {d e : Nat} (h : ¬maxExprs ≤ e)
    (ps : List Piece) :
    reached maxExprs d e (x :: ps) = x :: reached maxExprs d (e + x.keyword.length) ps := by
  obtain ⟨hbroken, hclosed, hopened⟩ := hx
  conv_lhs => unfold reached
  rw [if_neg h]
  cases x with
  | broken => exact absurd rfl hbroken
  | closed => exact absurd rfl hclosed
  | opened => exact absurd rfl hopened
  | _ => rfl

/-- `FitsPool` in the middle of a walk. -/
def FitsFrom (maxCells d c : Nat) (R : List Piece) : Prop :=
  (.broken ∉ R ∧ c + d + need R ≤ maxCells) ∨
    ∃ G, G <+: R ∧ .broken ∉ G ∧ c + d + need G = maxCells ∧
      d + G.count .opened = G.count .closed

theorem fitsFrom_nil {d c : Nat} : FitsFrom maxCells d c [] ↔ c + d ≤ maxCells := by
  constructor
  · rintro (⟨-, hle⟩ | ⟨G, hG, -, hneed, -⟩)
    · exact hle
    · rw [List.prefix_nil.mp hG] at hneed
      exact hneed.le
  · intro hle
    exact Or.inl ⟨List.not_mem_nil, hle⟩

/-- Where the pool is used up, the open groups decide. -/
theorem fitsFrom_full {d c : Nat} (h : maxCells ≤ c) (R : List Piece) :
    FitsFrom maxCells d c R ↔ c + d ≤ maxCells := by
  constructor
  · rintro (⟨-, hle⟩ | ⟨G, -, -, hneed, -⟩) <;> omega
  · intro hle
    obtain ⟨rfl, rfl⟩ : c = maxCells ∧ d = 0 := by omega
    exact Or.inr ⟨[], List.nil_prefix, List.not_mem_nil, rfl, rfl⟩

/-- One piece further. -/
theorem fitsFrom_cons {d d' c c' : Nat} {x : Piece} {R : List Piece} (hx : x ≠ .broken)
    (hlt : c < maxCells) (hneed : c + d + x.need = c' + d')
    (hgroups : d + [x].count .opened = d' + [x].count .closed) :
    FitsFrom maxCells d c (x :: R) ↔ FitsFrom maxCells d' c' R := by
  have hmem (G : List Piece) : .broken ∉ x :: G ↔ .broken ∉ G := by
    rw [List.mem_cons, not_or]
    exact and_iff_right hx.symm
  have hsum (G : List Piece) : need (x :: G) = x.need + need G := List.sum_cons
  have hcount (y : Piece) (G : List Piece) : (x :: G).count y = [x].count y + G.count y := by
    rw [← List.singleton_append, List.count_append]
  rw [FitsFrom, FitsFrom, hmem, hsum]
  refine or_congr (and_congr_right fun _ => by omega) ⟨?_, ?_⟩
  · rintro ⟨G, hG, hbroken, hfull, hbalance⟩
    cases G with
    | nil =>
        simp only [need, List.map_nil, List.sum_nil, List.count_nil] at hfull hbalance
        omega
    | cons y G =>
        obtain ⟨rfl, hG'⟩ := List.cons_prefix_cons.mp hG
        rw [hcount .opened, hcount .closed] at hbalance
        rw [hsum] at hfull
        exact ⟨G, hG', (hmem G).mp hbroken, by omega, by omega⟩
  · rintro ⟨G, hG, hbroken, hfull, hbalance⟩
    refine ⟨x :: G, List.cons_prefix_cons.mpr ⟨rfl, hG⟩, (hmem G).mpr hbroken, ?_, ?_⟩
    · rw [hsum]
      omega
    · rw [hcount .opened, hcount .closed]
      omega

/-- **The walk in closed form.** -/
theorem fineAt_iff (d c e : Nat) (ps : List Piece) :
    FineAt maxCells maxExprs d c e ps ↔ FitsFrom maxCells d c (reached maxExprs d e ps) := by
  induction ps generalizing d c e with
  | nil =>
      rw [reached, fitsFrom_nil]
      exact Iff.rfl
  | cons x ps ih =>
      by_cases hexpr : maxExprs ≤ e
      · rw [fineAt_stop (Or.inl hexpr), show reached maxExprs d e (x :: ps) = [] by
          unfold reached; exact if_pos hexpr, fitsFrom_nil]
      by_cases hcell : maxCells ≤ c
      · rw [fineAt_stop (Or.inr hcell), fitsFrom_full hcell]
      have hgo := not_or.mpr ⟨hexpr, hcell⟩
      have hlt := not_le.mp hcell
      have hsimple (hx : x.Simple) (hneed : x.need = x.cells) :
          FineAt maxCells maxExprs d c e (x :: ps) ↔
            FitsFrom maxCells d c (reached maxExprs d e (x :: ps)) := by
        have hopened : [x].count .opened = 0 :=
          List.count_singleton.trans (if_neg (by simpa using hx.2.2))
        have hclosed : [x].count .closed = 0 :=
          List.count_singleton.trans (if_neg (by simpa using hx.2.1))
        rw [fineAt_simple hx hgo, reached_simple hx hexpr, ih]
        refine (fitsFrom_cons hx.1 hlt ?_ ?_).symm
        · omega
        · rw [hopened, hclosed]
      cases x with
      | broken =>
          rw [reached, if_neg hexpr]
          refine iff_of_false (fineAt_broken hgo) ?_
          rintro (⟨hbroken, -⟩ | ⟨G, hG, hbroken, hfull, hbalance⟩)
          · exact hbroken (List.mem_singleton_self _)
          · cases G with
            | nil =>
                simp only [need, List.map_nil, List.sum_nil, List.count_nil] at hfull hbalance
                omega
            | cons y G =>
                obtain ⟨rfl, -⟩ := List.cons_prefix_cons.mp hG
                exact hbroken List.mem_cons_self
      | closed =>
          cases d with
          | zero =>
              rw [reached, if_neg hexpr, fitsFrom_nil]
              exact iff_of_true (fineAt_closed_zero hgo) hlt.le
          | succ d =>
              rw [reached, if_neg hexpr, fineAt_closed_succ hgo, ih]
              refine (fitsFrom_cons (by decide) hlt ?_ ?_).symm
              · rw [Piece.need]
                omega
              · rfl
      | opened =>
          rw [reached, if_neg hexpr, fineAt_opened hgo, ih]
          refine (fitsFrom_cons (by decide) hlt ?_ ?_).symm
          · rw [Piece.need]
            omega
          · rfl
      | _ => exact hsimple ⟨nofun, nofun, nofun⟩ rfl

end

/-- The parser takes its cells from the pool: it terminates, writes no cell behind the pool
and reads no byte behind the text, and the bulk cells hold the keywords of the text as far as
it was read. -/
def StaysInPool (encoding : SenEncoding) (str : List UInt8) (defaultOp : SelOperator)
    (maxExprs : Nat) (image : PoolCell → List UInt8) : Prop :=
  ∃ r s, Settles (fun k => senQueryOpen encoding str defaultOp maxExprs image k) (r, s) ∧
    (∀ w ∈ s.writes, w.index < maxExprs * 4 ∧ w.cur ≤ str.length) ∧ s.cur ≤ str.length ∧
    (∀ i value size, s.pool i = some (.bulk value size) → value + size ≤ str.length) ∧
    s.bulks ++ keywordsOf (pieces encoding s.rest) =
      keywordsOf (pieces encoding (openPragmas encoding str defaultOp).cur)

/-- The pieces of a query that the parser can reach. -/
def queryPieces (encoding : SenEncoding) (str : List UInt8) (defaultOp : SelOperator)
    (maxExprs : Nat) : List Piece :=
  reached maxExprs 0 0 (pieces encoding (openPragmas encoding str defaultOp).cur)

section

variable (encoding : SenEncoding) (str : List UInt8) (defaultOp : SelOperator) (maxExprs : Nat)
  (image : PoolCell → List UInt8)

theorem rest_start {text cur : List UInt8} (h : cur <:+ text) :
    (Parser.start text cur).rest = cur :=
  (List.suffix_iff_eq_drop.mp h).symm

/-- The parser begins with an empty pool. -/
theorem good_start (A : Parser) {cur : List UInt8} (h : cur <:+ str) :
    (Parser.start str cur).Good A str (keywordsOf (pieces A.encoding cur)) := by
  refine ⟨[], ⟨rfl, Nat.sub_le _ _, Nat.zero_le _, nofun, nofun, rfl⟩, ?_⟩
  rw [rest_start h, List.nil_append]

/-- The runs that stay inside the pool. -/
theorem staysInPool_iff_fine :
    StaysInPool encoding str defaultOp maxExprs image ↔
      FineAt (maxExprs * 4) maxExprs 0 0 0
        (pieces encoding (openPragmas encoding str defaultOp).cur) := by
  have hsuffix := openPragmas_suffix encoding str defaultOp
  have hgood := good_start str (openParser encoding str defaultOp maxExprs image) hsuffix
  have hfine : (Parser.start str (openPragmas encoding str defaultOp).cur).Fine
      (openParser encoding str defaultOp maxExprs image) 0 ↔
      FineAt (maxExprs * 4) maxExprs 0 0 0
        (pieces encoding (openPragmas encoding str defaultOp).cur) := by
    rw [ParseState.Fine, rest_start hsuffix]
    exact Iff.rfl
  rw [← hfine]
  constructor
  · rintro ⟨r, s, ⟨n, hn⟩, hwrites, -⟩
    rcases (ParseState.parser_post _ str _ n).2.1 _ _ hgood (hn n (le_refl n)) with
      ⟨⟨w, hw, hle⟩, -⟩ | ⟨-, hreturned⟩
    · exact absurd (hwrites w hw).1 (not_lt.mpr hle)
    · exact hreturned.outermost
  · intro h
    obtain ⟨⟨r, s⟩, hset⟩ := (ParseState.settles_calls hgood h).1
    obtain ⟨n, hn⟩ := hset
    rcases (ParseState.parser_post _ str _ n).2.1 _ _ hgood (hn n (le_refl n)) with
      ⟨-, hnot⟩ | ⟨⟨C, hinside, hkeywords⟩, -⟩
    · exact absurd h (hnot 0)
    · refine ⟨r, s, ⟨n, hn⟩, hinside.writes, hinside.cur_le, fun i value size hi => ?_, ?_⟩
      · exact (hinside.ranges i value size hi).trans hinside.cur_le
      · rw [hinside.bulks]
        exact hkeywords

/-- **The pool of cells is large enough** exactly for the queries whose pieces fit into
it. -/
theorem staysInPool_iff :
    StaysInPool encoding str defaultOp maxExprs image ↔
      FitsPool (maxExprs * 4) (queryPieces encoding str defaultOp maxExprs) := by
  rw [staysInPool_iff_fine, fineAt_iff, FitsFrom, FitsPool, queryPieces]
  simp only [Nat.zero_add]

end

/-- A piece at the beginning of the text. -/
theorem pieces_cons {encoding : SenEncoding} {b : UInt8} {p : List UInt8} (hb : b ≠ 0)
    (hspace : senIsspace encoding (b :: p) = 0) :
    pieces encoding (b :: p) =
      (pieceAt encoding b p).1 :: pieces encoding (pieceAt encoding b p).2 := by
  have hskip : skipSpace encoding (b :: p) = b :: p := by
    rw [skipSpace, if_pos (Or.inr hspace)]
  rw [pieces_of_cons hskip, if_neg hb]

/-- A text without pragmas. -/
theorem cur_openPragmas {encoding : SenEncoding} {b : UInt8} {p : List UInt8} (hb : b ≠ 0x2a)
    (defaultOp : SelOperator) : (openPragmas encoding (b :: p) defaultOp).cur = b :: p := by
  rw [openPragmas, getPragma, getPragmaLoop]
  rintro c start heq
  exact hb (List.cons.inj heq).1

/-- Five parentheses take a cell more than there are for one keyword, and a phrase with a
byte that is no character is never left. -/
theorem staysInPool_fails :
    ¬StaysInPool .utf8 [0x28, 0x28, 0x28, 0x28, 0x28] .or 1 (fun _ => []) ∧
      ¬StaysInPool .utf8 [0x22, 0xff] .or 1 (fun _ => []) := by
  have hnil : pieces .utf8 [] = [] := pieces_of_nil (by rw [skipSpace, if_pos (Or.inl rfl)])
  constructor
  · have hopened (p : List UInt8) : pieces .utf8 (0x28 :: p) = .opened :: pieces .utf8 p :=
      pieces_cons (by decide) rfl
    rw [staysInPool_iff_fine, cur_openPragmas (by decide), hopened, hopened, hopened, hopened,
      hopened, hnil]
    simp [FineAt]
  · have hphrase : phraseText .utf8 [0xff] = none := phraseText_of_broken (by decide) (by decide)
    have hbroken : pieceAt .utf8 0x22 [0xff] = (.broken, []) := by
      rw [pieceAt, hphrase]
      rfl
    rw [staysInPool_iff_fine, cur_openPragmas (by decide), pieces_cons (by decide) rfl, hbroken]
    simp [FineAt]

end Senna.Query
