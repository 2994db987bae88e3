/-
# Highlighting a query

`sen_query_snip` walks the cells a third time, after `exec_query` and `scan_query`, and
registers the keywords to be highlighted: those under an even number of `but` operators.
A keyword occurs in the query at a place, so the walks are compared by marks, one for
each keyword of the expression from left to right.

`snip_query` has no counterpart to the branch of the other walks that drops the operand
of a leading `but`.
-/

import Senna.Query.Scan
import Senna.Snip.Open

namespace Senna.Query

open Senna.Snip

universe u

/-- What `snip_query` changes: `q->opt` and the snippet object. -/
structure SnipState where
  opt : SelectOptarg
  snip : SenSnip

section

variable (nstrOpen : List UInt8 → Option (List UInt8)) (q : SenQuery) (nTags : Nat)
  (opentags closetags : List (Option (List UInt8)))

/-- `q->opt.mode` for a keyword after the operator cell `ope`. -/
def SenQuery.modeFor (ope : Option Op) : SelMode :=
  match ope with
  | some o => o.mode.getD q.defaultMode
  | none => q.defaultMode

mutual

/-- The `switch` of `snip_query` for an operand, with `op` for `*opp`; `none` for the
remainder by zero without tags. -/
def snipCell : Cell → Option Op → SelOperator → Bool → SnipState → Option (SenRc × SnipState)
  | .nil, _, _, _, s => some (.success, s)
  | .op _, _, _, _, s => some (.success, s)
  | .bulk v, ope, op, cBut, s =>
      let s := { s with opt := { s.opt with mode := q.modeFor ope } }
      if !(cBut ^^ decide (op = .but)) then
        if nTags = 0 then none
        else
          let i := s.snip.conds.length % nTags
          let (rc, snip) :=
            senSnipAddCond nstrOpen s.snip v (opentags.getD i none) (closetags.getD i none)
          some (rc, { s with snip := snip })
      else some (.success, s)
  | .list l, _, op, cBut, s =>
      -- the return code of the nested call is not looked at
      (snipCells l true none q.defaultOp (cBut ^^ decide (op = .but)) s).map fun (_, s) =>
        (.success, s)

/-- The loop of `snip_query`. `first` says that `opp` still points to `op0`. -/
def snipCells : List Cell → Bool → Option Op → SelOperator → Bool → SnipState →
    Option (SenRc × SnipState)
  | [], _, _, _, _, s => some (.success, s)
  | .op o :: c, first, _, _, cBut, s => snipCells c first (some o) o.op cBut s
  | e :: c, first, ope, op1, cBut, s =>
      (snipCell e ope (if first then .or else op1) cBut s).bind fun (rc, s) =>
        if rc = .success then snipCells c false none q.defaultOp cBut s else some (rc, s)

end

/-- `sen_query_snip`: the query afterwards, and the snippet object or `NULL`. -/
def senQuerySnip (encoding : SenEncoding) (flags : SnipFlags) (width maxResults : Nat)
    (mapping : SnipMapping) : Option (SenQuery × Option SenSnip) :=
  match senSnipOpen encoding flags width maxResults [] [] mapping with
  | none => some (q, none)
  | some snip =>
      (snipCells nstrOpen q nTags opentags closetags q.expr true none q.defaultOp false
        ⟨q.opt, snip⟩).map fun (rc, s) =>
          ({ q with opt := s.opt }, if rc = .success then some s.snip else none)

end

mutual

/-- All keywords of a cell, in order. -/
def Cell.keywords : Cell → List (List UInt8)
  | .nil => []
  | .op _ => []
  | .bulk v => [v]
  | .list l => keywords l

/-- All keywords of a list of cells, evaluated or not, in order. -/
def keywords : List Cell → List (List UInt8)
  | [] => []
  | e :: c => e.keywords ++ keywords c

end

/-- The elements that are marked. -/
def pick {α : Type u} : List Bool → List α → List α
  | m :: ms, x :: xs => if m then x :: pick ms xs else pick ms xs
  | _, _ => []

section

variable (defaultOp : SelOperator) (verdict : Bool → Bool)

mutual

/-- The marks that `snip_query` gives to an operand joined by `op`. -/
def Cell.snipMarks : Bool → SelOperator → Cell → List Bool
  | _, _, .nil => []
  | _, _, .op _ => []
  | cBut, op, .bulk _ => [!(cBut ^^ decide (op = .but))]
  | cBut, op, .list l => snipMarks (cBut ^^ decide (op = .but)) true none l

/-- The marks that `snip_query` gives. -/
def snipMarks : Bool → Bool → Option Op → List Cell → List Bool
  | _, _, _, [] => []
  | cBut, first, _, .op o :: c => snipMarks cBut first (some o) c
  | cBut, first, ope, e :: c =>
      e.snipMarks cBut (operator defaultOp first ope) ++ snipMarks cBut false none c

end

mutual

/-- The marks of an operand that is evaluated, joined by `op`: the verdict on whether the
number of `but` operators above is odd. -/
def Cell.execMarks : Bool → SelOperator → Cell → List Bool
  | _, _, .nil => []
  | _, _, .op _ => []
  | cBut, op, .bulk _ => [verdict (cBut ^^ decide (op = .but))]
  | cBut, op, .list l => execMarks (cBut ^^ decide (op = .but)) true none l

/-- The marks along the walk of `exec_query` and `scan_query`: an operand that is dropped
has no marked keyword, any other keyword has the verdict on its polarity. -/
def execMarks : Bool → Bool → Option Op → List Cell → List Bool
  | _, _, _, [] => []
  | cBut, first, ope, .op o :: c =>
      if first ∧ o.op = .but then
        match c with
        | [] => []
        | e :: c => e.keywords.map (fun _ => false) ++ execMarks cBut first ope c
      else execMarks cBut first (some o) c
  | cBut, first, ope, e :: c =>
      e.execMarks cBut (operator defaultOp first ope) ++ execMarks cBut false none c

end

end

/-- The keywords that are evaluated and stand under an even number of `but` operators. -/
def evenMarks (defaultOp : SelOperator) (l : List Cell) : List Bool :=
  execMarks defaultOp not false true none l

mutual

/-- No list below the cell starts with `but`. -/
def Cell.NoLeadingBut : Cell → Prop
  | .list l => NoLeadingBut true l
  | _ => True

/-- No operand is dropped: there is no `but` before the first operand, here and in every
list below. -/
def NoLeadingBut : Bool → List Cell → Prop
  | _, [] => True
  | first, .op o :: c => ¬(first ∧ o.op = .but) ∧ NoLeadingBut first c
  | _, e :: c => e.NoLeadingBut ∧ NoLeadingBut false c

end

section

variable (defaultOp : SelOperator)

mutual

/-- `firstDropped` below an operand joined by `op`. -/
def Cell.firstDropped : Bool → SelOperator → Cell → Option (List Bool)
  | cBut, op, .list l => firstDropped (cBut ^^ decide (op = .but)) true none l
  | _, _, _ => none

/-- The marks that `snip_query` gives to the first operand that the other walks drop. -/
def firstDropped : Bool → Bool → Option Op → List Cell → Option (List Bool)
  | _, _, _, [] => none
  | cBut, first, _, .op o :: c =>
      if first ∧ o.op = .but then c.head?.map (Cell.snipMarks defaultOp cBut .or)
      else firstDropped cBut first (some o) c
  | cBut, first, ope, e :: c =>
      (e.firstDropped cBut (operator defaultOp first ope)).or (firstDropped cBut false none c)

end

end

section

variable {α β : Type u}

@[simp]
theorem pick_nil (ms : List Bool) : pick ms ([] : List α) = [] := by
  cases ms <;> rfl

theorem pick_append {ms : List Bool} {xs : List α} (h : ms.length = xs.length)
    (ms' : List Bool) (xs' : List α) :
    pick (ms ++ ms') (xs ++ xs') = pick ms xs ++ pick ms' xs' := by
  induction ms generalizing xs with
  | nil =>
      obtain rfl := List.eq_nil_of_length_eq_zero h.symm
      rfl
  | cons m ms ih =>
      cases xs with
      | nil => exact absurd h (Nat.succ_ne_zero _)
      | cons x xs =>
          have hrec := ih (Nat.succ.inj h)
          cases m with
          | true => exact congrArg (x :: ·) hrec
          | false => exact hrec

theorem length_pick_le (ms : List Bool) (xs : List α) : (pick ms xs).length ≤ xs.length := by
  induction ms generalizing xs with
  | nil => exact Nat.zero_le _
  | cons m ms ih =>
      cases xs with
      | nil => exact Nat.zero_le _
      | cons x xs =>
          cases m with
          | true => exact Nat.succ_le_succ (ih xs)
          | false => exact (ih xs).trans (Nat.le_succ _)

end

section

variable (defaultOp : SelOperator) (verdict : Bool → Bool)

mutual

theorem Cell.length_snipMarks (cBut : Bool) (op : SelOperator) :
    ∀ e : Cell, (e.snipMarks defaultOp cBut op).length = e.keywords.length
  | .nil => rfl
  | .op _ => rfl
  | .bulk _ => rfl
  | .list l => length_snipMarks _ true none l

/-- There is one mark for each keyword. -/
theorem length_snipMarks (cBut : Bool) : ∀ (first : Bool) (ope : Option Op) (c : List Cell),
    (snipMarks defaultOp cBut first ope c).length = (keywords c).length
  | _, _, [] => rfl
  | first, _, .op o :: c => length_snipMarks cBut first (some o) c
  | _, _, .nil :: c => length_snipMarks cBut false none c
  | _, _, .bulk _ :: c => congrArg Nat.succ (length_snipMarks cBut false none c)
  | first, ope, .list l :: c => by
      have hl := Cell.length_snipMarks cBut (operator defaultOp first ope) (.list l)
      have hc := length_snipMarks cBut false none c
      simp only [snipMarks, keywords, List.length_append, hl, hc]

end

mutual

theorem Cell.length_execMarks (cBut : Bool) (op : SelOperator) :
    ∀ e : Cell, (e.execMarks defaultOp verdict cBut op).length = e.keywords.length
  | .nil => rfl
  | .op _ => rfl
  | .bulk _ => rfl
  | .list l => length_execMarks _ true none l

theorem length_execMarks (cBut : Bool) : ∀ (first : Bool) (ope : Option Op) (c : List Cell),
    (execMarks defaultOp verdict cBut first ope c).length = (keywords c).length
  | _, _, [] => rfl
  | first, ope, .op o :: c => by
      unfold execMarks
      split_ifs
      · match c with
        | [] => rfl
        | e :: c =>
            have hc := length_execMarks cBut first ope c
            simp only [keywords, Cell.keywords, List.nil_append, List.length_append,
              List.length_map, hc]
      · exact length_execMarks cBut first (some o) c
  | _, _, .nil :: c => length_execMarks cBut false none c
  | _, _, .bulk _ :: c => congrArg Nat.succ (length_execMarks cBut false none c)
  | first, ope, .list l :: c => by
      have hl := Cell.length_execMarks cBut (operator defaultOp first ope) (.list l)
      have hc := length_execMarks cBut false none c
      simp only [execMarks, keywords, List.length_append, hl, hc]

end

mutual

theorem Cell.NoLeadingBut.marks (cBut : Bool) (op : SelOperator) : ∀ e : Cell, e.NoLeadingBut →
    e.snipMarks defaultOp cBut op = e.execMarks defaultOp not cBut op
  | .nil, _ => rfl
  | .op _, _ => rfl
  | .bulk _, _ => rfl
  | .list l, h => NoLeadingBut.marks _ true none l h

/-- Where no operand is dropped the two walks agree. -/
theorem NoLeadingBut.marks (cBut : Bool) : ∀ (first : Bool) (ope : Option Op) (c : List Cell),
    NoLeadingBut first c →
    snipMarks defaultOp cBut first ope c = execMarks defaultOp not cBut first ope c
  | _, _, [], _ => rfl
  | first, ope, .op o :: c, h => by
      unfold snipMarks execMarks
      rw [if_neg h.1]
      exact NoLeadingBut.marks cBut first (some o) c h.2
  | _, _, .nil :: c, h => NoLeadingBut.marks cBut false none c h.2
  | _, _, .bulk _ :: c, h => congrArg _ (NoLeadingBut.marks cBut false none c h.2)
  | first, ope, .list l :: c, h => by
      have hl := Cell.NoLeadingBut.marks cBut (operator defaultOp first ope) (.list l) h.1
      have hc := NoLeadingBut.marks cBut false none c h.2
      simp only [snipMarks, execMarks, hl, hc]

end

/-- The walks differ on a list if they differ on its first operand or on the rest. -/
theorem snipMarks_ne_cons {first cBut : Bool} {ope : Option Op} {e : Cell} {c : List Cell}
    (he : ∀ o, e ≠ .op o)
    (hne : e.snipMarks defaultOp cBut (operator defaultOp first ope) ≠
        e.execMarks defaultOp not cBut (operator defaultOp first ope) ∨
      snipMarks defaultOp cBut false none c ≠ execMarks defaultOp not cBut false none c) :
    snipMarks defaultOp cBut first ope (e :: c) ≠
      execMarks defaultOp not cBut first ope (e :: c) := by
  have hlen : (e.snipMarks defaultOp cBut (operator defaultOp first ope)).length =
      (e.execMarks defaultOp not cBut (operator defaultOp first ope)).length :=
    (Cell.length_snipMarks _ _ _ _).trans (Cell.length_execMarks _ _ _ _ _).symm
  intro heq
  have happ : e.snipMarks defaultOp cBut (operator defaultOp first ope) ++
        snipMarks defaultOp cBut false none c =
      e.execMarks defaultOp not cBut (operator defaultOp first ope) ++
        execMarks defaultOp not cBut false none c := by
    cases e with
    | op o => exact absurd rfl (he o)
    | _ => simpa only [snipMarks, execMarks] using heq
  obtain ⟨hhead, htail⟩ := List.append_inj happ hlen
  rcases hne with hne | hne
  · exact hne hhead
  · exact hne htail

/-- A marked keyword in an operand that is dropped. -/
theorem snipMarks_ne_of_dropped {cBut : Bool} {ope : Option Op} {o : Op} {e : Cell}
    {c : List Cell} (ho : o.op = .but) (he : true ∈ e.snipMarks defaultOp cBut .or) :
    snipMarks defaultOp cBut true ope (.op o :: e :: c) ≠
      execMarks defaultOp not cBut true ope (.op o :: e :: c) := by
  intro heq
  have hdropped : execMarks defaultOp not cBut true ope (.op o :: e :: c) =
      e.keywords.map (fun _ => false) ++ execMarks defaultOp not cBut true ope c := by
    rw [execMarks, if_pos ⟨rfl, ho⟩]
  have hsnip : snipMarks defaultOp cBut true ope (.op o :: e :: c) =
      e.snipMarks defaultOp cBut .or ++ snipMarks defaultOp cBut false none c := by
    cases e with
    | op _ => exact absurd he List.not_mem_nil
    | _ => rfl
  rw [hdropped, hsnip] at heq
  have hhead := List.append_inj_left heq
    ((Cell.length_snipMarks _ _ _ _).trans (List.length_map _).symm)
  rw [hhead] at he
  obtain ⟨_, _, hfalse⟩ := List.mem_map.mp he
  exact Bool.false_ne_true hfalse

mutual

theorem Cell.firstDropped_ne (cBut : Bool) (op : SelOperator) : ∀ (e : Cell) (ms : List Bool),
    e.firstDropped defaultOp cBut op = some ms → true ∈ ms →
    e.snipMarks defaultOp cBut op ≠ e.execMarks defaultOp not cBut op
  | .nil, _, h, _ => absurd h nofun
  | .op _, _, h, _ => absurd h nofun
  | .bulk _, _, h, _ => absurd h nofun
  | .list l, ms, h, hms => firstDropped_ne _ true none l ms h hms

/-- When the first operand that is dropped has a marked keyword, the walks differ. -/
theorem firstDropped_ne (cBut : Bool) : ∀ (first : Bool) (ope : Option Op) (c : List Cell)
    (ms : List Bool), firstDropped defaultOp cBut first ope c = some ms → true ∈ ms →
    snipMarks defaultOp cBut first ope c ≠ execMarks defaultOp not cBut first ope c
  | _, _, [], _, h, _ => absurd h nofun
  | first, ope, .op o :: c, ms, h, hms => by
      unfold firstDropped at h
      split_ifs at h with hdrop
      · obtain ⟨rfl, ho⟩ := hdrop
        cases c with
        | nil => exact absurd h nofun
        | cons e c =>
            obtain rfl := Option.some.inj h
            exact snipMarks_ne_of_dropped defaultOp ho hms
      · unfold snipMarks execMarks
        rw [if_neg hdrop]
        exact firstDropped_ne cBut first (some o) c ms h hms
  | first, ope, .nil :: c, ms, h, hms =>
      snipMarks_ne_cons defaultOp nofun (Or.inr (firstDropped_ne cBut false none c ms h hms))
  | first, ope, .bulk _ :: c, ms, h, hms =>
      snipMarks_ne_cons defaultOp nofun (Or.inr (firstDropped_ne cBut false none c ms h hms))
  | first, ope, .list l :: c, ms, h, hms => by
      apply snipMarks_ne_cons defaultOp (fun _ h => Cell.noConfusion h)
      rcases Option.or_eq_some_iff.mp h with h | ⟨-, h⟩
      · exact Or.inl (Cell.firstDropped_ne cBut _ (.list l) ms h hms)
      · exact Or.inr (firstDropped_ne cBut false none c ms h hms)

end

end

section

variable {nstrOpen : List UInt8 → Option (List UInt8)} {q : SenQuery} {nTags : Nat}
  {opentags closetags : List (Option (List UInt8))}

/-- The keywords `vs` were registered, one after the other. -/
structure Registered (nstrOpen : List UInt8 → Option (List UInt8)) (vs : List (List UInt8))
    (s s' : SnipState) : Prop where
  keywords : s'.snip.keywords = s.snip.keywords ++ vs.map (keywordOf nstrOpen)
  width : s'.snip.width = s.snip.width

namespace Registered

variable {vs ws : List (List UInt8)} {s s' s'' : SnipState}

theorem trans (h : Registered nstrOpen vs s s') (h' : Registered nstrOpen ws s' s'') :
    Registered nstrOpen (vs ++ ws) s s'' := by
  refine ⟨?_, h'.width.trans h.width⟩
  rw [h'.keywords, h.keywords, List.map_append, List.append_assoc]

theorem length (h : Registered nstrOpen vs s s') :
    s'.snip.conds.length = s.snip.conds.length + vs.length := by
  have hlen := congrArg List.length h.keywords
  simpa only [SenSnip.keywords, List.length_append, List.length_map] using hlen

end Registered

/-- The keywords are usable in the snippet object, and there is room for all of them. -/
structure Fits (nstrOpen : List UInt8 → Option (List UInt8)) (vs : List (List UInt8))
    (s : SnipState) : Prop where
  usable : ∀ v ∈ vs, Usable nstrOpen s.snip.width v
  room : s.snip.conds.length + vs.length ≤ maxSnipCondCount

namespace Fits

variable {vs ws : List (List UInt8)} {s s' : SnipState}

theorem left (h : Fits nstrOpen (vs ++ ws) s) : Fits nstrOpen vs s := by
  refine ⟨fun v hv => h.usable v (List.mem_append_left ws hv), ?_⟩
  have := h.room
  rw [List.length_append] at this
  omega

theorem right {ms : List Bool} (h : Fits nstrOpen (vs ++ ws) s)
    (hs : Registered nstrOpen (pick ms vs) s s') : Fits nstrOpen ws s' := by
  refine ⟨fun v hv => hs.width ▸ h.usable v (List.mem_append_right vs hv), ?_⟩
  have hroom := h.room
  have hpick := length_pick_le ms vs
  rw [List.length_append] at hroom
  rw [hs.length]
  omega

end Fits

mutual

theorem snipCell_spec (hn : nTags ≠ 0) : ∀ (e : Cell) (ope : Option Op) (op : SelOperator)
    (cBut : Bool) (s : SnipState), Fits nstrOpen e.keywords s →
    ∃ s', snipCell nstrOpen q nTags opentags closetags e ope op cBut s = some (.success, s') ∧
      Registered nstrOpen (pick (e.snipMarks q.defaultOp cBut op) e.keywords) s s'
  | .nil, _, _, _, s, _ => ⟨s, rfl, by simp [Cell.keywords], rfl⟩
  | .op _, _, _, _, s, _ => ⟨s, rfl, by simp [Cell.keywords], rfl⟩
  | .bulk v, ope, op, cBut, s, h => by
      unfold snipCell Cell.snipMarks Cell.keywords
      cases hmark : !(cBut ^^ decide (op = .but)) with
      | false => exact ⟨_, rfl, by simp [pick], rfl⟩
      | true =>
          have hroom : s.snip.conds.length < maxSnipCondCount := h.room
          obtain ⟨snip', hadd, hkeywords, hwidth⟩ :=
            (h.usable v List.mem_cons_self).addCond hroom
              (opentags.getD (s.snip.conds.length % nTags) none)
              (closetags.getD (s.snip.conds.length % nTags) none)
          simp only [if_true, if_neg hn, hadd]
          exact ⟨_, rfl, hkeywords, hwidth⟩
  | .list l, _, op, cBut, s, h => by
      obtain ⟨s', hrun, hreg⟩ := snipCells_spec hn l true none q.defaultOp
        (cBut ^^ decide (op = .but)) s rfl h
      exact ⟨s', by rw [snipCell, hrun]; rfl, hreg⟩

/-- **A list of cells.** The loop of `snip_query` registers the keywords it marks. -/
theorem snipCells_spec (hn : nTags ≠ 0) : ∀ (c : List Cell) (first : Bool) (ope : Option Op)
    (op1 : SelOperator) (cBut : Bool) (s : SnipState), op1 = (ope.map Op.op).getD q.defaultOp →
    Fits nstrOpen (keywords c) s →
    ∃ s', snipCells nstrOpen q nTags opentags closetags c first ope op1 cBut s =
        some (.success, s') ∧
      Registered nstrOpen (pick (snipMarks q.defaultOp cBut first ope c) (keywords c)) s s'
  | [], _, _, _, _, s, _, _ => ⟨s, rfl, by simp [keywords], rfl⟩
  | .op o :: c, first, _, _, cBut, s, _, h => snipCells_spec hn c first (some o) o.op cBut s rfl h
  | .nil :: c, _, _, _, cBut, s, _, h => snipCells_spec hn c false none q.defaultOp cBut s rfl h
  | .bulk v :: c, first, ope, op1, cBut, s, hop, h => by
      subst hop
      obtain ⟨s₁, hcell, hreg⟩ :=
        snipCell_spec hn (.bulk v) ope (operator q.defaultOp first ope) cBut s h.left
      obtain ⟨s', hrun, hreg'⟩ :=
        snipCells_spec hn c false none q.defaultOp cBut s₁ rfl (h.right hreg)
      refine ⟨s', ?_, ?_⟩
      · show (snipCell nstrOpen q nTags opentags closetags (.bulk v) ope _ cBut s).bind _ = _
        rw [← operator, hcell]
        exact hrun
      · simp only [snipMarks, keywords]
        rw [pick_append (Cell.length_snipMarks _ _ _ _)]
        exact hreg.trans hreg'
  | .list l :: c, first, ope, op1, cBut, s, hop, h => by
      subst hop
      obtain ⟨s₁, hcell, hreg⟩ :=
        snipCell_spec hn (.list l) ope (operator q.defaultOp first ope) cBut s h.left
      obtain ⟨s', hrun, hreg'⟩ :=
        snipCells_spec hn c false none q.defaultOp cBut s₁ rfl (h.right hreg)
      refine ⟨s', ?_, ?_⟩
      · show (snipCell nstrOpen q nTags opentags closetags (.list l) ope _ cBut s).bind _ = _
        rw [← operator, hcell]
        exact hrun
      · simp only [snipMarks, keywords]
        rw [pick_append (Cell.length_snipMarks _ _ _ _)]
        exact hreg.trans hreg'

end

end

/-- **What is highlighted.** Let the keywords of a query be usable, no wider than the snippet
and at most as many as a snippet object can hold. Then `sen_query_snip` registers the
keywords that `snip_query` marks, in order. Where no operand is dropped these are the
evaluated keywords under an even number of `but` operators. A marked keyword in the first
operand that is dropped is registered nevertheless. -/
theorem senQuerySnip_keywords (nstrOpen : List UInt8 → Option (List UInt8)) (q : SenQuery)
    (encoding : SenEncoding) (flags : SnipFlags) (width maxResults nTags : Nat)
    (opentags closetags : List (Option (List UInt8))) (mapping : SnipMapping)
    (hresults : 0 < maxResults ∧ maxResults ≤ maxSnipResultCount) (hn : 0 < nTags)
    (husable : ∀ v ∈ keywords q.expr, Usable nstrOpen width v)
    (hcount : (keywords q.expr).length ≤ maxSnipCondCount) :
    (∃ q' snip, senQuerySnip nstrOpen q nTags opentags closetags encoding flags width maxResults
        mapping = some (q', some snip) ∧
      snip.keywords = (pick (snipMarks q.defaultOp false true none q.expr)
        (keywords q.expr)).map (keywordOf nstrOpen)) ∧
    (NoLeadingBut true q.expr →
      snipMarks q.defaultOp false true none q.expr = evenMarks q.defaultOp q.expr) ∧
    ∀ ms, firstDropped q.defaultOp false true none q.expr = some ms → true ∈ ms →
      snipMarks q.defaultOp false true none q.expr ≠ evenMarks q.defaultOp q.expr := by
  refine ⟨?_, NoLeadingBut.marks q.defaultOp false true none q.expr,
    firstDropped_ne q.defaultOp false true none q.expr⟩
  obtain ⟨snip, hopen, hconds, hwidth⟩ : ∃ snip,
      senSnipOpen encoding flags width maxResults [] [] mapping = some snip ∧
        snip.conds = [] ∧ snip.width = width := by
    unfold senSnipOpen
    rw [if_neg (by omega)]
    exact ⟨_, rfl, rfl, rfl⟩
  have hfits : Fits nstrOpen (keywords q.expr) ⟨q.opt, snip⟩ := by
    refine ⟨fun v hv => ?_, ?_⟩
    · show Usable nstrOpen snip.width v
      rw [hwidth]
      exact husable v hv
    · show snip.conds.length + _ ≤ _
      rw [hconds, List.length_nil, Nat.zero_add]
      exact hcount
  obtain ⟨s', hrun, hreg⟩ : ∃ s', snipCells nstrOpen q nTags opentags closetags q.expr true none
      q.defaultOp false ⟨q.opt, snip⟩ = some (.success, s') ∧ _ :=
    snipCells_spec (Nat.pos_iff_ne_zero.mp hn) q.expr true none q.defaultOp false ⟨q.opt, snip⟩
      rfl hfits
  refine ⟨{ q with opt := s'.opt }, s'.snip, ?_, ?_⟩
  · unfold senQuerySnip
    rw [hopen]
    simp only [hrun, Option.map_some, if_true]
  · rw [hreg.keywords]
    simp only [SenSnip.keywords, hconds, List.map_nil, List.nil_append]

/-- The query `ab -(b x)` is highlighted by `ab` alone. -/
theorem senQuerySnip_keywords_nested :
    let q := sampleQuery [.bulk [0x61, 0x62], .op ⟨.but, 5, none, 0⟩,
      .list [.bulk [0x62], .bulk [0x78]]]
    (∃ q' snip, senQuerySnip dropBlanks q 1 [] [] .utf8 ⟨false, false, false⟩ 10 1 .null =
        some (q', some snip) ∧
      snip.keywords = (pick (snipMarks q.defaultOp false true none q.expr)
        (keywords q.expr)).map (keywordOf dropBlanks)) ∧
    (NoLeadingBut true q.expr →
      snipMarks q.defaultOp false true none q.expr = evenMarks q.defaultOp q.expr) ∧
    ∀ ms, firstDropped q.defaultOp false true none q.expr = some ms → true ∈ ms →
      snipMarks q.defaultOp false true none q.expr ≠ evenMarks q.defaultOp q.expr := by
  intro q
  refine senQuerySnip_keywords dropBlanks q .utf8 _ 10 1 1 [] [] .null (by decide) (by decide) ?_
    (by decide)
  intro v hv
  have hmem : v = [0x61, 0x62] ∨ v = [0x62] ∨ v = [0x78] := by
    simpa [q, sampleQuery, keywords, Cell.keywords] using hv
  rcases hmem with rfl | rfl | rfl <;> exact ⟨by decide, by decide, by decide⟩

/-- The query `-a b`: the executor and the scanner drop `a`, the highlighter registers it. -/
theorem senQuerySnip_leading_but :
    let q := sampleQuery [.op ⟨.but, 5, none, 0⟩, .bulk [0x61], .bulk [0x62]]
    (∃ q' snip, senQuerySnip dropBlanks q 1 [] [] .utf8 ⟨false, false, false⟩ 10 1 .null =
        some (q', some snip) ∧ snip.keywords = [.opened [0x61], .opened [0x62]]) ∧
    leaves true q.expr = [[0x62]] ∧
    pick (evenMarks q.defaultOp q.expr) (keywords q.expr) = [[0x62]] :=
  ⟨⟨_, _, rfl, rfl⟩, rfl, rfl⟩

end Senna.Query
