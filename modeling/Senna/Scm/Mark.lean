/-
# Marking cells

The collector of the interpreter marks the cells that are reached from a register, by algorithm E of
the source. It has no stack: the way back is kept in the cells themselves. A cell that was left by
its `CAR` has the cell before it there and its `SEN_OBJ_REFERER` unset; one that was left by its
`CDR` has the cell before it there. Coming back restores the cell.

`CAR` and `CDR` count in the cells with `SEN_OBJ_REFERER`. The null pointer is 0. A string that is
not the cell's own is copied in the cell where marking starts and in no other one; allocations
succeed.
-/

import Senna.Lib.Marking

namespace Senna.Scm

open Senna.Lib
open Relation

/-- A cell, as the collector sees it: `SEN_OBJ_MARKED`, `SEN_OBJ_REFERER`, `BULKP`,
`SEN_OBJ_ALLOCATED`, `CAR` and `CDR`. -/
structure ObjCell where
  marked : Bool
  referer : Bool
  bulk : Bool
  allocated : Bool
  car : Nat
  cdr : Nat
  deriving DecidableEq

/-- The cells by their places. -/
abbrev ObjCells := Nat → ObjCell

namespace ObjCells

variable (m : ObjCells)

/-- A cell, changed. -/
def revise (x : Nat) (f : ObjCell → ObjCell) : ObjCells := Function.update m x (f (m x))

/-- The value of a string, copied if it is not the cell's own. -/
def copyBulk (o : Nat) : ObjCells :=
  if (m o).bulk = true ∧ (m o).allocated = false then
    m.revise o fun c => { c with allocated := true }
  else m

end ObjCells

/-- The labels of `obj_mark`. -/
inductive MarkLabel
  | e2
  | e5
  | e6
  deriving DecidableEq

/-- The variables of `obj_mark` at a label, and the cells. -/
structure MarkState where
  label : MarkLabel
  t : Nat
  p : Nat
  cells : ObjCells

/-- The part of `obj_mark` that follows the `CAR` of `p`. -/
def markCar (t p : Nat) (m : ObjCells) : MarkState :=
  if (m p).car ≠ 0 ∧ (m (m p).car).marked = false then
    ⟨.e2, p, (m p).car, m.revise p fun c => { c with referer := false, car := t }⟩
  else ⟨.e5, t, p, m⟩

/-- The part of `obj_mark` that follows the `CDR` of `p`. -/
def markCdr (t p : Nat) (m : ObjCells) : MarkState :=
  if (m p).cdr ≠ 0 ∧ (m (m p).cdr).marked = false then
    ⟨.e2, p, (m p).cdr, m.revise p fun c => { c with cdr := t }⟩
  else ⟨.e6, t, p, m⟩

/-- From a label of `obj_mark` to the next one, or to the end. -/
def objMarkStep (o : Nat) (s : MarkState) : Option MarkState :=
  match s.label with
  | .e2 =>
      let m := (s.cells.revise s.p fun c => { c with marked := true }).copyBulk o
      if (m s.p).referer = false then some ⟨.e6, s.t, s.p, m⟩ else some (markCar s.t s.p m)
  | .e5 => some (markCdr s.t s.p s.cells)
  | .e6 =>
      if s.t = 0 then none
      else if (s.cells s.t).referer = false then
        some ⟨.e5, (s.cells s.t).car, s.t,
          s.cells.revise s.t fun c => { c with referer := true, car := s.p }⟩
      else
        some ⟨.e6, (s.cells s.t).cdr, s.t, s.cells.revise s.t fun c => { c with cdr := s.p }⟩

/-- `obj_mark`, from a label on. -/
def objMarkLoop (o : Nat) : Nat → MarkState → Option ObjCells
  | 0, _ => none
  | k + 1, s => match objMarkStep o s with
      | none => some s.cells
      | some s => objMarkLoop o k s

/-- `obj_mark` -/
def objMark (k : Nat) (m : ObjCells) (o : Nat) : Option ObjCells :=
  objMarkLoop o k ⟨.e2, 0, o, m⟩

/-- A pointer that is not null. -/
def pointer (a : Nat) : Option Nat := if a = 0 then none else some a

theorem pointer_eq_some {a q : Nat} : pointer a = some q ↔ a = q ∧ q ≠ 0 := by
  by_cases ha : a = 0
  · simp [pointer, ha]
    tauto
  · simp only [pointer, if_neg ha, Option.some.injEq]
    exact ⟨fun h => ⟨h, h ▸ ha⟩, And.left⟩

namespace ObjCells

variable {m : ObjCells} {o : Nat}

/-- What the cells point to. -/
def graph (m : ObjCells) : PairGraph Nat where
  inner x := (m x).referer
  left x := pointer (m x).car
  right x := pointer (m x).cdr

/-- A cell is reached from another one. -/
def Reach (m : ObjCells) (o x : Nat) : Prop := ReflTransGen m.graph.Edge o x

/-- The place before the last one of a way back. -/
def top : List (Nat × Bool) → Nat
  | [] => 0
  | e :: _ => e.1

/-- The cells, with the way back in them. -/
def inverted (m : ObjCells) : List (Nat × Bool) → ObjCells
  | [] => m
  | e :: rest => Function.update (inverted m rest) e.1
      (if e.2 then { m e.1 with cdr := top rest }
        else { m e.1 with referer := false, car := top rest })

theorem inverted_of_not_mem {x : Nat} {stack : List (Nat × Bool)}
    (hx : x ∉ stack.map Prod.fst) : m.inverted stack x = m x := by
  induction stack with
  | nil => rfl
  | cons e rest ih =>
      simp only [List.map_cons, List.mem_cons, not_or] at hx
      rw [inverted, Function.update_of_ne hx.1, ih hx.2]

theorem inverted_bulk (x : Nat) (stack : List (Nat × Bool)) :
    (m.inverted stack x).bulk = (m x).bulk ∧ (m.inverted stack x).allocated = (m x).allocated := by
  induction stack with
  | nil => exact ⟨rfl, rfl⟩
  | cons e rest ih =>
      by_cases hx : x = e.1
      · subst hx
        rw [inverted, Function.update_self]
        cases e.2 <;> exact ⟨rfl, rfl⟩
      · rwa [inverted, Function.update_of_ne hx]

theorem way_ne_zero (ho : o ≠ 0) {stack : List (Nat × Bool)} {p : Nat}
    (h : Marker.Way m.graph o p stack) : p ≠ 0 ∧ ∀ e ∈ stack, e.1 ≠ 0 := by
  induction stack generalizing p with
  | nil => exact ⟨by rw [show p = o from h]; exact ho, by simp⟩
  | cons e rest ih =>
      obtain ⟨hfirst, hrest⟩ := ih h.2.2
      refine ⟨?_, fun e' he' => ?_⟩
      · have hside := h.2.1
        cases hb : e.2
        · rw [hb] at hside
          exact (pointer_eq_some.mp hside).2
        · rw [hb] at hside
          exact (pointer_eq_some.mp hside).2
      · rcases List.mem_cons.mp he' with rfl | he'
        · exact hfirst
        · exact hrest e' he'

/-- The cells with other marks. -/
def withMarks (m : ObjCells) (marked : Nat → Bool) : ObjCells :=
  fun x => { m x with marked := marked x }

/-- The cell that is marked. -/
theorem revise_mark (marked : Nat → Bool) (p : Nat) :
    (m.withMarks marked).revise p (fun c => { c with marked := true }) =
      m.withMarks (Function.update marked p true) := by
  funext x
  by_cases hx : x = p
  · subst hx
    simp [revise, withMarks]
  · simp [revise, withMarks, Function.update_of_ne hx]

/-- Leaving a cell. -/
theorem revise_leave {stack : List (Nat × Bool)} {marked : Nat → Bool} {p : Nat} {b : Bool}
    {f : ObjCell → ObjCell} (hp : p ∉ stack.map Prod.fst)
    (hf : f { m p with marked := marked p } =
      { m.inverted ((p, b) :: stack) p with marked := marked p }) :
    ((m.inverted stack).withMarks marked).revise p f =
      (m.inverted ((p, b) :: stack)).withMarks marked := by
  funext x
  by_cases hx : x = p
  · subst hx
    rw [revise, Function.update_self, withMarks, inverted_of_not_mem hp, hf, withMarks]
  · rw [revise, Function.update_of_ne hx, withMarks, withMarks, inverted, Function.update_of_ne hx]

/-- Coming back to a cell. -/
theorem revise_restore {rest : List (Nat × Bool)} {marked : Nat → Bool} {q : Nat} {b : Bool}
    {f : ObjCell → ObjCell} (hq : q ∉ rest.map Prod.fst)
    (hf : f { m.inverted ((q, b) :: rest) q with marked := marked q } =
      { m q with marked := marked q }) :
    ((m.inverted ((q, b) :: rest)).withMarks marked).revise q f =
      (m.inverted rest).withMarks marked := by
  funext x
  by_cases hx : x = q
  · subst hx
    rw [revise, Function.update_self, withMarks, hf, withMarks, inverted_of_not_mem hq]
  · rw [revise, Function.update_of_ne hx, withMarks, withMarks, inverted, Function.update_of_ne hx]

end ObjCells

section Marking

open ObjCells

/-- The label at which a phase begins. -/
def markLabel : MarkPhase → MarkLabel
  | .enter => .e2
  | .side _ => .e5
  | .up => .e6

/-- What `obj_mark` has in its variables and in the cells `m` when a marker stands somewhere. -/
def stateOf (m : ObjCells) (s : Marker Nat) : MarkState :=
  ⟨markLabel s.phase, top s.stack, s.node, (m.inverted s.stack).withMarks s.marked⟩

variable {m : ObjCells} {o : Nat} {before : Nat → Bool} {s : Marker Nat}

theorem node_not_mem (h : Marker.Ok m.graph before o s) : s.node ∉ s.stack.map Prod.fst :=
  (List.nodup_cons.mp h.nodup).1

/-- Following a pointer of a cell is a step of the marker; `f` leaves the way back in the cell. -/
theorem follow_spec (h : Marker.Ok m.graph before o s) {b : Bool} (hphase : s.phase = .side b)
    {q : Nat} (hside : m.graph.side b s.node = pointer q) {f : ObjCell → ObjCell}
    (hf : f { m s.node with marked := s.marked s.node } =
      { m.inverted ((s.node, b) :: s.stack) s.node with marked := s.marked s.node }) :
    ∃ s', Marker.Step m.graph s s' ∧ s'.phase ≠ .side false ∧
      (if q ≠ 0 ∧ ((m.inverted s.stack).withMarks s.marked q).marked = false then
        ⟨.e2, s.node, q, ((m.inverted s.stack).withMarks s.marked).revise s.node f⟩
      else ⟨markLabel (.next b), top s.stack, s.node, (m.inverted s.stack).withMarks s.marked⟩) =
        stateOf m s' := by
  by_cases hq : q ≠ 0 ∧ ((m.inverted s.stack).withMarks s.marked q).marked = false
  · have hdown : m.graph.side b s.node = some q := hside.trans (pointer_eq_some.mpr ⟨rfl, hq.1⟩)
    refine ⟨s.down b q, .down hphase (h.inner _ hphase) hdown hq.2, by simp [Marker.down], ?_⟩
    rw [if_pos hq, revise_leave (node_not_mem h) hf]
    rfl
  · refine ⟨s.goto (.next b), .pass hphase fun q' hq' => ?_, by
      cases b <;> simp [Marker.goto, MarkPhase.next], ?_⟩
    · obtain ⟨rfl, hne⟩ := pointer_eq_some.mp (hside.symm.trans hq')
      exact eq_true_of_ne_false fun hnew => hq ⟨hne, hnew⟩
    · rw [if_neg hq]
      rfl

/-- Following the `CAR` is a step of the marker. -/
theorem markCar_spec (h : Marker.Ok m.graph before o s) (hphase : s.phase = .side false) :
    ∃ s', Marker.Step m.graph s s' ∧ s'.phase ≠ .side false ∧
      markCar (top s.stack) s.node ((m.inverted s.stack).withMarks s.marked) = stateOf m s' := by
  have hcar : ((m.inverted s.stack).withMarks s.marked s.node).car = (m s.node).car := by
    rw [withMarks, inverted_of_not_mem (node_not_mem h)]
  rw [markCar, hcar]
  exact follow_spec h hphase rfl (by simp [inverted])

/-- Following the `CDR` is a step of the marker. -/
theorem markCdr_spec (h : Marker.Ok m.graph before o s) (hphase : s.phase = .side true) :
    ∃ s', Marker.Step m.graph s s' ∧ s'.phase ≠ .side false ∧
      markCdr (top s.stack) s.node ((m.inverted s.stack).withMarks s.marked) = stateOf m s' := by
  have hcdr : ((m.inverted s.stack).withMarks s.marked s.node).cdr = (m s.node).cdr := by
    rw [withMarks, inverted_of_not_mem (node_not_mem h)]
  rw [markCdr, hcdr]
  exact follow_spec h hphase rfl (by simp [inverted])

/-- Coming back is a step of the marker. -/
theorem back_spec (h : Marker.Ok m.graph before o s) (ho : o ≠ 0) (hphase : s.phase = .up)
    {e : Nat × Bool} {rest : List (Nat × Bool)} (hstack : s.stack = e :: rest) :
    ∃ s', Marker.Step m.graph s s' ∧ s'.phase ≠ .side false ∧
      objMarkStep o (stateOf m s) = some (stateOf m s') := by
  obtain ⟨q, b⟩ := e
  have hway := h.way
  have hnodup := h.nodup
  rw [hstack] at hway hnodup
  have hq : q ∉ rest.map Prod.fst := (List.nodup_cons.mp (List.nodup_cons.mp hnodup).2).1
  have hne : q ≠ 0 := (way_ne_zero ho hway).2 (q, b) List.mem_cons_self
  have hreferer : (m q).referer = true := hway.1
  refine ⟨s.back b q rest, .back hphase hstack, by
    cases b <;> simp [Marker.back, MarkPhase.next], ?_⟩
  cases b
  · have hcar : (m q).car = s.node := (pointer_eq_some.mp hway.2.1).1
    have hcell : (m.inverted ((q, false) :: rest)).withMarks s.marked q =
        { m q with marked := s.marked q, referer := false, car := top rest } := by
      simp [withMarks, inverted]
    simp only [objMarkStep, stateOf, hphase, hstack, markLabel, top, hcell, if_neg hne, if_true]
    rw [revise_restore hq (by simp [inverted, hcar, hreferer])]
    rfl
  · have hcdr : (m q).cdr = s.node := (pointer_eq_some.mp hway.2.1).1
    have hcell : (m.inverted ((q, true) :: rest)).withMarks s.marked q =
        { m q with marked := s.marked q, cdr := top rest } := by
      simp [withMarks, inverted]
    simp only [objMarkStep, stateOf, hphase, hstack, markLabel, top, hcell, if_neg hne, hreferer,
      Bool.true_eq_false, if_false]
    rw [revise_restore hq (by simp [inverted, hcdr])]
    rfl

theorem copyBulk_of_copied (hcopied : (m o).bulk = true → (m o).allocated = true) :
    m.copyBulk o = m := by
  rw [copyBulk, if_neg]
  rintro ⟨hbulk, hnot⟩
  simp [hcopied hbulk] at hnot

/-- A step of `obj_mark` is one of the marker, or two: when a cell is entered, its `CAR` is followed
at once. -/
theorem objMarkStep_spec (h : Marker.Ok m.graph before o s) (ho : o ≠ 0)
    (hcopied : (m o).bulk = true → (m o).allocated = true) (hphase : s.phase ≠ .side false) :
    s.Done ∧ objMarkStep o (stateOf m s) = none ∨
      ∃ s', TransGen (Marker.Step m.graph) s s' ∧ s'.phase ≠ .side false ∧
        objMarkStep o (stateOf m s) = some (stateOf m s') := by
  cases hp : s.phase with
  | enter =>
      have hmark :
          ((stateOf m s).cells.revise s.node fun c => { c with marked := true }).copyBulk o =
            (m.inverted s.stack).withMarks s.mark.marked := by
        rw [stateOf, revise_mark, copyBulk_of_copied]
        · rfl
        · obtain ⟨hbulk, hallocated⟩ := inverted_bulk (m := m) o s.stack
          simpa [withMarks, hbulk, hallocated] using hcopied
      have hreferer : ((m.inverted s.stack).withMarks s.mark.marked s.node).referer =
          (m s.node).referer := by
        rw [withMarks, inverted_of_not_mem (node_not_mem h)]
      have hstep : objMarkStep o (stateOf m s) =
          if (m s.node).referer = false then
            some ⟨.e6, top s.stack, s.node, (m.inverted s.stack).withMarks s.mark.marked⟩
          else some (markCar (top s.stack) s.node
            ((m.inverted s.stack).withMarks s.mark.marked)) := by
        rw [← hreferer, ← hmark, objMarkStep]
        simp [stateOf, hp, markLabel]
      right
      by_cases hinner : (m s.node).referer = false
      · exact ⟨s.mark.goto .up, .single (.leaf hp hinner), by simp [Marker.goto], by
          rw [hstep, if_pos hinner]
          rfl⟩
      · have hinner' : m.graph.inner s.node = true := eq_true_of_ne_false hinner
        have hfirst : Marker.Step m.graph s (s.mark.goto (.side false)) := .inner hp hinner'
        obtain ⟨s', hnext, hne, heq⟩ := markCar_spec (h.step hfirst) rfl
        refine ⟨s', .tail (.single hfirst) hnext, hne, ?_⟩
        rw [hstep, if_neg hinner]
        exact congrArg some heq
  | side b =>
      obtain rfl : b = true := eq_true_of_ne_false fun hb => hphase (hb ▸ hp)
      obtain ⟨s', hnext, hne, heq⟩ := markCdr_spec h hp
      refine Or.inr ⟨s', .single hnext, hne, ?_⟩
      rw [← heq, objMarkStep, stateOf, hp]
      rfl
  | up =>
      cases hstack : s.stack with
      | nil =>
          left
          exact ⟨⟨hp, hstack⟩, by simp [objMarkStep, stateOf, hp, hstack, markLabel, top]⟩
      | cons e rest =>
          obtain ⟨s', hnext, hne, heq⟩ := back_spec h ho hp hstack
          exact Or.inr ⟨s', .single hnext, hne, heq⟩

theorem objMarkLoop_spec {dom : Finset Nat} (ho : o ≠ 0)
    (hcopied : (m o).bulk = true → (m o).allocated = true)
    (hdom : ∀ x, m.Reach o x → x ∈ dom) {k : Nat} (h : Marker.Ok m.graph before o s)
    (hphase : s.phase ≠ .side false) (hk : s.cost dom < k) :
    ∃ s', Marker.Ok m.graph before o s' ∧ s'.Done ∧
      objMarkLoop o k (stateOf m s) = some (m.withMarks s'.marked) := by
  induction k generalizing s with
  | zero => exact absurd hk (Nat.not_lt_zero _)
  | succ k ih =>
      rcases objMarkStep_spec h ho hcopied hphase with ⟨hdone, heq⟩ | ⟨s', hsteps, hne, heq⟩
      · refine ⟨s, h, hdone, ?_⟩
        simp only [objMarkLoop, heq]
        rw [stateOf, hdone.2]
        rfl
      · obtain ⟨hok, hcost⟩ := h.steps hdom hsteps
        obtain ⟨s₁, hok₁, hdone, hrun⟩ := ih hok hne (by omega)
        refine ⟨s₁, hok₁, hdone, ?_⟩
        simp only [objMarkLoop, heq]
        exact hrun

theorem copyBulk_cell (m : ObjCells) (o x : Nat) :
    m.copyBulk o x = { m x with allocated := (m.copyBulk o x).allocated } := by
  rw [copyBulk]
  split
  · by_cases hx : x = o
    · subst hx
      simp [revise]
    · simp [revise, Function.update_of_ne hx]
  · rfl

theorem copyBulk_copied (m : ObjCells) (o : Nat) :
    (m.copyBulk o o).bulk = true → (m.copyBulk o o).allocated = true := by
  rw [copyBulk]
  split
  case isTrue h => simp [revise]
  case isFalse h =>
    intro hbulk
    exact eq_true_of_ne_false fun hnot => h ⟨hbulk, hnot⟩

theorem graph_copyBulk (m : ObjCells) (o : Nat) : (m.copyBulk o).graph = m.graph := by
  simp only [graph]
  congr 1 <;> funext x <;> rw [copyBulk_cell]

/-- Copying before the first step changes nothing. -/
theorem objMark_copyBulk (k : Nat) (m : ObjCells) (o : Nat) :
    objMark k (m.copyBulk o) o = objMark k m o := by
  have hsame : ((m.copyBulk o).revise o fun c => { c with marked := true }).copyBulk o =
      (m.revise o fun c => { c with marked := true }).copyBulk o := by
    rw [copyBulk, copyBulk, copyBulk]
    by_cases hcopy : (m o).bulk = true ∧ (m o).allocated = false
    · simp [hcopy, revise]
    · simp [hcopy, revise]
  cases k with
  | zero => rfl
  | succ k =>
      have hstep : objMarkStep o ⟨.e2, 0, o, m.copyBulk o⟩ = objMarkStep o ⟨.e2, 0, o, m⟩ := by
        simp only [objMarkStep, hsame]
      have hne : objMarkStep o ⟨.e2, 0, o, m⟩ ≠ none := by
        simp only [objMarkStep]
        split <;> simp
      rw [objMark, objMark, objMarkLoop, objMarkLoop, hstep]
      cases hs : objMarkStep o ⟨.e2, 0, o, m⟩ with
      | none => exact absurd hs hne
      | some s => rfl

/-- `obj_mark` comes back after at most `4 n + 3` steps where `n` cells are reached. It marks these
cells and changes nothing else, but that the string in the cell where it starts is copied. -/
theorem objMark_spec {dom : Finset Nat} (ho : o ≠ 0) (hdom : ∀ x, m.Reach o x → x ∈ dom)
    (hclosed : m.graph.Closed fun x => (m x).marked = true) {k : Nat}
    (hk : 4 * dom.card + 3 < k) :
    ∃ m', objMark k m o = some m' ∧
      (∀ x, m' x = { m.copyBulk o x with marked := (m' x).marked }) ∧
      ∀ x, (m' x).marked = true ↔ (m x).marked = true ∨ m.Reach o x := by
  have hmarked : ∀ x, (m.copyBulk o x).marked = (m x).marked := fun x => by rw [copyBulk_cell]
  have hstart : stateOf (m.copyBulk o) (Marker.start (fun x => (m x).marked) o) =
      ⟨.e2, 0, o, m.copyBulk o⟩ := by
    simp only [stateOf, Marker.start, markLabel, top, inverted]
    congr 1
    funext x
    rw [withMarks, ← hmarked]
  have hok : Marker.Ok (m.copyBulk o).graph (fun x => (m x).marked) o
      (Marker.start (fun x => (m x).marked) o) := by
    rw [graph_copyBulk]
    exact Marker.ok_start hclosed
  have hdom' : ∀ x, (m.copyBulk o).Reach o x → x ∈ dom := fun x hx =>
    hdom x (by rwa [Reach, graph_copyBulk] at hx)
  obtain ⟨s, hs, hdone, hrun⟩ := objMarkLoop_spec ho (copyBulk_copied m o) hdom' hok
    (by simp [Marker.start]) (lt_of_le_of_lt (Marker.cost_start dom) hk)
  rw [hstart] at hrun
  refine ⟨_, (objMark_copyBulk k m o).symm.trans hrun, fun x => rfl, fun x => ?_⟩
  rw [Reach, ← graph_copyBulk m o]
  exact hs.done hdone x

end Marking

end Senna.Scm
