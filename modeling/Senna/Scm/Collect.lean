/-
# Collecting cells

The collector marks what is reached from seven registers and then clears the cells in `objects` that
are not marked. It runs between two steps of the interpreter, also of an evaluation that a native
function has begun (`sen_ql_eval`), when the variables of that function are still in use. Where one
of these holds the only pointer to a cell, the cell is lost; so what is said here is about
collections at which all pointers in use lead to cells that are reached from a register.

A step of the interpreter makes cells and changes cells, pointers to which it has found by way of
its registers and of its own variables. Symbols and constants are never collected; they keep their
marks, and nothing is marked by way of them.
-/

import Senna.Scm.Mark

namespace Senna.Scm

open Senna.Lib
open Relation ObjCells

/-- The registers from which cells are marked. -/
inductive Register
  | globalEnv
  | args
  | envir
  | code
  | dump
  | value
  | phs
  deriving DecidableEq

/-- The registers in the order in which `sen_ctx_mgc` takes them. -/
def Register.all : List Register := [globalEnv, args, envir, code, dump, value, phs]

theorem Register.mem_all (r : Register) : r ∈ all := by cases r <;> decide

/-- What the collector uses of a `sen_ctx`, with the pointers that a step of the interpreter has in
its variables. -/
structure GcCtx where
  regs : Register → Nat
  locals : List Nat
  objects : List Nat
  symbols : List Nat
  cells : ObjCells

/-- `sen_obj_clear` sets `flags` to 0. What it closes before is left out. -/
def senObjClear (c : ObjCell) : ObjCell :=
  { c with marked := false, referer := false, allocated := false }

/-- The calls of `obj_mark`. -/
def markAll (k : Nat) : ObjCells → List Nat → Option ObjCells
  | m, [] => some m
  | m, o :: os => (objMark k m o).bind fun m => markAll k m os

/-- The loop over `objects`: those that are kept, and the cells. -/
def sweep : List Nat → ObjCells → List Nat × ObjCells
  | [], m => ([], m)
  | o :: os, m =>
      if (m o).marked = true then
        let r := sweep os (m.revise o fun c => { c with marked := false })
        (o :: r.1, r.2)
      else sweep os (m.revise o senObjClear)

/-- `sen_ctx_mgc` -/
def senCtxMgc (k : Nat) (c : GcCtx) : Option GcCtx :=
  (markAll k c.cells (Register.all.map c.regs)).map fun m =>
    let r := sweep c.objects m
    { c with objects := r.1, cells := r.2 }

section

variable {m m' : ObjCells} {dom : Finset Nat} {k : Nat}

theorem graph_congr (h : ∀ x, (m' x).referer = (m x).referer ∧ (m' x).car = (m x).car ∧
    (m' x).cdr = (m x).cdr) : m'.graph = m.graph := by
  simp only [graph]
  congr 1 <;> funext x
  · exact (h x).1
  · rw [(h x).2.1]
  · rw [(h x).2.2]

theorem markAll_spec (os : List Nat) (hos : ∀ o ∈ os, o ≠ 0)
    (hdom : ∀ o ∈ os, ∀ x, m.Reach o x → x ∈ dom)
    (hclosed : m.graph.Closed fun x => (m x).marked = true) (hk : 4 * dom.card + 3 < k) :
    ∃ m', markAll k m os = some m' ∧
      (∀ x, m' x = { m x with marked := (m' x).marked, allocated := (m' x).allocated }) ∧
      ∀ x, (m' x).marked = true ↔ (m x).marked = true ∨ ∃ o ∈ os, m.Reach o x := by
  induction os generalizing m with
  | nil => exact ⟨m, rfl, fun x => rfl, by simp⟩
  | cons o os ih =>
      obtain ⟨m₁, hrun, hcell, hmarked⟩ := objMark_spec (hos o List.mem_cons_self)
        (hdom o List.mem_cons_self) hclosed hk
      have hsame : ∀ x, m₁ x =
          { m x with marked := (m₁ x).marked, allocated := (m₁ x).allocated } := fun x => by
        rw [hcell x, copyBulk_cell]
      have hgraph : m₁.graph = m.graph := graph_congr fun x => by
        rw [hsame x]
        exact ⟨rfl, rfl, rfl⟩
      have hreach : ∀ x y, m₁.Reach x y ↔ m.Reach x y := fun x y => by rw [Reach, Reach, hgraph]
      have hclosed₁ : m₁.graph.Closed fun x => (m₁ x).marked = true := by
        intro x y hedge hx
        rw [hgraph] at hedge
        rcases (hmarked x).mp hx with hx | hx
        · exact (hmarked y).mpr (Or.inl (hclosed x y hedge hx))
        · exact (hmarked y).mpr (Or.inr (hx.tail hedge))
      obtain ⟨m₂, hrun₂, hcell₂, hmarked₂⟩ := ih (fun o' ho' => hos o' (List.mem_cons_of_mem _ ho'))
        (fun o' ho' x hx => hdom o' (List.mem_cons_of_mem _ ho') x ((hreach o' x).mp hx)) hclosed₁
      refine ⟨m₂, ?_, fun x => ?_, fun x => ?_⟩
      · rw [markAll, hrun]
        exact hrun₂
      · rw [hcell₂ x, hsame x]
      · simp only [hmarked₂, hmarked, hreach, List.mem_cons, exists_eq_or_imp, or_assoc]

/-- What the loop leaves of a cell in `objects`. -/
def swept (e : ObjCell) : ObjCell :=
  if e.marked = true then { e with marked := false } else senObjClear e

theorem sweep_spec {os : List Nat} (hnodup : os.Nodup) : sweep os m =
    (os.filter fun x => (m x).marked, fun x => if x ∈ os then swept (m x) else m x) := by
  induction os generalizing m with
  | nil => simp [sweep]
  | cons o os ih =>
      obtain ⟨hnot, hrest⟩ := List.nodup_cons.mp hnodup
      have hfilter : ∀ f, (os.filter fun x => (m.revise o f x).marked) =
          os.filter fun x => (m x).marked := by
        intro f
        refine List.filter_congr fun x hx => ?_
        have hne : x ≠ o := by
          rintro rfl
          exact hnot hx
        rw [revise, Function.update_of_ne hne]
      have hcells : ∀ f, f (m o) = swept (m o) →
          (fun x => if x ∈ os then swept (m.revise o f x) else m.revise o f x) =
            fun x => if x ∈ o :: os then swept (m x) else m x := by
        intro f hf
        funext x
        by_cases hx : x = o
        · subst hx
          rw [if_neg hnot, if_pos List.mem_cons_self, revise, Function.update_self, hf]
        · rw [revise, Function.update_of_ne hx]
          simp only [List.mem_cons, hx, false_or]
      rw [sweep]
      by_cases hmarked : (m o).marked = true
      · simp only [if_pos hmarked, ih hrest, hfilter]
        rw [hcells _ (by rw [swept, if_pos hmarked]),
          List.filter_cons_of_pos (p := fun x => (m x).marked) hmarked]
      · simp only [if_neg hmarked, ih hrest, hfilter]
        rw [hcells _ (by rw [swept, if_neg hmarked]),
          List.filter_cons_of_neg (p := fun x => (m x).marked) hmarked]

end

/-- More steps give the same cells. -/
theorem objMarkLoop_mono {o : Nat} {k n : Nat} {s : MarkState} {m : ObjCells}
    (hrun : objMarkLoop o k s = some m) (hle : k ≤ n) : objMarkLoop o n s = some m := by
  induction k generalizing n s with
  | zero => simp [objMarkLoop] at hrun
  | succ k ih =>
      obtain ⟨n, rfl⟩ : ∃ n', n = n' + 1 := ⟨n - 1, by omega⟩
      rw [objMarkLoop] at hrun ⊢
      cases hs : objMarkStep o s with
      | none => simpa [hs] using hrun
      | some s' =>
          simp only [hs] at hrun ⊢
          exact ih hrun (by omega)

theorem markAll_mono {k n : Nat} {os : List Nat} {m m' : ObjCells}
    (hrun : markAll k m os = some m') (hle : k ≤ n) : markAll n m os = some m' := by
  induction os generalizing m with
  | nil => exact hrun
  | cons o os ih =>
      rw [markAll, Option.bind_eq_some_iff] at hrun ⊢
      obtain ⟨m₁, hfirst, hrest⟩ := hrun
      exact ⟨m₁, objMarkLoop_mono hfirst hle, ih hrest⟩

theorem senCtxMgc_mono {k n : Nat} {c c' : GcCtx} (hrun : senCtxMgc k c = some c')
    (hle : k ≤ n) : senCtxMgc n c = some c' := by
  rw [senCtxMgc, Option.map_eq_some_iff] at hrun ⊢
  obtain ⟨m, hmark, heq⟩ := hrun
  exact ⟨m, markAll_mono hmark hle, heq⟩

/-- What a cell points to. -/
def ObjCell.PointsTo (e : ObjCell) (y : Nat) : Prop :=
  e.referer = true ∧ (pointer e.car = some y ∨ pointer e.cdr = some y)

theorem edge_iff {m : ObjCells} {x y : Nat} : m.graph.Edge x y ↔ (m x).PointsTo y := by
  refine and_congr Iff.rfl ?_
  rw [Bool.exists_bool]
  rfl

namespace GcCtx

/-- A cell is in use: it is in `objects`, or is never collected. -/
def Live (c : GcCtx) (x : Nat) : Prop := x ∈ c.objects ∨ x ∈ c.symbols

/-- A cell is reached from a register or a variable. -/
def Reached (c : GcCtx) (x : Nat) : Prop :=
  ∃ o, ((∃ r, c.regs r = o) ∨ o ∈ c.locals) ∧ c.cells.Reach o x

/-- The cells that variables point to are reached from a register, too, or never collected. -/
def Rooted (c : GcCtx) : Prop :=
  ∀ x ∈ c.locals, (∃ r, c.cells.Reach (c.regs r) x) ∨ x ∈ c.symbols

/-- A pointer that a step of the interpreter can get. -/
def Held (c : GcCtx) (x : Nat) : Prop := c.Reached x ∨ x ∈ c.symbols

/-- Pointers lead to cells in use, and only cells that are never collected are marked. -/
structure Sound (c : GcCtx) : Prop where
  nodup : c.objects.Nodup
  apart : ∀ x ∈ c.objects, x ∉ c.symbols
  ne_zero : ∀ x, c.Live x → x ≠ 0
  marked : ∀ x, (c.cells x).marked = true → x ∈ c.symbols
  atoms : ∀ x ∈ c.symbols, (c.cells x).referer = false
  closed : ∀ x ∈ c.objects, ∀ y, (c.cells x).PointsTo y → c.Live y
  regs : ∀ r, c.Live (c.regs r)
  locals : ∀ x ∈ c.locals, c.Live x

/-- A cell, changed. -/
def setCell (c : GcCtx) (x : Nat) (e : ObjCell) : GcCtx :=
  { c with cells := Function.update c.cells x e }

variable {c c' : GcCtx}

@[simp]
theorem setCell_self (x : Nat) (e : ObjCell) : (c.setCell x e).cells x = e :=
  Function.update_self ..

theorem setCell_of_ne {x y : Nat} (h : y ≠ x) (e : ObjCell) :
    (c.setCell x e).cells y = c.cells y := Function.update_of_ne h ..

theorem Sound.closed_live (h : c.Sound) : c.cells.graph.Closed c.Live := by
  rintro x y hedge (hx | hx)
  · exact h.closed x hx y (edge_iff.mp hedge)
  · have hinner : (c.cells x).referer = true := hedge.1
    simp [h.atoms x hx] at hinner

theorem Sound.live (h : c.Sound) {x : Nat} (hx : c.Reached x) : c.Live x := by
  obtain ⟨o, ho, hreach⟩ := hx
  refine h.closed_live.reach hreach ?_
  rcases ho with ⟨r, rfl⟩ | ho
  · exact h.regs r
  · exact h.locals o ho

theorem Sound.held (h : c.Sound) {x : Nat} (hx : c.Held x) : c.Live x := hx.elim h.live Or.inr

/-- A cell is changed. -/
theorem Sound.setCell (h : c.Sound) {x : Nat} {e : ObjCell}
    (hmarked : e.marked = true → x ∈ c.symbols) (hatom : x ∈ c.symbols → e.referer = false)
    (hpoints : x ∈ c.objects → ∀ y, e.PointsTo y → c.Live y) : (c.setCell x e).Sound where
  nodup := h.nodup
  apart := h.apart
  ne_zero := h.ne_zero
  marked := by
    intro z hz
    by_cases hzx : z = x
    · subst hzx
      rw [setCell_self] at hz
      exact hmarked hz
    · rw [setCell_of_ne hzx] at hz
      exact h.marked z hz
  atoms := by
    intro z hz
    by_cases hzx : z = x
    · subst hzx
      rw [setCell_self]
      exact hatom hz
    · rw [setCell_of_ne hzx]
      exact h.atoms z hz
  closed := by
    intro z hz y hy
    by_cases hzx : z = x
    · subst hzx
      rw [setCell_self] at hy
      exact hpoints hz y hy
    · rw [setCell_of_ne hzx] at hy
      exact h.closed z hz y hy
  regs := h.regs
  locals := h.locals

/-- A new cell is in `objects`. -/
theorem Sound.addObject (h : c.Sound) {x : Nat} (hx : x ≠ 0) (hfresh : ¬ c.Live x)
    (hpoints : ∀ y, (c.cells x).PointsTo y → c.Live y) :
    Sound { c with locals := x :: c.locals, objects := x :: c.objects } := by
  have hlive : ∀ y, c.Live y →
      Live { c with locals := x :: c.locals, objects := x :: c.objects } y :=
    fun y hy => hy.imp_left (List.mem_cons_of_mem x)
  refine ⟨List.nodup_cons.mpr ⟨fun hmem => hfresh (Or.inl hmem), h.nodup⟩, ?_, ?_, h.marked,
    h.atoms, ?_, fun r => hlive _ (h.regs r), ?_⟩
  · intro y hy
    rcases List.mem_cons.mp hy with rfl | hy
    · exact fun hmem => hfresh (Or.inr hmem)
    · exact h.apart y hy
  · rintro y (hy | hy)
    · rcases List.mem_cons.mp hy with rfl | hy
      · exact hx
      · exact h.ne_zero y (Or.inl hy)
    · exact h.ne_zero y (Or.inr hy)
  · intro y hy z hz
    rcases List.mem_cons.mp hy with rfl | hy
    · exact hlive z (hpoints z hz)
    · exact hlive z (h.closed y hy z hz)
  · intro y hy
    rcases List.mem_cons.mp hy with rfl | hy
    · exact Or.inl List.mem_cons_self
    · exact hlive y (h.locals y hy)

/-- A new symbol is never collected. -/
theorem Sound.addSymbol (h : c.Sound) {x : Nat} (hx : x ≠ 0) (hfresh : ¬ c.Live x)
    (hatom : (c.cells x).referer = false) : Sound { c with symbols := x :: c.symbols } := by
  have hlive : ∀ y, c.Live y → Live { c with symbols := x :: c.symbols } y :=
    fun y hy => hy.imp_right (List.mem_cons_of_mem x)
  refine ⟨h.nodup, ?_, ?_, fun y hy => List.mem_cons_of_mem x (h.marked y hy), ?_,
    fun y hy z hz => hlive z (h.closed y hy z hz), fun r => hlive _ (h.regs r),
    fun y hy => hlive y (h.locals y hy)⟩
  · intro y hy hmem
    rcases List.mem_cons.mp hmem with rfl | hmem
    · exact hfresh (Or.inl hy)
    · exact h.apart y hy hmem
  · rintro y (hy | hy)
    · exact h.ne_zero y (Or.inl hy)
    · rcases List.mem_cons.mp hy with rfl | hy
      · exact hx
      · exact h.ne_zero y (Or.inr hy)
  · intro y hy
    rcases List.mem_cons.mp hy with rfl | hy
    · exact hatom
    · exact h.atoms y hy

/-- What a collection leaves: the cells of `objects` that were reached, and what they held. -/
structure Collected (c c' : GcCtx) : Prop where
  regs : c'.regs = c.regs
  locals : c'.locals = c.locals
  symbols : c'.symbols = c.symbols
  sublist : c'.objects.Sublist c.objects
  kept : ∀ x, x ∈ c'.objects ↔ x ∈ c.objects ∧ c.Reached x
  cells : ∀ x, c.Reached x →
    c'.cells x = { c.cells x with
      marked := (c'.cells x).marked
      allocated := (c'.cells x).allocated }
  atoms : ∀ x ∈ c.symbols, (c'.cells x).referer = (c.cells x).referer
  marked : ∀ x, (c'.cells x).marked = true → x ∈ c.symbols

theorem Collected.sound (hc : Collected c c') (h : c.Sound) : c'.Sound := by
  have hlive : ∀ x, c.Reached x → c'.Live x := fun x hx =>
    (h.live hx).imp (fun hmem => (hc.kept x).mpr ⟨hmem, hx⟩) (hc.symbols ▸ ·)
  refine ⟨h.nodup.sublist hc.sublist, fun x hx => ?_, fun x hx => ?_, fun x hx => ?_,
    fun x hx => ?_, fun x hx y hy => ?_, fun r => ?_, fun x hx => ?_⟩
  · rw [hc.symbols]
    exact h.apart x ((hc.kept x).mp hx).1
  · exact h.ne_zero x (hx.imp (fun hmem => ((hc.kept x).mp hmem).1) (hc.symbols ▸ ·))
  · rw [hc.symbols]
    exact hc.marked x hx
  · rw [hc.symbols] at hx
    rw [hc.atoms x hx, h.atoms x hx]
  · obtain ⟨hmem, o, ho, hreach⟩ := (hc.kept x).mp hx
    rw [hc.cells x ⟨o, ho, hreach⟩] at hy
    exact hlive y ⟨o, ho, hreach.tail (edge_iff.mpr hy)⟩
  · rw [hc.regs]
    exact hlive _ ⟨_, Or.inl ⟨r, rfl⟩, .refl⟩
  · rw [hc.locals] at hx
    exact hlive x ⟨x, Or.inr hx, .refl⟩

/-- The cells that are reached are the same ones afterwards. -/
theorem Collected.reached (hc : Collected c c') (x : Nat) : c'.Reached x ↔ c.Reached x := by
  constructor
  · rintro ⟨o, ho, hreach⟩
    rw [hc.regs, hc.locals] at ho
    induction hreach with
    | refl => exact ⟨o, ho, .refl⟩
    | tail _ hedge ih =>
        rw [edge_iff, hc.cells _ ih] at hedge
        obtain ⟨o₁, ho₁, hreach₁⟩ := ih
        exact ⟨o₁, ho₁, hreach₁.tail (edge_iff.mpr hedge)⟩
  · rintro ⟨o, ho, hreach⟩
    refine ⟨o, by rwa [hc.regs, hc.locals], ?_⟩
    induction hreach with
    | refl => exact .refl
    | tail hab hedge ih =>
        refine ih.tail (edge_iff.mpr ?_)
        rw [hc.cells _ ⟨o, ho, hab⟩]
        exact edge_iff.mp hedge

/-- A symbol leads nowhere. -/
theorem Sound.eq_of_symbol (h : c.Sound) {o x : Nat} (ho : o ∈ c.symbols)
    (hreach : c.cells.Reach o x) : x = o := by
  induction hreach with
  | refl => rfl
  | tail _ hedge ih =>
      have hinner : (c.cells o).referer = true := by
        rw [← ih]
        exact hedge.1
      simp [h.atoms o ho] at hinner

/-- A collection between two steps comes to its end, and keeps what is reached. -/
theorem Sound.collect (h : c.Sound) (hrooted : c.Rooted) {k : Nat}
    (hk : 4 * (c.objects.length + c.symbols.length) + 3 < k) :
    ∃ c', senCtxMgc k c = some c' ∧ Collected c c' := by
  have hreached : ∀ x, (∃ o ∈ Register.all.map c.regs, c.cells.Reach o x) → c.Reached x := by
    rintro x ⟨o, ho, hreach⟩
    obtain ⟨r, -, rfl⟩ := List.mem_map.mp ho
    exact ⟨_, Or.inl ⟨r, rfl⟩, hreach⟩
  have hroot : ∀ x ∈ c.objects, c.Reached x →
      ∃ o ∈ Register.all.map c.regs, c.cells.Reach o x := by
    rintro x hx ⟨o, ⟨r, rfl⟩ | ho, hreach⟩
    · exact ⟨_, List.mem_map.mpr ⟨r, r.mem_all, rfl⟩, hreach⟩
    · rcases hrooted o ho with ⟨r, hr⟩ | hsymbol
      · exact ⟨_, List.mem_map.mpr ⟨r, r.mem_all, rfl⟩, hr.trans hreach⟩
      · rw [h.eq_of_symbol hsymbol hreach] at hx
        exact absurd hsymbol (h.apart o hx)
  have hcard : (c.objects ++ c.symbols).toFinset.card ≤ c.objects.length + c.symbols.length := by
    rw [← List.length_append]
    exact List.toFinset_card_le _
  have hclosed : c.cells.graph.Closed fun x => (c.cells x).marked = true := by
    intro x y hedge hx
    have hinner : (c.cells x).referer = true := hedge.1
    simp [h.atoms x (h.marked x hx)] at hinner
  obtain ⟨m, hrun, hcell, hmarked⟩ := markAll_spec (Register.all.map c.regs)
    (fun o ho => h.ne_zero o (h.live (hreached o ⟨o, ho, .refl⟩)))
    (fun o ho x hx => List.mem_toFinset.mpr
      (List.mem_append.mpr (h.live (hreached x ⟨o, ho, hx⟩))))
    hclosed (lt_of_le_of_lt (by omega) hk)
  have hmark : ∀ x ∈ c.objects, (m x).marked = true ↔ c.Reached x := by
    intro x hx
    rw [hmarked]
    exact ⟨fun hor => hreached x (hor.resolve_left fun hm => h.apart x hx (h.marked x hm)),
      fun hr => Or.inr (hroot x hx hr)⟩
  have hmgc : senCtxMgc k c = some { c with
      objects := c.objects.filter fun x => (m x).marked
      cells := fun x => if x ∈ c.objects then swept (m x) else m x } := by
    rw [senCtxMgc, hrun, Option.map_some]
    simp only [sweep_spec h.nodup]
  refine ⟨_, hmgc, rfl, rfl, rfl, List.filter_sublist, fun x => ?_, fun x hx => ?_,
    fun x hx => ?_, fun x hx => ?_⟩
  · rw [List.mem_filter]
    exact and_congr_right fun hx => hmark x hx
  · dsimp only
    by_cases hmem : x ∈ c.objects
    · rw [if_pos hmem, swept, if_pos ((hmark x hmem).mpr hx), hcell x]
    · rw [if_neg hmem]
      exact hcell x
  · dsimp only
    rw [if_neg fun hmem => h.apart x hmem hx, hcell x]
  · dsimp only at hx
    by_cases hmem : x ∈ c.objects
    · rw [if_pos hmem, swept] at hx
      split at hx
      · simp at hx
      · simp [senObjClear] at hx
    · rw [if_neg hmem, hmarked] at hx
      rcases hx with hx | hx
      · exact h.marked x hx
      · exact (h.live (hreached x hx)).resolve_left hmem

end GcCtx

/-- Before the first step the registers lead to `NIL`, one of the three constants. -/
def gcStart : GcCtx where
  regs _ := 1
  locals := []
  objects := []
  symbols := [1, 2, 3]
  cells _ := ⟨false, false, false, false, 0, 0⟩

/-- What happens to the cells: a collection, or a part of a step of the interpreter. At a collection
no variable holds the only pointer to a cell. A new cell has got its value when it is seen here, as
from `sen_obj_cons`; to change a cell is to store into its `CAR` or `CDR`, or another value over
it. -/
inductive GcStep : GcCtx → GcCtx → Prop
  | collect {c c' : GcCtx} (k : Nat) (hrooted : c.Rooted)
      (hrun : senCtxMgc k c = some c') : GcStep c c'
  | load {c : GcCtx} {x : Nat} (hx : c.Held x) : GcStep c { c with locals := x :: c.locals }
  | drop {c : GcCtx} {kept : List Nat} (hkept : kept ⊆ c.locals) :
      GcStep c { c with locals := kept }
  | store {c : GcCtx} {x : Nat} (r : Register) (hx : c.Held x) :
      GcStep c { c with regs := Function.update c.regs r x }
  | new {c : GcCtx} {x : Nat} {e : ObjCell} (hx : x ≠ 0) (hfresh : ¬ c.Live x)
      (hnew : e.marked = false) (hpoints : ∀ y, e.PointsTo y → c.Held y) :
      GcStep c { c.setCell x e with locals := x :: c.locals, objects := x :: c.objects }
  | intern {c : GcCtx} {x : Nat} {e : ObjCell} (hx : x ≠ 0) (hfresh : ¬ c.Live x)
      (hnew : e.marked = false) (hatom : e.referer = false) :
      GcStep c { c.setCell x e with symbols := x :: c.symbols }
  | change {c : GcCtx} {x : Nat} {e : ObjCell} (hx : x ∈ c.objects) (hmarked : e.marked = false)
      (hpoints : ∀ y, e.PointsTo y → c.Held y ∨ (c.cells x).PointsTo y) :
      GcStep c (c.setCell x e)

namespace GcCtx

variable {c c' : GcCtx}

theorem sound_start : gcStart.Sound where
  nodup := List.nodup_nil
  apart := by simp [gcStart]
  ne_zero := by
    rintro x (hx | hx) rfl
    · simp [gcStart] at hx
    · simp [gcStart] at hx
  marked := by simp [gcStart]
  atoms := by simp [gcStart]
  closed := by simp [gcStart]
  regs := fun _ => Or.inr (by simp [gcStart])
  locals := by simp [gcStart]

theorem Sound.step (h : c.Sound) (hstep : GcStep c c') : c'.Sound := by
  cases hstep with
  | collect k hrooted hrun =>
      obtain ⟨c₁, hrun₁, hc⟩ := h.collect hrooted (k := max k
        (4 * (c.objects.length + c.symbols.length) + 4)) (by omega)
      have heq := hrun₁.symm.trans (senCtxMgc_mono hrun (le_max_left _ _))
      rw [← Option.some.inj heq]
      exact hc.sound h
  | load hx =>
      refine { h with locals := fun y hy => ?_ }
      rcases List.mem_cons.mp hy with rfl | hy
      · exact h.held hx
      · exact h.locals y hy
  | drop hkept => exact { h with locals := fun y hy => h.locals y (hkept hy) }
  | @store x r hx =>
      refine { h with regs := fun r' => ?_ }
      change c.Live (Function.update c.regs r x r')
      by_cases hr : r' = r
      · rw [hr, Function.update_self]
        exact h.held hx
      · rw [Function.update_of_ne hr]
        exact h.regs r'
  | @new x e hx hfresh hnew hpoints =>
      refine Sound.addObject (h.setCell (x := x) (e := e) (by simp [hnew])
        (fun hmem => absurd (Or.inr hmem) hfresh) (fun hmem => absurd (Or.inl hmem) hfresh)) hx
        hfresh fun y hy => ?_
      rw [setCell_self] at hy
      exact h.held (hpoints y hy)
  | @intern x e hx hfresh hnew hatom =>
      refine Sound.addSymbol (h.setCell (x := x) (e := e) (by simp [hnew])
        (fun hmem => absurd (Or.inr hmem) hfresh) (fun hmem => absurd (Or.inl hmem) hfresh)) hx
        hfresh ?_
      rw [setCell_self]
      exact hatom
  | @change x e hx hmarked hpoints =>
      refine h.setCell (by simp [hmarked]) (fun hmem => absurd hmem (h.apart x hx)) fun _ y hy => ?_
      rcases hpoints y hy with hheld | hold
      · exact h.held hheld
      · exact h.closed x hx y hold

theorem sound_run (hrun : ReflTransGen GcStep gcStart c) : c.Sound := by
  induction hrun with
  | refl => exact sound_start
  | tail _ hstep ih => exact ih.step hstep

end GcCtx

variable {c : GcCtx} {x : Nat}

/-- **No pointer dangles.** However the interpreter's steps and such collections follow each
    other, a
cell that is reached from a register or a variable is in use. -/
theorem gcRun_live (hrun : ReflTransGen GcStep gcStart c) (hx : c.Reached x) :
    x ∈ c.objects ∨ x ∈ c.symbols :=
  (GcCtx.sound_run hrun).live hx

/-- **Collection.** Where no variable holds the only pointer to a cell, a collection comes to its
end. It keeps exactly the cells that are reached, which hold what they held, and reaches the same
cells from the registers. -/
theorem gcRun_collect (hrun : ReflTransGen GcStep gcStart c) (hrooted : c.Rooted) :
    ∃ c', (∀ k, 4 * (c.objects.length + c.symbols.length) + 3 < k → senCtxMgc k c = some c') ∧
      c'.regs = c.regs ∧ (∀ x, x ∈ c'.objects ↔ x ∈ c.objects ∧ c.Reached x) ∧
      (∀ x, c.Reached x → (c'.cells x).referer = (c.cells x).referer ∧
        (c'.cells x).car = (c.cells x).car ∧ (c'.cells x).cdr = (c.cells x).cdr) ∧
      (∀ x ∈ c'.objects, (c'.cells x).marked = false) ∧ ∀ x, c'.Reached x ↔ c.Reached x := by
  obtain ⟨c', hfirst, hc⟩ := (GcCtx.sound_run hrun).collect hrooted (Nat.lt_succ_self _)
  refine ⟨c', fun k hk => senCtxMgc_mono hfirst hk, hc.regs, hc.kept, fun x hx => ?_,
    fun x hx => ?_, hc.reached⟩
  · rw [hc.cells x hx]
    exact ⟨rfl, rfl, rfl⟩
  · refine eq_false_of_ne_true fun hmarked => ?_
    exact (GcCtx.sound_run hrun).apart x ((hc.kept x).mp hx).1 (hc.marked x hmarked)

/-- A pair of two `NIL`, which a step has in a variable. -/
def gcPair : GcCtx :=
  { gcStart.setCell 4 ⟨false, true, false, false, 1, 1⟩ with locals := [4], objects := [4] }

/-- The pair, put into a register. -/
def gcStored : GcCtx :=
  { gcPair with regs := Function.update gcPair.regs .args 4, locals := [] }

theorem gcPair_run : ReflTransGen GcStep gcStart gcPair := by
  refine .single (.new (by decide) (by simp [GcCtx.Live, gcStart]) rfl fun y hy => Or.inr ?_)
  have heq : 1 = y := by
    rcases hy.2 with hy | hy
    · exact (pointer_eq_some.mp hy).1
    · exact (pointer_eq_some.mp hy).1
  simp [gcStart, ← heq]

theorem gcStored_run : ReflTransGen GcStep gcStart gcStored :=
  (gcPair_run.tail (.store .args (Or.inl ⟨4, Or.inr List.mem_cons_self, .refl⟩))).tail
    (.drop (List.nil_subset _))

/-- The pair in the variable is in use. -/
theorem gcRun_live_pair : 4 ∈ gcPair.objects ∨ 4 ∈ gcPair.symbols :=
  gcRun_live gcPair_run ⟨4, Or.inr List.mem_cons_self, .refl⟩

/-- The pair in the register is kept. -/
theorem gcRun_collect_pair : ∃ c', senCtxMgc 100 gcStored = some c' ∧ 4 ∈ c'.objects := by
  obtain ⟨c', hrun, -, hkept, -⟩ := gcRun_collect gcStored_run
    (fun x hx => absurd hx List.not_mem_nil)
  exact ⟨c', hrun 100 (by decide),
    (hkept 4).mpr ⟨List.mem_cons_self, 4, Or.inl ⟨.args, rfl⟩, .refl⟩⟩

end Senna.Scm
