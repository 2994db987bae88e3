/-
# Marking what is reached

A marker walks through a graph with two edges from each inner node, the left one first. It enters
the nodes that are not marked yet, and a stack holds the nodes that it has to come back to, with
the side by which it left each.

The nodes that are marked in the end are those that were marked before and those that are reached
from where it started. It ends because each node is entered once.
-/

import Mathlib.Data.Finset.Card
import Mathlib.Logic.Relation
import Mathlib.Tactic

namespace Senna.Lib

open Relation

universe u

/-- A graph with two edges from each inner node, which may lead nowhere. -/
structure PairGraph (ι : Type u) where
  inner : ι → Bool
  left : ι → Option ι
  right : ι → Option ι

namespace PairGraph

variable {ι : Type u} (g : PairGraph ι)

/-- The edge on a side. -/
def side (right : Bool) (x : ι) : Option ι := if right then g.right x else g.left x

/-- There is an edge from `x` to `y`. -/
def Edge (x y : ι) : Prop := g.inner x = true ∧ ∃ right, g.side right x = some y

/-- No edge leads out of a set. -/
def Closed (p : ι → Prop) : Prop := ∀ x y, g.Edge x y → p x → p y

variable {g}

theorem Closed.reach {p : ι → Prop} (hp : g.Closed p) {x y : ι} (h : ReflTransGen g.Edge x y)
    (hx : p x) : p y := by
  induction h with
  | refl => exact hx
  | tail _ hedge ih => exact hp _ _ hedge ih

end PairGraph

/-- What a marker does next: it enters its node, goes on with the edge on a side, or goes back. -/
inductive MarkPhase
  | enter
  | side (right : Bool)
  | up
  deriving DecidableEq

/-- What comes after a side. -/
def MarkPhase.next (right : Bool) : MarkPhase := if right then .up else .side true

/-- A marker at a node. -/
structure Marker (ι : Type u) where
  phase : MarkPhase
  node : ι
  stack : List (ι × Bool)
  marked : ι → Bool

namespace Marker

variable {ι : Type u} {g : PairGraph ι} {o : ι} {before : ι → Bool}

/-- The marker that goes on in another phase. -/
def goto (s : Marker ι) (phase : MarkPhase) : Marker ι := { s with phase := phase }

/-- The marker that leaves its node by a side. -/
def down (s : Marker ι) (right : Bool) (q : ι) : Marker ι :=
  { s with phase := .enter, node := q, stack := (s.node, right) :: s.stack }

/-- The marker that comes back to the last node of its stack. -/
def back (s : Marker ι) (right : Bool) (q : ι) (rest : List (ι × Bool)) : Marker ι :=
  { s with phase := .next right, node := q, stack := rest }

/-- The marker, with its node marked. -/
def mark [DecidableEq ι] (s : Marker ι) : Marker ι :=
  { s with marked := Function.update s.marked s.node true }

/-- One step. -/
inductive Step [DecidableEq ι] (g : PairGraph ι) : Marker ι → Marker ι → Prop
  | leaf {s} (hphase : s.phase = .enter) (hinner : g.inner s.node = false) :
      Step g s (s.mark.goto .up)
  | inner {s} (hphase : s.phase = .enter) (hinner : g.inner s.node = true) :
      Step g s (s.mark.goto (.side false))
  | down {s b q} (hphase : s.phase = .side b) (hinner : g.inner s.node = true)
      (hside : g.side b s.node = some q) (hnew : s.marked q = false) : Step g s (s.down b q)
  | pass {s b} (hphase : s.phase = .side b)
      (hside : ∀ q, g.side b s.node = some q → s.marked q = true) : Step g s (s.goto (.next b))
  | back {s q b rest} (hphase : s.phase = .up) (hstack : s.stack = (q, b) :: rest) :
      Step g s (s.back b q rest)

/-- The marker at its start. -/
def start (before : ι → Bool) (o : ι) : Marker ι := ⟨.enter, o, [], before⟩

/-- The marker has come back to its start. -/
def Done (s : Marker ι) : Prop := s.phase = .up ∧ s.stack = []

/-- The stack is a way from `o` to the node: each node has its edge on its side to the next. -/
def Way (g : PairGraph ι) (o : ι) : ι → List (ι × Bool) → Prop
  | p, [] => p = o
  | p, e :: rest => g.inner e.1 = true ∧ g.side e.2 e.1 = some p ∧ Way g o e.1 rest

theorem Way.reach {stack : List (ι × Bool)} {p : ι} (h : Way g o p stack) :
    ReflTransGen g.Edge o p := by
  induction stack generalizing p with
  | nil => rw [show p = o from h]
  | cons e rest ih => exact (ih h.2.2).tail ⟨h.1, e.2, h.2.1⟩

/-- A node is marked or just entered. -/
def Seen (s : Marker ι) (y : ι) : Prop := s.marked y = true ∨ s.phase = .enter ∧ y = s.node

/-- The marker has not come yet to the edge of `x` on a side, or it is there. -/
def Ahead (s : Marker ι) (right : Bool) (x : ι) : Prop :=
  right = true ∧ (x, false) ∈ s.stack ∨
    x = s.node ∧ (s.phase = .side right ∨ right = true ∧ s.phase = .side false)

/-- The marks are those of before and of nodes that are reached. The edges of the marked nodes
lead to nodes that are seen, if they are not still ahead. -/
structure Ok (g : PairGraph ι) (before : ι → Bool) (o : ι) (s : Marker ι) : Prop where
  kept : ∀ x, before x = true → s.marked x = true
  sound : ∀ x, s.marked x = true → before x = true ∨ ReflTransGen g.Edge o x
  way : Way g o s.node s.stack
  stacked : ∀ e ∈ s.stack, s.marked e.1 = true
  nodup : (s.node :: s.stack.map Prod.fst).Nodup
  here : s.phase ≠ .enter → s.marked s.node = true
  inner : ∀ b, s.phase = .side b → g.inner s.node = true
  edges : ∀ x y b, s.marked x = true → g.inner x = true → ¬ s.Ahead b x →
    g.side b x = some y → s.Seen y

theorem ok_start (hclosed : g.Closed (before · = true)) : Ok g before o (start before o) where
  kept := fun _ hx => hx
  sound := fun _ hx => Or.inl hx
  way := rfl
  stacked := by simp [start]
  nodup := by simp [start]
  here := fun h => absurd rfl h
  inner := by simp [start]
  edges := fun x y b hx hinner _ hy => Or.inl (hclosed x y ⟨hinner, b, hy⟩ hx)

section Steps

variable {s s' : Marker ι}

/-- A node that is not marked stands nowhere on the way back. -/
theorem Ok.fresh (h : Ok g before o s) (hhere : s.marked s.node = true) {q : ι}
    (hq : s.marked q = false) : (q :: s.node :: s.stack.map Prod.fst).Nodup := by
  refine List.nodup_cons.mpr ⟨fun hmem => ?_, h.nodup⟩
  have hmarked : s.marked q = true := by
    rcases List.mem_cons.mp hmem with rfl | hmem
    · exact hhere
    · obtain ⟨e, he, rfl⟩ := List.mem_map.mp hmem
      exact h.stacked e he
  rw [hq] at hmarked
  exact Bool.false_ne_true hmarked

/-- On one of the sides, what is seen is marked. -/
theorem Seen.marked {y : ι} (hphase : s.phase ≠ .enter) (hy : s.Seen y) : s.marked y = true :=
  hy.resolve_right fun h => hphase h.1

theorem mark_marked [DecidableEq ι] (s : Marker ι) (x : ι) :
    s.mark.marked x = true ↔ s.marked x = true ∨ x = s.node := by
  by_cases hx : x = s.node <;> simp [mark, hx]

/-- A node is entered and marked, and its edges are ahead if it has some. -/
theorem Ok.enter [DecidableEq ι] (h : Ok g before o s) {phase : MarkPhase}
    (hnext : phase = .side false ∧ g.inner s.node = true ∨
      phase = .up ∧ g.inner s.node = false) :
    Ok g before o (s.mark.goto phase) where
  kept := fun x hx => (mark_marked s x).mpr (Or.inl (h.kept x hx))
  sound := by
    intro x hx
    rcases (mark_marked s x).mp hx with hx | rfl
    · exact h.sound x hx
    · exact Or.inr h.way.reach
  way := h.way
  stacked := fun e he => (mark_marked s e.1).mpr (Or.inl (h.stacked e he))
  nodup := h.nodup
  here := fun _ => (mark_marked s s.node).mpr (Or.inr rfl)
  inner := by
    rintro b hb
    rcases hnext with ⟨-, hinner⟩ | ⟨rfl, -⟩
    · exact hinner
    · simp [goto] at hb
  edges := by
    intro x y b hx hinner hahead hy
    have hne : x ≠ s.node := by
      rintro rfl
      rcases hnext with ⟨rfl, -⟩ | ⟨-, hleaf⟩
      · refine hahead (Or.inr ⟨rfl, ?_⟩)
        cases b
        · exact Or.inl rfl
        · exact Or.inr ⟨rfl, rfl⟩
      · simp [hinner] at hleaf
    have hmarked := ((mark_marked s x).mp hx).resolve_right hne
    have hseen := h.edges x y b hmarked hinner
      (fun ha => hahead (ha.imp_right fun hn => absurd hn.1 hne)) hy
    exact Or.inl ((mark_marked s y).mpr (hseen.imp_right And.right))

/-- The marker leaves a node by an edge to a node that is not marked. -/
theorem Ok.down (h : Ok g before o s) {b : Bool} {q : ι} (hphase : s.phase = .side b)
    (hinner : g.inner s.node = true) (hside : g.side b s.node = some q)
    (hnew : s.marked q = false) : Ok g before o (s.down b q) where
  kept := h.kept
  sound := h.sound
  way := ⟨hinner, hside, h.way⟩
  stacked := by
    intro e he
    rcases List.mem_cons.mp he with rfl | he
    · exact h.here (by simp [hphase])
    · exact h.stacked e he
  nodup := h.fresh (h.here (by simp [hphase])) hnew
  here := fun hne => absurd rfl hne
  inner := by simp [Marker.down]
  edges := by
    intro x y c hx hxinner hahead hy
    by_cases hown : x = s.node ∧ c = b
    · obtain ⟨rfl, rfl⟩ := hown
      exact Or.inr ⟨rfl, Option.some.inj (hy.symm.trans hside)⟩
    · refine Or.inl (Seen.marked (s := s) (by simp [hphase]) (h.edges x y c hx hxinner ?_ hy))
      rintro (⟨hc, hmem⟩ | ⟨rfl, hp | ⟨hc, hp⟩⟩)
      · exact hahead (Or.inl ⟨hc, List.mem_cons_of_mem _ hmem⟩)
      · exact hown ⟨rfl, MarkPhase.side.inj (hp.symm.trans hphase)⟩
      · have hb : b = false := MarkPhase.side.inj (hphase.symm.trans hp)
        subst hb
        exact hahead (Or.inl ⟨hc, List.mem_cons_self⟩)

/-- The edge on a side leads nowhere, or to a node that is marked. -/
theorem Ok.pass (h : Ok g before o s) {b : Bool} (hphase : s.phase = .side b)
    (hside : ∀ q, g.side b s.node = some q → s.marked q = true) :
    Ok g before o (s.goto (.next b)) where
  kept := h.kept
  sound := h.sound
  way := h.way
  stacked := h.stacked
  nodup := h.nodup
  here := fun _ => h.here (by simp [hphase])
  inner := fun _ _ => h.inner b hphase
  edges := by
    intro x y c hx hxinner hahead hy
    by_cases hown : x = s.node ∧ c = b
    · obtain ⟨rfl, rfl⟩ := hown
      exact Or.inl (hside y hy)
    · refine Or.inl (Seen.marked (s := s) (by simp [hphase]) (h.edges x y c hx hxinner ?_ hy))
      rintro (hmem | ⟨rfl, hp | ⟨hc, hp⟩⟩)
      · exact hahead (Or.inl hmem)
      · exact hown ⟨rfl, MarkPhase.side.inj (hp.symm.trans hphase)⟩
      · have hb : b = false := MarkPhase.side.inj (hphase.symm.trans hp)
        subst hb hc
        exact hahead (Or.inr ⟨rfl, Or.inl rfl⟩)

/-- The marker comes back to a node. -/
theorem Ok.back (h : Ok g before o s) {b : Bool} {q : ι} {rest : List (ι × Bool)}
    (hphase : s.phase = .up) (hstack : s.stack = (q, b) :: rest) :
    Ok g before o (s.back b q rest) where
  kept := h.kept
  sound := h.sound
  way := by
    have hway := h.way
    rw [hstack] at hway
    exact hway.2.2
  stacked := fun e he => h.stacked e (hstack ▸ List.mem_cons_of_mem _ he)
  nodup := by
    have hnodup := h.nodup
    rw [hstack] at hnodup
    exact (List.nodup_cons.mp hnodup).2
  here := fun _ => h.stacked (q, b) (hstack ▸ List.mem_cons_self)
  inner := by
    have hway := h.way
    rw [hstack] at hway
    exact fun _ _ => hway.1
  edges := by
    intro x y c hx hxinner hahead hy
    refine Or.inl (Seen.marked (s := s) (by simp [hphase]) (h.edges x y c hx hxinner ?_ hy))
    rintro (⟨hc, hmem⟩ | ⟨-, hp⟩)
    · rw [hstack] at hmem
      rcases List.mem_cons.mp hmem with heq | hmem
      · obtain ⟨rfl, rfl⟩ := Prod.mk.inj heq
        subst hc
        exact hahead (Or.inr ⟨rfl, Or.inl rfl⟩)
      · exact hahead (Or.inl ⟨hc, hmem⟩)
    · simp [hphase] at hp

theorem Ok.step [DecidableEq ι] (h : Ok g before o s) (hstep : Step g s s') :
    Ok g before o s' := by
  cases hstep with
  | leaf hphase hinner => exact h.enter (Or.inr ⟨rfl, hinner⟩)
  | inner hphase hinner => exact h.enter (Or.inl ⟨rfl, hinner⟩)
  | down hphase hinner hside hnew => exact h.down hphase hinner hside hnew
  | pass hphase hside => exact h.pass hphase hside
  | back hphase hstack => exact h.back hphase hstack

/-- **Marking.** When the marker is done, those nodes are marked that were marked before and those
that are reached. -/
theorem Ok.done (h : Ok g before o s) (hdone : s.Done) (x : ι) :
    s.marked x = true ↔ before x = true ∨ ReflTransGen g.Edge o x := by
  have hphase : s.phase ≠ .enter := by simp [hdone.1]
  have hclosed : g.Closed (s.marked · = true) := by
    rintro x y ⟨hinner, b, hy⟩ hx
    refine (h.edges x y b hx hinner ?_ hy).marked hphase
    rintro (⟨-, hmem⟩ | ⟨-, hp⟩)
    · simp [hdone.2] at hmem
    · simp [hdone.1] at hp
  have hstart : s.node = o := by
    have hway := h.way
    rw [hdone.2] at hway
    exact hway
  constructor
  · exact h.sound x
  · rintro (hx | hx)
    · exact h.kept x hx
    · exact hclosed.reach hx (hstart ▸ h.here hphase)

end Steps

section Cost

variable [DecidableEq ι] {s s' : Marker ι} {dom : Finset ι}

/-- The nodes of `dom` that can still be entered. -/
def pending (dom : Finset ι) (s : Marker ι) : Finset ι :=
  dom.filter fun x => s.marked x = false ∧ ¬ (s.phase = .enter ∧ x = s.node)

/-- The number of steps that a phase leaves to do at a node. -/
def phaseCost : MarkPhase → Nat
  | .enter => 3
  | .side false => 2
  | .side true => 1
  | .up => 0

/-- A bound on the number of steps. -/
def cost (dom : Finset ι) (s : Marker ι) : Nat :=
  4 * (s.pending dom).card + (s.stack.map fun e => if e.2 then 1 else 2).sum + phaseCost s.phase

theorem mem_pending {x : ι} : x ∈ s.pending dom ↔
    x ∈ dom ∧ s.marked x = false ∧ ¬ (s.phase = .enter ∧ x = s.node) := Finset.mem_filter

theorem pending_mark (hphase : s.phase = .enter) (phase : MarkPhase) (hne : phase ≠ .enter) :
    (s.mark.goto phase).pending dom = s.pending dom := by
  ext x
  rw [mem_pending, mem_pending]
  by_cases hx : x = s.node <;> simp [mark, goto, hphase, hne, hx]

theorem pending_down {b : Bool} {q : ι} (hphase : s.phase = .side b) :
    (s.down b q).pending dom = (s.pending dom).erase q := by
  ext x
  rw [Finset.mem_erase, mem_pending, mem_pending]
  simp only [Marker.down, hphase]
  tauto

theorem pending_congr {t : Marker ι} (hs : s.phase ≠ .enter) (ht : t.phase ≠ .enter)
    (hmarked : t.marked = s.marked) : t.pending dom = s.pending dom := by
  ext x
  simp [mem_pending, hs, ht, hmarked]

/-- Each step leaves less to do. -/
theorem Ok.cost_lt (h : Ok g before o s) (hdom : ∀ x, ReflTransGen g.Edge o x → x ∈ dom)
    (hstep : Step g s s') : s'.cost dom < s.cost dom := by
  cases hstep with
  | leaf hphase _ =>
      simp only [cost, pending_mark hphase .up (by simp)]
      simp [goto, mark, phaseCost, hphase]
  | inner hphase _ =>
      simp only [cost, pending_mark hphase (.side false) (by simp)]
      simp [goto, mark, phaseCost, hphase]
  | @down b q hphase hinner hside hnew =>
      have hmem : q ∈ s.pending dom := mem_pending.mpr
        ⟨hdom q (h.way.reach.tail ⟨hinner, b, hside⟩), hnew, by simp [hphase]⟩
      have hcard := Finset.card_erase_of_mem hmem
      have hpos := Finset.card_pos.mpr ⟨q, hmem⟩
      simp only [cost, pending_down hphase, hcard]
      cases b <;> simp [Marker.down, phaseCost, hphase] <;> omega
  | @pass b hphase _ =>
      have hsame : (s.goto (.next b)).pending dom = s.pending dom :=
        pending_congr (by simp [hphase]) (by cases b <;> simp [goto, MarkPhase.next]) rfl
      simp only [cost, hsame]
      cases b <;> simp [goto, MarkPhase.next, phaseCost, hphase]
  | @back q b rest hphase hstack =>
      have hsame : (s.back b q rest).pending dom = s.pending dom :=
        pending_congr (by simp [hphase]) (by cases b <;> simp [Marker.back, MarkPhase.next]) rfl
      simp only [cost, hsame, hstack]
      cases b
      · simp [Marker.back, MarkPhase.next, phaseCost, hphase]
        omega
      · simp [Marker.back, MarkPhase.next, phaseCost, hphase]

/-- Some steps together. -/
theorem Ok.steps (h : Ok g before o s) (hdom : ∀ x, ReflTransGen g.Edge o x → x ∈ dom)
    (hsteps : TransGen (Step g) s s') : Ok g before o s' ∧ s'.cost dom < s.cost dom := by
  induction hsteps with
  | single hstep => exact ⟨h.step hstep, h.cost_lt hdom hstep⟩
  | tail _ hstep ih => exact ⟨ih.1.step hstep, lt_trans (ih.1.cost_lt hdom hstep) ih.2⟩

theorem cost_start (dom : Finset ι) : (start before o).cost dom ≤ 4 * dom.card + 3 := by
  have hcard : ((start before o).pending dom).card ≤ dom.card := Finset.card_filter_le _ _
  simp only [cost]
  simp [start, phaseCost] at hcard ⊢
  omega

end Cost

end Marker

end Senna.Lib
