/-
# Occurrences of a list in a list

A search for a list `x` in a list `y` looks at a window of `y` that is as long as `x`. When
the last element of the window is `c`, the window can be moved on until the last `c` in `x`
comes to stand there: no occurrence is missed. `Skip` are the distances for which this is
so, whatever table they come from.
-/

import Mathlib.Tactic

namespace Senna.Lib

universe u

variable {α : Type u} {x y : List α} {f : Nat}

/-- `x` occurs in `y` at the place `f`. -/
def OccursAt (x y : List α) (f : Nat) : Prop := x <+: y.drop f

instance [DecidableEq α] (x y : List α) : DecidablePred (OccursAt x y) := fun f =>
  inferInstanceAs (Decidable (x <+: y.drop f))

/-- Elementwise, an occurrence is equality at each place. -/
theorem occursAt_iff : OccursAt x y f ↔ ∀ i < x.length, y[f + i]? = x[i]? := by
  rw [OccursAt, List.prefix_iff_getElem?]
  refine forall₂_congr fun i hi => ?_
  rw [List.getElem?_drop, List.getElem?_eq_getElem hi]

theorem OccursAt.le_length (h : OccursAt x y f) (hne : x ≠ []) : f + x.length ≤ y.length := by
  have hle := h.length_le
  have hpos := List.length_pos_iff.mpr hne
  rw [List.length_drop] at hle
  omega

/-- A distance by which a window with the last element `c` may be moved on: no longer than
the way from any place of `c` before the last one to the end of `x`. -/
structure Skip (x : List α) (c : α) (d : Nat) : Prop where
  le_length : d ≤ x.length
  place : ∀ i, i + 1 < x.length → x[i]? = some c → i + 1 + d ≤ x.length

/-- **A skip misses nothing**: no occurrence ends behind `p` and before `p + d`. -/
theorem Skip.misses_nothing {c : α} {d p : Nat} (h : Skip x c d) (hp : x.length ≤ p)
    (hc : y[p - 1]? = some c) (hocc : OccursAt x y f) (hlt : p < f + x.length) :
    p + d ≤ f + x.length := by
  by_contra hend
  have hd := h.le_length
  -- `c` stands inside the occurrence, before its end
  have hplace : f + (p - 1 - f) = p - 1 := by omega
  have hget := occursAt_iff.mp hocc (p - 1 - f) (by omega)
  rw [hplace, hc] at hget
  have hle := h.place (p - 1 - f) (by omega) hget.symm
  omega

/-- An element that is not the last one of `x` does not end an occurrence. -/
theorem OccursAt.last_eq {c : α} {p : Nat} (hocc : OccursAt x y f) (hne : x ≠ [])
    (hp : f + x.length = p) (hc : y[p - 1]? = some c) : x.getLast? = some c := by
  have hpos := List.length_pos_iff.mpr hne
  have hget := occursAt_iff.mp hocc (x.length - 1) (by omega)
  rw [List.getLast?_eq_getElem?, ← hget, ← hc]
  congr 1
  omega

end Senna.Lib
