/-
# Numbers by first occurrence

A register numbers the names that are entered into it from 1 on, in the order in which they first
come. A name that is there is entered without effect, so that numbers never change.
-/

import Mathlib.Data.List.Nodup
import Mathlib.Tactic

namespace Senna.Lib

universe u

variable {κ : Type u} [DecidableEq κ]

/-- The names after `x` has been entered. -/
def enter (ks : List κ) (x : κ) : List κ := if x ∈ ks then ks else ks ++ [x]

/-- The names after all of a list have been entered. -/
def enterAll (ks xs : List κ) : List κ := xs.foldl enter ks

/-- The number of a name, or 0. -/
def number (ks : List κ) (x : κ) : Nat := if x ∈ ks then ks.idxOf x + 1 else 0

section

variable {ks ls xs : List κ} {x y : κ}

/-- A name that is known is not entered again. -/
theorem enter_of_mem (h : x ∈ ks) : enter ks x = ks := if_pos h

theorem enter_of_not_mem (h : x ∉ ks) : enter ks x = ks ++ [x] := if_neg h

/-- The names after one more: the old ones and this one. -/
theorem mem_enter : y ∈ enter ks x ↔ y ∈ ks ∨ y = x := by
  unfold enter
  split_ifs with h
  · exact ⟨.inl, fun hy => hy.elim id fun heq => heq ▸ h⟩
  · rw [List.mem_append, List.mem_singleton]

/-- New names come behind the old ones. -/
theorem prefix_enter (ks : List κ) (x : κ) : ks <+: enter ks x := by
  unfold enter
  split_ifs
  · exact List.prefix_rfl
  · exact List.prefix_append ks [x]

theorem enterAll_cons (ks : List κ) (x : κ) (xs : List κ) :
    enterAll ks (x :: xs) = enterAll (enter ks x) xs := rfl

/-- The names after a list of them: the old ones and these. -/
theorem mem_enterAll : y ∈ enterAll ks xs ↔ y ∈ ks ∨ y ∈ xs := by
  induction xs generalizing ks with
  | nil => exact ⟨.inl, fun h => h.elim id fun hy => absurd hy List.not_mem_nil⟩
  | cons x xs ih => rw [enterAll_cons, ih, mem_enter, List.mem_cons, or_assoc]

/-- Entering never changes what is there. -/
theorem prefix_enterAll (ks xs : List κ) : ks <+: enterAll ks xs := by
  induction xs generalizing ks with
  | nil => exact List.prefix_rfl
  | cons x xs ih => exact (prefix_enter ks x).trans (ih (enter ks x))

/-- A number never changes. -/
theorem number_of_begins (h : ks <+: ls) (hx : x ∈ ks) : number ls x = number ks x := by
  obtain ⟨r, rfl⟩ := h
  rw [number, number, if_pos hx, if_pos (List.mem_append_left r hx),
    List.idxOf_append_of_mem hx]

/-- A name that was never entered has no number. -/
theorem number_of_not_mem (h : x ∉ ks) : number ks x = 0 := if_neg h

/-- A new name gets the next number. -/
theorem number_new (h : x ∉ ks) : number (ks ++ [x]) x = ks.length + 1 := by
  rw [number, if_pos (List.mem_append_right ks List.mem_cons_self),
    List.idxOf_append_of_notMem h, List.idxOf_cons_self]

/-- The name at the place `i` has the number `i + 1`. -/
theorem number_getElem (h : ks.Nodup) {i : Nat} (hi : i < ks.length) :
    number ks ks[i] = i + 1 := by
  rw [number, if_pos (List.getElem_mem hi), h.idxOf_getElem i hi]

end

end Senna.Lib
