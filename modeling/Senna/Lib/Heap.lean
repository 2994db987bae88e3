/-
# Binary heaps in an array

The parent of position `i` is `(i - 1) / 2`. `IsHeap gt l` says that no parent is greater
than its child. While an element moves up or down, one edge or the edges below one
position may be wrong; `HeapUp` and `HeapDown` are the invariants of the two movements.
The element is thought of as standing at its present position: moving it is a swap with
its neighbour.
-/

import Senna.Lib.Sorting

namespace Senna.Lib

universe u

variable {α : Type u}

/-- The elements at `p` and at its child `c` are in order. -/
def Edge (gt : α → α → Bool) (l : List α) (p c : Nat) : Prop :=
  ∀ x y, l[p]? = some x → l[c]? = some y → gt x y = false

/-- No parent is greater than its child. -/
def IsHeap (gt : α → α → Bool) (l : List α) : Prop := ∀ i, 0 < i → Edge gt l ((i - 1) / 2) i

/-- Only the edge above `n` may be wrong, and the parent of `n` is not greater than the
children of `n`. -/
structure HeapUp (gt : α → α → Bool) (n : Nat) (l : List α) : Prop where
  edge : ∀ i, 0 < i → i ≠ n → Edge gt l ((i - 1) / 2) i
  grand : 0 < n → ∀ i, 0 < i → (i - 1) / 2 = n → Edge gt l ((n - 1) / 2) i

/-- Only the edges below `n` may be wrong, and the parent of `n` is not greater than the
children of `n`. -/
structure HeapDown (gt : α → α → Bool) (n : Nat) (l : List α) : Prop where
  edge : ∀ i, 0 < i → (i - 1) / 2 ≠ n → Edge gt l ((i - 1) / 2) i
  grand : 0 < n → ∀ i, 0 < i → (i - 1) / 2 = n → Edge gt l ((n - 1) / 2) i

section

variable {gt : α → α → Bool} {S : α → Prop} {l l' : List α} {n c : Nat}

theorem Edge.congr {p c p' c' : Nat} (h : Edge gt l p c) (hp : l'[p']? = l[p]?)
    (hc : l'[c']? = l[c]?) : Edge gt l' p' c' := by
  intro x y hx hy
  exact h x y (hp.symm.trans hx) (hc.symm.trans hy)

theorem Edge.trans (hgt : TotalPreorderOn S gt) (hS : ∀ x ∈ l, S x) {p q c : Nat}
    (hq : q < l.length) (hpq : Edge gt l p q) (hqc : Edge gt l q c) : Edge gt l p c := by
  intro x y hx hy
  have hz : l[q]? = some l[q] := List.getElem?_eq_getElem hq
  exact hgt.trans (forall_getElem? hS hx) (forall_getElem? hS hz) (forall_getElem? hS hy)
    (hpq x l[q] hx hz) (hqc l[q] y hz hy)

/-- An element that is greater than another may stand below it. -/
theorem Edge.of_gt (hgt : TotalPreorderOn S gt) (hS : ∀ x ∈ l, S x) {x y : α}
    (hx : l[n]? = some x) (hy : l[c]? = some y) (h : gt x y = true) : Edge gt l c n := by
  intro y' x' hy' hx'
  obtain rfl : y = y' := Option.some.inj (hy.symm.trans hy')
  obtain rfl : x = x' := Option.some.inj (hx.symm.trans hx')
  exact hgt.asymm (forall_getElem? hS hx) (forall_getElem? hS hy) h

theorem Edge.of_not_gt {x y : α} (hx : l[n]? = some x) (hy : l[c]? = some y)
    (h : gt x y = false) : Edge gt l n c := by
  intro x' y' hx' hy'
  rwa [← Option.some.inj (hx.symm.trans hx'), ← Option.some.inj (hy.symm.trans hy')]

theorem Edge.of_length_le {p : Nat} (h : l.length ≤ c) : Edge gt l p c := by
  intro x y _ hy
  rw [List.getElem?_eq_none h] at hy
  cases hy

/-- A new last element may only be wrong with its parent. -/
theorem IsHeap.append (h : IsHeap gt l) (x : α) : HeapUp gt l.length (l ++ [x]) where
  edge i hi hne := by
    intro y z hy hz
    have hil : i < l.length := by
      have := (List.getElem?_eq_some_iff.mp hz).1
      rw [List.length_append, List.length_singleton] at this
      omega
    rw [List.getElem?_append_left (by omega)] at hy
    rw [List.getElem?_append_left hil] at hz
    exact h i hi y z hy hz
  grand _ i _ hpar := by
    apply Edge.of_length_le
    rw [List.length_append, List.length_singleton]
    omega

/-- At the root there is no edge above. -/
theorem HeapUp.isHeap_zero (h : HeapUp gt 0 l) : IsHeap gt l :=
  fun i hi => h.edge i hi (by omega)

/-- The element has arrived when its parent is not greater. -/
theorem HeapUp.isHeap (h : HeapUp gt n l) (hn : Edge gt l ((n - 1) / 2) n) : IsHeap gt l := by
  intro i hi
  by_cases hin : i = n
  · rw [hin]
    exact hn
  · exact h.edge i hi hin

/-- An element that is not greater than its parent moves to the parent's place. -/
theorem HeapUp.move (hgt : TotalPreorderOn S gt) (hS : ∀ x ∈ l, S x) (h : HeapUp gt n l)
    (hpos : 0 < n) (hn : n < l.length) (hle : Edge gt l n ((n - 1) / 2))
    (hl : l'[n]? = l[(n - 1) / 2]?) (hr : l'[(n - 1) / 2]? = l[n]?)
    (hrest : ∀ k, k ≠ n → k ≠ (n - 1) / 2 → l'[k]? = l[k]?) : HeapUp gt ((n - 1) / 2) l' where
  edge i hi hne := by
    by_cases hin : i = n
    · rw [hin]
      exact hle.congr hr hl
    · have hil := hrest i hin hne
      by_cases hpn : (i - 1) / 2 = n
      · rw [hpn]
        exact (h.grand hpos i hi hpn).congr hl hil
      · by_cases hpp : (i - 1) / 2 = (n - 1) / 2
        · rw [hpp]
          have hsib := h.edge i hi hin
          rw [hpp] at hsib
          exact (hle.trans hgt hS (by omega) hsib).congr hr hil
        · exact (h.edge i hi hin).congr (hrest _ hpn hpp) hil
  grand hppos i hi hpar := by
    have hup := h.edge ((n - 1) / 2) hppos (by omega)
    have hgl := hrest (((n - 1) / 2 - 1) / 2) (by omega) (by omega)
    by_cases hin : i = n
    · rw [hin]
      exact hup.congr hgl hl
    · have hsib := h.edge i hi hin
      rw [hpar] at hsib
      exact (hup.trans hgt hS (by omega) hsib).congr hgl (hrest i hin (by omega))

/-- A new root may only be wrong with its children. -/
theorem IsHeap.set_root (h : IsHeap gt l) (x : α) : HeapDown gt 0 (l.set 0 x) where
  edge i hi hne :=
    (h i hi).congr (List.getElem?_set_ne (by omega)) (List.getElem?_set_ne (by omega))
  grand hpos := absurd hpos (lt_irrefl 0)

/-- Without its last element a heap is a heap. -/
theorem IsHeap.dropLast (h : IsHeap gt l) : IsHeap gt l.dropLast := by
  intro i hi x y hx hy
  rw [List.getElem?_dropLast] at hx hy
  split at hx
  · split at hy
    · exact h i hi x y hx hy
    · cases hy
  · cases hx

/-- The element has arrived when it is not greater than its children. -/
theorem HeapDown.isHeap (h : HeapDown gt n l) (hleft : Edge gt l n (n * 2 + 1))
    (hright : Edge gt l n (n * 2 + 2)) : IsHeap gt l := by
  intro i hi
  by_cases hpar : (i - 1) / 2 = n
  · rcases (by omega : i = n * 2 + 1 ∨ i = n * 2 + 2) with rfl | rfl
    · rw [hpar]
      exact hleft
    · rw [hpar]
      exact hright
  · exact h.edge i hi hpar

/-- An element moves to the place of a child that is not greater than it, nor greater than
the other child. -/
theorem HeapDown.move (h : HeapDown gt n l) (hc : 0 < c) (hpar : (c - 1) / 2 = n)
    (hle : Edge gt l c n) (hsib : ∀ i, 0 < i → (i - 1) / 2 = n → i ≠ c → Edge gt l c i)
    (hl : l'[n]? = l[c]?) (hr : l'[c]? = l[n]?)
    (hrest : ∀ k, k ≠ n → k ≠ c → l'[k]? = l[k]?) : HeapDown gt c l' where
  edge i hi hne := by
    by_cases hin : (i - 1) / 2 = n
    · rw [hin]
      by_cases hic : i = c
      · rw [hic]
        exact hle.congr hl hr
      · exact (hsib i hi hin hic).congr hl (hrest i (by omega) hic)
    · by_cases hi' : i = n
      · have hup := h.grand (by omega) c hc hpar
        rw [hi']
        exact hup.congr (hrest _ (by omega) (by omega)) hl
      · exact (h.edge i hi hin).congr (hrest _ hin hne) (hrest i hi' (by omega))
  grand _ i hi hic := by
    rw [hpar]
    have hdown := h.edge i hi (by omega)
    rw [hic] at hdown
    exact hdown.congr hl (hrest i (by omega) (by omega))

/-- **The root** is not greater than any element. -/
theorem IsHeap.root_le (hgt : TotalPreorderOn S gt) (hS : ∀ x ∈ l, S x) (h : IsHeap gt l)
    (i : Nat) : Edge gt l 0 i := by
  induction i using Nat.strong_induction_on with
  | _ i ih =>
    rcases Nat.eq_zero_or_pos i with rfl | hi
    · intro x y hx hy
      obtain rfl : x = y := Option.some.inj (hx.symm.trans hy)
      exact hgt.refl (forall_getElem? hS hx)
    · rcases Nat.lt_or_ge i l.length with hil | hil
      · exact (ih ((i - 1) / 2) (by omega)).trans hgt hS (by omega) (h i hi)
      · exact Edge.of_length_le hil

end

end Senna.Lib
