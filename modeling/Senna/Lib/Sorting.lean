/-
# Sorting in place

Arrays are lists that are read and written by position. `Reorder lo stop a b` says
that `b` comes from `a` by moving elements inside the range `[lo, stop)` only; it
composes, and what holds of every element of the range is kept. `Split` is what a
partition leaves, `SortedTo` what a sort with a limit leaves, and
`Split.sortedTo` puts two sorted parts together around their pivot.

An order is given by the test `gt` alone: `x` may stand before `y` when
`gt x y = false`.
-/

import Mathlib.Tactic

namespace Senna.Lib

universe u

variable {α : Type u}

/-- On the elements `S`, `gt` is the strict part of a total preorder. -/
structure TotalPreorderOn (S : α → Prop) (gt : α → α → Bool) : Prop where
  asymm : ∀ {x y}, S x → S y → gt x y = true → gt y x = false
  trans : ∀ {x y z}, S x → S y → S z → gt x y = false → gt y z = false → gt x z = false

theorem TotalPreorderOn.refl {S : α → Prop} {gt : α → α → Bool} (h : TotalPreorderOn S gt) {x : α}
    (hx : S x) : gt x x = false := by
  cases hxx : gt x x with
  | false => rfl
  | true => rw [← hxx, h.asymm hx hx hxx]

/-- `a[i] = x`, where `i` is a position of the array. -/
def store (a : List α) (i : Nat) (x : α) : Option (List α) :=
  if i < a.length then some (a.set i x) else none

/-- What holds of all elements holds of the element at a position. -/
theorem forall_getElem? {S : α → Prop} {a : List α} (hS : ∀ x ∈ a, S x) {i : Nat} {x : α}
    (h : a[i]? = some x) : S x := hS x (List.mem_of_getElem? h)

/-- Exchange the elements at `i` and `j`. -/
def swap (a : List α) (i j : Nat) : Option (List α) := do
  let x ← a[i]?
  let y ← a[j]?
  return (a.set i y).set j x

/-- `b` comes from `a` by moving elements inside `[lo, stop)`. -/
structure Reorder (lo stop : Nat) (a b : List α) : Prop where
  perm : b.Perm a
  outside : ∀ i, i < lo ∨ stop ≤ i → b[i]? = a[i]?
  inside : ∀ i x, lo ≤ i → i < stop → b[i]? = some x → ∃ j, lo ≤ j ∧ j < stop ∧ a[j]? = some x

namespace Reorder

variable {lo stop lo' stop' : Nat} {a b c : List α}

theorem refl (lo stop : Nat) (a : List α) : Reorder lo stop a a :=
  ⟨List.Perm.refl a, fun _ _ => rfl, fun i _ hi hs hx => ⟨i, hi, hs, hx⟩⟩

theorem trans (hab : Reorder lo stop a b) (hbc : Reorder lo stop b c) : Reorder lo stop a c where
  perm := hbc.perm.trans hab.perm
  outside i hi := (hbc.outside i hi).trans (hab.outside i hi)
  inside i x hi hs hx := by
    obtain ⟨j, hj, hjs, hx⟩ := hbc.inside i x hi hs hx
    exact hab.inside j x hj hjs hx

theorem length_eq (h : Reorder lo stop a b) : b.length = a.length := h.perm.length_eq

theorem forall_mem {P : α → Prop} (h : Reorder lo stop a b) (hP : ∀ x ∈ a, P x) :
    ∀ x ∈ b, P x := fun x hx => hP x (h.perm.mem_iff.mp hx)

/-- Moves inside a range are moves inside a larger one. -/
theorem widen (h : Reorder lo stop a b) (hlo : lo' ≤ lo) (hstop : stop ≤ stop') :
    Reorder lo' stop' a b where
  perm := h.perm
  outside i hi := h.outside i (by omega)
  inside i x hi hs hx := by
    by_cases hin : lo ≤ i ∧ i < stop
    · obtain ⟨j, hj, hjs, hx⟩ := h.inside i x hin.1 hin.2 hx
      exact ⟨j, by omega, by omega, hx⟩
    · rw [h.outside i (by omega)] at hx
      exact ⟨i, hi, hs, hx⟩

/-- What holds of every element of the range holds of them after the moves. -/
theorem forall_inside {P : α → Prop} (h : Reorder lo stop a b)
    (hP : ∀ i x, lo ≤ i → i < stop → a[i]? = some x → P x) :
    ∀ i x, lo ≤ i → i < stop → b[i]? = some x → P x := by
  intro i x hi hs hx
  obtain ⟨j, hj, hjs, hx⟩ := h.inside i x hi hs hx
  exact hP j x hj hjs hx

end Reorder

/-- A swap of two positions of the range succeeds and is a move inside it. -/
theorem swap_reorder (lo stop i j : Nat) {a : List α} (hs : stop ≤ a.length)
    (hi : lo ≤ i) (his : i < stop) (hj : lo ≤ j) (hjs : j < stop) :
    ∃ b, swap a i j = some b ∧ Reorder lo stop a b ∧ b[i]? = a[j]? ∧ b[j]? = a[i]? ∧
      ∀ k, k ≠ i → k ≠ j → b[k]? = a[k]? := by
  have hil : i < a.length := by omega
  have hjl : j < a.length := by omega
  refine ⟨(a.set i a[j]).set j a[i], ?_, ?_, ?_, ?_, ?_⟩
  · simp only [swap, List.getElem?_eq_getElem hil, List.getElem?_eq_getElem hjl,
      Option.bind_eq_bind, Option.bind_some, Option.pure_def]
  · refine ⟨List.set_set_perm hil hjl, fun k hk => ?_, fun k x hk hks hx => ?_⟩
    · rw [List.getElem?_set_ne (by omega), List.getElem?_set_ne (by omega)]
    · rw [List.getElem?_set, List.getElem?_set] at hx
      by_cases hjk : j = k
      · rw [if_pos hjk, if_pos (by simpa using hjk ▸ hjl)] at hx
        exact ⟨i, hi, his, by rw [List.getElem?_eq_getElem hil, hx]⟩
      · rw [if_neg hjk] at hx
        by_cases hik : i = k
        · rw [if_pos hik, if_pos (hik ▸ hil)] at hx
          exact ⟨j, hj, hjs, by rw [List.getElem?_eq_getElem hjl, hx]⟩
        · rw [if_neg hik] at hx
          exact ⟨k, hk, hks, hx⟩
  · by_cases hij : j = i
    · subst hij
      simp [hjl]
    · rw [List.getElem?_set_ne hij, List.getElem?_set_self hil, List.getElem?_eq_getElem hjl]
  · rw [List.getElem?_set_self (by simpa using hjl), List.getElem?_eq_getElem hil]
  · intro k hki hkj
    rw [List.getElem?_set_ne (Ne.symm hkj), List.getElem?_set_ne (Ne.symm hki)]

section

variable (gt : α → α → Bool)

/-- Position `m` of `[lo, stop)` holds `p`, no element before it is greater and none after
it is smaller. -/
structure Split (lo stop m : Nat) (p : α) (a : List α) : Prop where
  lo_le : lo ≤ m
  lt_stop : m < stop
  pivot : a[m]? = some p
  below : ∀ i x, lo ≤ i → i < m → a[i]? = some x → gt x p = false
  above : ∀ i x, m + 1 ≤ i → i < stop → a[i]? = some x → gt p x = false

/-- The first `limit` elements of `[lo, stop)` are in order and no element of the range
is smaller than one of them that stands before it. -/
def SortedTo (lo stop : Nat) (limit : Int) (a : List α) : Prop :=
  ∀ i j x y, lo ≤ i → i < j → j < stop → (i : Int) < lo + limit →
    a[i]? = some x → a[j]? = some y → gt x y = false

variable {gt} {lo stop m : Nat} {p : α} {a b : List α} {limit : Int}

/-- A range of at most one element is sorted. -/
theorem SortedTo.of_le (h : stop ≤ lo + 1) : SortedTo gt lo stop limit a := by
  intro i j x y hi hij hj
  omega

/-- A range that no move touched is as sorted as before. -/
theorem SortedTo.congr (h : SortedTo gt lo stop limit a)
    (hab : ∀ i, lo ≤ i → i < stop → b[i]? = a[i]?) : SortedTo gt lo stop limit b := by
  intro i j x y hi hij hj hl hx hy
  rw [hab i hi (by omega)] at hx
  rw [hab j (by omega) hj] at hy
  exact h i j x y hi hij hj hl hx hy

/-- Moves on either side of the pivot keep a partition. -/
theorem Split.reorder_left (h : Split gt lo stop m p a) (hab : Reorder lo m a b) :
    Split gt lo stop m p b where
  lo_le := h.lo_le
  lt_stop := h.lt_stop
  pivot := (hab.outside m (Or.inr le_rfl)).trans h.pivot
  below := hab.forall_inside h.below
  above i x hi hs hx := h.above i x hi hs ((hab.outside i (Or.inr (by omega))).symm.trans hx)

theorem Split.reorder_right (h : Split gt lo stop m p a) (hab : Reorder (m + 1) stop a b) :
    Split gt lo stop m p b where
  lo_le := h.lo_le
  lt_stop := h.lt_stop
  pivot := (hab.outside m (Or.inl (by omega))).trans h.pivot
  below i x hi hm hx := h.below i x hi hm ((hab.outside i (Or.inl (by omega))).symm.trans hx)
  above := hab.forall_inside h.above

/-- **Two sorted parts and their pivot.** The part before the pivot is sorted to the limit
of the whole, the part after it to what the limit leaves for it. -/
theorem Split.sortedTo {S : α → Prop} (hgt : TotalPreorderOn S gt) (hS : ∀ x ∈ a, S x)
    (h : Split gt lo stop m p a)
    (hl : SortedTo gt lo m limit a)
    (hr : 0 < limit - 1 - ((m : Int) - lo) →
      SortedTo gt (m + 1) stop (limit - 1 - ((m : Int) - lo)) a) :
    SortedTo gt lo stop limit a := by
  intro i j x y hi hij hj hlim hx hy
  have hm := h.lo_le
  rcases lt_trichotomy i m with him | rfl | hmi
  · have hxp := h.below i x hi him hx
    rcases lt_trichotomy j m with hjm | rfl | hmj
    · exact hl i j x y hi hij hjm hlim hx hy
    · obtain rfl : y = p := Option.some.inj (hy.symm.trans h.pivot)
      exact hxp
    · exact hgt.trans (forall_getElem? hS hx) (forall_getElem? hS h.pivot) (forall_getElem? hS hy)
        hxp (h.above j y hmj hj hy)
  · obtain rfl : x = p := Option.some.inj (hx.symm.trans h.pivot)
    exact h.above j y hij hj hy
  · apply hr (by omega) i j x y hmi hij hj _ hx hy
    push_cast
    omega

/-! ## Ranks

The rank of an element is the number of elements smaller than it. -/

/-- No element stands before its rank. -/
theorem SortedTo.countP_le {S : α → Prop} (hgt : TotalPreorderOn S gt) (hS : ∀ x ∈ a, S x)
    (h : SortedTo gt 0 a.length limit a) {i : Nat} {x : α} (hi : (i : Int) < limit)
    (hx : a[i]? = some x) : a.countP (gt x) ≤ i := by
  have hdrop : (a.drop i).countP (gt x) = 0 := by
    rw [List.countP_eq_zero]
    intro y hy
    obtain ⟨j, hj⟩ := List.mem_iff_getElem?.mp hy
    rw [List.getElem?_drop] at hj
    rw [Bool.not_eq_true]
    rcases Nat.eq_zero_or_pos j with rfl | hpos
    · obtain rfl : x = y := Option.some.inj (hx.symm.trans hj)
      exact hgt.refl (forall_getElem? hS hx)
    · have hlt := (List.getElem?_eq_some_iff.mp hj).1
      exact h i (i + j) x y (Nat.zero_le _) (by omega) hlt (by omega) hx hj
  have htake : (a.take i).countP (gt x) ≤ i :=
    List.countP_le_length.trans (List.length_take_le i a)
  calc a.countP (gt x) = (a.take i).countP (gt x) + (a.drop i).countP (gt x) := by
        rw [← List.countP_append, List.take_append_drop]
    _ ≤ i := by omega

/-- The elements smaller than one whose rank is within the limit stand before that rank,
and no others do. -/
theorem SortedTo.gt_iff_lt_countP {S : α → Prop} (hgt : TotalPreorderOn S gt)
    (hS : ∀ x ∈ a, S x) (h : SortedTo gt 0 a.length limit a) {x : α} (hx : S x)
    (hlim : (a.countP (gt x) : Int) ≤ limit) {i : Nat} {y : α} (hy : a[i]? = some y) :
    gt x y = true ↔ i < a.countP (gt x) := by
  have hsplit (k : Nat) :
      a.countP (gt x) = (a.take k).countP (gt x) + (a.drop k).countP (gt x) := by
    rw [← List.countP_append, List.take_append_drop]
  have before (i : Nat) (y : α) (hy : a[i]? = some y) (hi : i < a.countP (gt x)) :
      gt x y = true := by
    by_contra hxy
    rw [Bool.not_eq_true] at hxy
    -- nothing after such an element is smaller than `x`
    have hdrop : (a.drop i).countP (gt x) = 0 := by
      rw [List.countP_eq_zero]
      intro z hz
      obtain ⟨j, hj⟩ := List.mem_iff_getElem?.mp hz
      rw [List.getElem?_drop] at hj
      rw [Bool.not_eq_true]
      rcases Nat.eq_zero_or_pos j with rfl | hpos
      · rwa [← Option.some.inj (hy.symm.trans hj)]
      · have hlt := (List.getElem?_eq_some_iff.mp hj).1
        exact hgt.trans hx (forall_getElem? hS hy) (forall_getElem? hS hj) hxy
          (h i (i + j) y z (Nat.zero_le _) (by omega) hlt (by omega) hy hj)
    have htake : (a.take i).countP (gt x) ≤ i :=
      List.countP_le_length.trans (List.length_take_le i a)
    have := hsplit i
    omega
  refine ⟨fun hxy => ?_, before i y hy⟩
  by_contra hi
  have hle : a.countP (gt x) ≤ a.length := List.countP_le_length
  have htake : (a.take (a.countP (gt x))).countP (gt x) = a.countP (gt x) := by
    have hall : (a.take (a.countP (gt x))).countP (gt x) =
        (a.take (a.countP (gt x))).length := by
      rw [List.countP_eq_length]
      intro z hz
      obtain ⟨j, hj⟩ := List.mem_iff_getElem?.mp hz
      rw [List.getElem?_take] at hj
      split at hj
      · next hlt => exact before j z hj hlt
      · cases hj
    rw [hall, List.length_take_of_le hle]
  have hdrop : (a.drop (a.countP (gt x))).countP (gt x) = 0 := by
    have := hsplit (a.countP (gt x))
    omega
  rw [List.countP_eq_zero] at hdrop
  refine hdrop y (List.mem_iff_getElem?.mpr ⟨i - a.countP (gt x), ?_⟩) hxy
  rw [List.getElem?_drop, Nat.add_sub_cancel' (by omega), hy]

end

end Senna.Lib
