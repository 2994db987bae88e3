/-
# Unbalanced search trees

A tree that is searched by a key of its members, smaller keys on the left and equal ones on the
right. Its traversal is the list of its members from the left to the right, which is sorted by
the key. Insertion also tells whether the path to the new leaf never turned right and never
turned left, so that whoever keeps the first and the last member can keep them up to date.
-/

import Mathlib.Data.Tree.Basic
import Mathlib.Tactic

namespace Senna.Lib.SearchTree

universe u v

variable {α : Type u} {κ : Type v} [LinearOrder κ]

/-- The members from the left to the right. -/
def inorder : BinaryTree α → List α
  | .nil => []
  | .node x car cdr => inorder car ++ x :: inorder cdr

/-- Insert `x` as one with the key `k`: the tree, whether the path never turned right, and
whether it never turned left. -/
def insert (key : α → κ) (k : κ) (x : α) : BinaryTree α → BinaryTree α × Bool × Bool
  | .nil => (.node x .nil .nil, true, true)
  | .node y car cdr =>
      if k < key y then
        let (car, minp, _) := insert key k x car
        (.node y car cdr, minp, false)
      else
        let (cdr, _, maxp) := insert key k x cdr
        (.node y car cdr, false, maxp)

/-- The leftmost member. -/
def first : BinaryTree α → Option α
  | .nil => none
  | .node x .nil _ => some x
  | .node _ (.node y car cdr) _ => first (.node y car cdr)

/-- Take the leftmost member out. -/
def popMin : BinaryTree α → Option (α × BinaryTree α)
  | .nil => none
  | .node x .nil cdr => some (x, cdr)
  | .node x (.node y car cdr) cdr' =>
      (popMin (.node y car cdr)).map fun (z, t) => (z, .node x t cdr')

@[simp]
theorem inorder_nil : inorder (.nil : BinaryTree α) = [] := rfl

@[simp]
theorem inorder_node (x : α) (car cdr : BinaryTree α) :
    inorder (.node x car cdr) = inorder car ++ x :: inorder cdr := rfl

theorem first_eq (t : BinaryTree α) : first t = (inorder t).head? := by
  fun_induction first t with
  | case1 => rfl
  | case2 => rfl
  | case3 x y car cdr cdr' ih =>
      rw [ih]
      simp only [inorder_node, List.append_assoc, List.cons_append, List.head?_append,
        List.head?_cons]

/-- The leftmost member is the first of the traversal, and the others stay in their order. -/
theorem popMin_of_inorder {t : BinaryTree α} {x : α} {l : List α} (h : inorder t = x :: l) :
    ∃ t', popMin t = some (x, t') ∧ inorder t' = l := by
  induction t generalizing l with
  | nil => simp at h
  | node y car cdr ihcar _ =>
      cases car with
      | nil =>
          obtain ⟨rfl, rfl⟩ : y = x ∧ inorder cdr = l := by simpa using h
          exact ⟨cdr, rfl, rfl⟩
      | node z car' cdr' =>
          obtain ⟨a, m, hcar⟩ : ∃ a m, inorder (.node z car' cdr') = a :: m :=
            List.exists_cons_of_ne_nil (by simp)
          rw [inorder_node, hcar, List.cons_append, List.cons.injEq] at h
          obtain ⟨rfl, rfl⟩ := h
          obtain ⟨t', hpop, ht'⟩ := ihcar hcar
          refine ⟨.node y t' cdr, ?_, by rw [inorder_node, ht']⟩
          rw [popMin, hpop, Option.map_some]

/-- **Insertion** puts the new member between those whose keys are not greater and those whose
keys are; the two marks say that there are none of the former, and none of the latter. -/
theorem insert_spec {key : α → κ} (k : κ) (x : α) {t : BinaryTree α}
    (h : (inorder t).Pairwise fun a b => key a ≤ key b) :
    ∃ A B, inorder t = A ++ B ∧ inorder (insert key k x t).1 = A ++ x :: B ∧
      (∀ a ∈ A, key a ≤ k) ∧ (∀ b ∈ B, k < key b) ∧
      ((insert key k x t).2.1 = true ↔ A = []) ∧ ((insert key k x t).2.2 = true ↔ B = []) := by
  induction t with
  | nil => exact ⟨[], [], rfl, rfl, by simp, by simp, by simp [insert], by simp [insert]⟩
  | node y car cdr ihcar ihcdr =>
      rw [inorder_node] at h
      obtain ⟨hcar, hcdr, hcross⟩ := List.pairwise_append.mp h
      obtain ⟨hy, hcdr⟩ := List.pairwise_cons.mp hcdr
      by_cases hlt : k < key y
      · obtain ⟨A, B, hAB, hins, hA, hB, hmin, -⟩ := ihcar hcar
        refine ⟨A, B ++ y :: inorder cdr, by simp [hAB], ?_, hA, ?_, ?_, ?_⟩
        · simp [insert, hlt, hins]
        · intro b hb
          rcases List.mem_append.mp hb with hb | hb
          · exact hB b hb
          · rcases List.mem_cons.mp hb with rfl | hb
            · exact hlt
            · exact lt_of_lt_of_le hlt (hy b hb)
        · simpa [insert, hlt] using hmin
        · simp [insert, hlt]
      · obtain ⟨A, B, hAB, hins, hA, hB, -, hmax⟩ := ihcdr hcdr
        refine ⟨inorder car ++ y :: A, B, by simp [hAB], ?_, ?_, hB, ?_, ?_⟩
        · simp [insert, hlt, hins]
        · intro a ha
          have hle : key y ≤ k := not_lt.mp hlt
          rcases List.mem_append.mp ha with ha | ha
          · exact le_trans (hcross a ha y List.mem_cons_self) hle
          · rcases List.mem_cons.mp ha with rfl | ha
            · exact hle
            · exact hA a ha
        · simp [insert, hlt]
        · simpa [insert, hlt] using hmax

/-- A tree whose first and last member are kept. -/
structure Ends (α : Type u) where
  root : BinaryTree α
  min : Option α
  max : Option α
  deriving DecidableEq, Repr

namespace Ends

/-- The empty tree. -/
def empty : Ends α := ⟨.nil, none, none⟩

/-- Insert a member with its key. -/
def push (key : α → κ) (x : α) (t : Ends α) : Ends α :=
  let (root, minp, maxp) := insert key (key x) x t.root
  ⟨root, if minp then some x else t.min, if maxp then some x else t.max⟩

/-- Take the first member out and insert it again, with the key it has now. -/
def reinsertMin (key : α → κ) (t : Ends α) : Ends α :=
  match popMin t.root with
  | none => t
  | some (x, root) =>
      let (root, minp, maxp) := insert key (key x) x root
      ⟨root, if minp then t.min else first root, if maxp then some x else t.max⟩

/-- The tree is sorted, and its ends are the ones that are kept. -/
structure Ok (key : α → κ) (t : Ends α) : Prop where
  sorted : (inorder t.root).Pairwise fun a b => key a ≤ key b
  min : t.min = (inorder t.root).head?
  max : t.max = (inorder t.root).getLast?

variable {key key' : α → κ} {t : Ends α} {x m : α} {l : List α}

theorem ok_empty (key : α → κ) : (empty : Ends α).Ok key := ⟨.nil, rfl, rfl⟩

theorem Ok.congr (h : t.Ok key) (hkey : ∀ x ∈ inorder t.root, key' x = key x) : t.Ok key' := by
  refine ⟨?_, h.min, h.max⟩
  apply List.Pairwise.imp_of_mem _ h.sorted
  intro a b ha hb hab
  rwa [hkey a ha, hkey b hb]

/-- What is kept as the first member has the least key. -/
theorem Ok.min_le (h : t.Ok key) (hm : t.min = some m) (hx : x ∈ inorder t.root) :
    key m ≤ key x := by
  rw [h.min] at hm
  obtain ⟨l, hl⟩ := List.head?_eq_some_iff.mp hm
  have hsorted := h.sorted
  rw [hl] at hx hsorted
  rcases List.mem_cons.mp hx with rfl | hx
  · exact le_rfl
  · exact (List.pairwise_cons.mp hsorted).1 x hx

/-- What is kept as the last member has the greatest key. -/
theorem Ok.le_max (h : t.Ok key) (hm : t.max = some m) (hx : x ∈ inorder t.root) :
    key x ≤ key m := by
  rw [h.max] at hm
  obtain ⟨l, hl⟩ := List.getLast?_eq_some_iff.mp hm
  have hsorted := h.sorted
  rw [hl] at hx hsorted
  rcases List.mem_append.mp hx with hx | hx
  · exact (List.pairwise_append.mp hsorted).2.2 x hx m (by simp)
  · rw [List.mem_singleton.mp hx]

theorem sorted_insert {A B : List α} (h : (A ++ B).Pairwise fun a b => key a ≤ key b)
    (hA : ∀ a ∈ A, key a ≤ key x) (hB : ∀ b ∈ B, key x < key b) :
    (A ++ x :: B).Pairwise fun a b => key a ≤ key b := by
  obtain ⟨hAs, hBs, hcross⟩ := List.pairwise_append.mp h
  refine List.pairwise_append.mpr ⟨hAs, List.pairwise_cons.mpr ⟨fun b hb => (hB b hb).le, hBs⟩, ?_⟩
  intro a ha b hb
  rcases List.mem_cons.mp hb with rfl | hb
  · exact hA a ha
  · exact hcross a ha b hb

theorem Ok.push (h : t.Ok key) (x : α) :
    (t.push key x).Ok key ∧ (inorder (t.push key x).root).Perm (x :: inorder t.root) := by
  obtain ⟨A, B, hAB, hins, hA, hB, hmin, hmax⟩ := insert_spec (key x) x h.sorted
  refine ⟨⟨?_, ?_, ?_⟩, ?_⟩
  · simp only [Ends.push, hins]
    exact sorted_insert (hAB ▸ h.sorted) hA hB
  · simp only [Ends.push, hins]
    split_ifs with hp
    · simp [hmin.mp hp]
    · obtain ⟨a, A', rfl⟩ := List.exists_cons_of_ne_nil (mt hmin.mpr hp)
      simp [h.min, hAB]
  · simp only [Ends.push, hins]
    split_ifs with hp
    · simp [hmax.mp hp]
    · obtain ⟨b, B', rfl⟩ := List.exists_cons_of_ne_nil (mt hmax.mpr hp)
      simp [h.max, hAB, List.getLast?_append, List.getLast?_cons]
  · simp only [Ends.push, hins, hAB]
    exact List.perm_middle

/-- **Reinserting the first member** keeps the tree sorted by keys that have changed at that
member only. -/
theorem Ok.reinsertMin (key' : α → κ) (h : t.Ok key) (hl : inorder t.root = m :: l)
    (hkey : ∀ x ∈ l, key' x = key x) :
    (t.reinsertMin key').Ok key' ∧
      (inorder (t.reinsertMin key').root).Perm (inorder t.root) := by
  obtain ⟨root, hpop, hroot⟩ := popMin_of_inorder hl
  have hmin₀ := h.min
  have hmax₀ := h.max
  have hsorted := h.sorted
  rw [hl] at hmin₀ hmax₀ hsorted
  have hrest : (inorder root).Pairwise fun a b => key' a ≤ key' b := by
    rw [hroot]
    refine List.Pairwise.imp_of_mem ?_ (List.pairwise_cons.mp hsorted).2
    intro a b ha hb hab
    rwa [hkey a ha, hkey b hb]
  obtain ⟨A, B, hAB, hins, hA, hB, hmin, hmax⟩ := insert_spec (key' m) m hrest
  simp only [Ends.reinsertMin, hpop]
  refine ⟨⟨?_, ?_, ?_⟩, ?_⟩
  · simp only [hins]
    exact sorted_insert (hAB ▸ hrest) hA hB
  · simp only [hins]
    split_ifs with hp
    · simp [hmin.mp hp, hmin₀]
    · rw [first_eq, hins]
  · simp only [hins]
    split_ifs with hp
    · simp [hmax.mp hp]
    · obtain ⟨b, B', rfl⟩ := List.exists_cons_of_ne_nil (mt hmax.mpr hp)
      rw [hmax₀, ← hroot, hAB]
      simp [List.getLast?_append, List.getLast?_cons]
  · simp only [hins, hl]
    rw [← hroot, hAB]
    exact List.perm_middle

end Ends

end Senna.Lib.SearchTree
