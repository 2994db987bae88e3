/-
# Linear memory

A memory maps addresses to cells. `write` puts a list of cells at an address and `read`
takes as many cells from one as asked for. Two facts carry every proof about a memory:
what has been written is read back, and a write changes nothing outside its range.
-/

import Mathlib.Tactic

namespace Senna.Lib

universe u

/-- The cells of a memory by their addresses. -/
abbrev Memory (α : Type u) := Nat → α

namespace Memory

variable {α : Type u} {m m' : Memory α} {a b n k : Nat} {bs : List α}

/-- `n` cells from the address `a` on. -/
def read (m : Memory α) (a : Nat) : Nat → List α
  | 0 => []
  | n + 1 => m a :: read m (a + 1) n

/-- The memory with `bs` at the address `a`. -/
def write (m : Memory α) (a : Nat) (bs : List α) : Memory α := fun i =>
  if a ≤ i then (bs[i - a]?).getD (m i) else m i

@[simp]
theorem length_read (m : Memory α) (a n : Nat) : (m.read a n).length = n := by
  induction n generalizing a with
  | zero => rfl
  | succ n ih => simp [read, ih]

theorem read_add (m : Memory α) (a n k : Nat) :
    m.read a (n + k) = m.read a n ++ m.read (a + n) k := by
  induction n generalizing a with
  | zero => simp [read]
  | succ n ih =>
      rw [Nat.add_right_comm, read, read, ih, List.cons_append, Nat.add_right_comm a 1 n]
      rfl

/-- Reading depends on the cells of the range only. -/
theorem read_congr (h : ∀ i, a ≤ i → i < a + n → m i = m' i) : m.read a n = m'.read a n := by
  induction n generalizing a with
  | zero => rfl
  | succ n ih =>
      rw [read, read, h a le_rfl (by omega), ih]
      intro i hle hlt
      exact h i (by omega) (by omega)

/-- Outside its range a write changes nothing. -/
theorem write_of_not_mem {i : Nat} (h : ¬ (a ≤ i ∧ i < a + bs.length)) : m.write a bs i = m i := by
  unfold write
  split_ifs with hle
  · rw [List.getElem?_eq_none (by omega), Option.getD_none]
  · rfl

/-- **Reading back** what has been written. -/
theorem read_write (m : Memory α) (a : Nat) (bs : List α) :
    (m.write a bs).read a bs.length = bs := by
  induction bs generalizing m a with
  | nil => rfl
  | cons c bs ih =>
      have hhead : m.write a (c :: bs) a = c := by simp [write]
      have htail : (m.write a (c :: bs)).read (a + 1) bs.length =
          (m.write (a + 1) bs).read (a + 1) bs.length := by
        apply read_congr
        intro i hle hlt
        obtain ⟨d, rfl⟩ := Nat.exists_eq_add_of_le hle
        have hd : a + 1 + d - a = d + 1 := by omega
        simp [write, hd, show a ≤ a + 1 + d by omega]
      rw [List.length_cons, read, hhead, htail, ih]

/-- **Frame.** A write elsewhere does not change what is read. -/
theorem read_write_of_disjoint (h : a + n ≤ b ∨ b + bs.length ≤ a) :
    (m.write b bs).read a n = m.read a n := by
  apply read_congr
  intro i hle hlt
  apply write_of_not_mem
  omega

/-- Reading inside of what has been written. -/
theorem read_write_append (m : Memory α) (a : Nat) (bs cs ds : List α) :
    (m.write a (bs ++ cs ++ ds)).read (a + bs.length) cs.length = cs := by
  have h := read_write m a (bs ++ cs ++ ds)
  rw [List.length_append, List.length_append, read_add, read_add] at h
  have hsplit := List.append_inj (List.append_inj h (by simp)).1 (by simp)
  exact hsplit.2

end Memory

end Senna.Lib
