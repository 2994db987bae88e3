/-
# Computations with fuel

A loop whose number of rounds is not known beforehand is a function of an amount of
fuel that returns `none` when the fuel is used up. `Settles f a` says that from some
amount on it returns `a`: the loop terminates with the result `a`. The rules compose
such facts without mentioning any amount.
-/

import Mathlib.Tactic

namespace Senna.Lib

universe u v

variable {α : Type u} {β : Type v}

/-- From some amount of fuel on, `f` returns `a`. -/
def Settles (f : Nat → Option α) (a : α) : Prop := ∃ n, ∀ k ≥ n, f k = some a

namespace Settles

/-- The result of a terminating computation is determined. -/
theorem unique {f : Nat → Option α} {a b : α} (ha : Settles f a) (hb : Settles f b) : a = b := by
  obtain ⟨m, hm⟩ := ha
  obtain ⟨n, hn⟩ := hb
  exact Option.some.inj ((hm _ (le_max_left m n)).symm.trans (hn _ (le_max_right m n)))

/-- What takes no fuel has terminated. -/
theorem pure (a : α) : Settles (fun _ => some a) a := ⟨0, fun _ _ => rfl⟩

/-- One round of a loop costs one unit of fuel. -/
theorem succ {f g : Nat → Option α} {a : α} (hfg : ∀ k, f (k + 1) = g k) (hg : Settles g a) :
    Settles f a := by
  obtain ⟨n, hn⟩ := hg
  refine ⟨n + 1, fun k hk => ?_⟩
  obtain ⟨k, rfl⟩ : ∃ m, k = m + 1 := ⟨k - 1, by omega⟩
  rw [hfg, hn k (by omega)]

/-- One computation after the other, both with the same fuel. -/
theorem bind {f : Nat → Option α} {g : Nat → α → Option β} {a : α} {b : β} (hf : Settles f a)
    (hg : Settles (fun k => g k a) b) : Settles (fun k => (f k).bind (g k)) b := by
  obtain ⟨m, hm⟩ := hf
  obtain ⟨n, hn⟩ := hg
  refine ⟨max m n, fun k hk => ?_⟩
  have hf : f k = some a := hm k (le_trans (le_max_left m n) hk)
  have hg : g k a = some b := hn k (le_trans (le_max_right m n) hk)
  simp only [hf, Option.bind_some, hg]

/-- What is made of the result takes no fuel. -/
theorem map {f : Nat → Option α} {a : α} (hf : Settles f a) (g : α → β) :
    Settles (fun k => (f k).map g) (g a) := by
  obtain ⟨n, hn⟩ := hf
  exact ⟨n, fun k hk => by simp only [hn k hk, Option.map_some]⟩

/-- A computation that equals a terminating one terminates. -/
theorem congr {f g : Nat → Option α} {a : α} (hfg : ∀ k, f k = g k) (hg : Settles g a) :
    Settles f a := by
  obtain rfl : f = g := funext hfg
  exact hg

end Settles

end Senna.Lib
