/-
# Probe sequences

An open table of `n` slots looks for a key at the slots `q 0`, `q 1`, … of the key's probe
sequence. An entry is found as long as the slots before it are in use, so a table may do
anything to its slots but empty one. A sequence with an odd step in a table whose size is a
power of two visits every slot.
-/

import Mathlib.Tactic
import Mathlib.Data.Nat.ModEq

namespace Senna.Lib

/-- The first `n` probes visit every slot. -/
def Covers (q : Nat → Nat) (n : Nat) : Prop := ∀ p < n, ∃ j < n, q j = p

/-- The slot `p` is visited after probes of slots in use only. -/
def Reaches (used : Nat → Prop) (q : Nat → Nat) (p : Nat) : Prop :=
  ∃ j, q j = p ∧ ∀ i < j, used (q i)

section

variable {used used' : Nat → Prop} {q : Nat → Nat} {n p : Nat}

/-- A slot stays reachable while no slot is emptied. -/
theorem Reaches.mono (h : Reaches used q p) (hused : ∀ i, used i → used' i) :
    Reaches used' q p := by
  obtain ⟨j, hj, hbefore⟩ := h
  exact ⟨j, hj, fun i hi => hused _ (hbefore i hi)⟩

/-- There is a first probe at which to stop when some slot is one to stop at. -/
theorem Covers.exists_first (h : Covers q n) (stop : Nat → Prop) (hp : p < n) (hstop : stop p) :
    ∃ j < n, stop (q j) ∧ ∀ i < j, ¬ stop (q i) := by
  classical
  obtain ⟨j, hj, rfl⟩ := h p hp
  have hex : ∃ j, stop (q j) := ⟨j, hstop⟩
  refine ⟨Nat.find hex, ?_, Nat.find_spec hex, fun i hi => Nat.find_min hex hi⟩
  exact lt_of_le_of_lt (Nat.find_min' hex hstop) hj

/-- A reachable slot comes before the first unused one. -/
theorem Reaches.before {j : Nat} (h : Reaches used q p) (hj : ¬ used (q j)) (hne : q j ≠ p) :
    ∃ i < j, q i = p := by
  obtain ⟨i, hi, hbefore⟩ := h
  refine ⟨i, ?_, hi⟩
  by_contra hle
  rcases Nat.lt_or_eq_of_le (not_lt.mp hle) with hlt | heq
  · exact hj (hbefore j hlt)
  · exact hne (heq ▸ hi)

end

/-- **An odd step covers a table whose size is a power of two.** -/
theorem covers_of_odd (h : Nat) {s k : Nat} (hs : s % 2 = 1) :
    Covers (fun j => (h + j * s) % 2 ^ k) (2 ^ k) := by
  have hpos : 0 < 2 ^ k := Nat.two_pow_pos k
  have hcoprime : Nat.gcd (2 ^ k) s = 1 :=
    Nat.Coprime.pow_left k (Nat.coprime_two_left.mpr (Nat.odd_iff.mpr hs))
  let f : Fin (2 ^ k) → Fin (2 ^ k) := fun j => ⟨(h + j * s) % 2 ^ k, Nat.mod_lt _ hpos⟩
  have hinj : Function.Injective f := by
    intro i j hij
    have hmod : h + i * s ≡ h + j * s [MOD 2 ^ k] := congrArg Fin.val hij
    have hmul := Nat.ModEq.add_left_cancel' h hmod
    have hmod := Nat.ModEq.cancel_right_of_coprime hcoprime hmul
    exact Fin.ext (by rwa [Nat.ModEq, Nat.mod_eq_of_lt i.2, Nat.mod_eq_of_lt j.2] at hmod)
  intro p hp
  obtain ⟨j, hj⟩ := Finite.injective_iff_surjective.mp hinj ⟨p, hp⟩
  exact ⟨j, j.2, congrArg Fin.val hj⟩

end Senna.Lib
