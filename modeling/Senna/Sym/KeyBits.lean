/-
# The bits of keys

Keys are compared bit by bit, from the highest bit of the first byte on. Strings with their
terminators, and keys of one size, are such that none begins another one. So two of them differ in
a byte that both have, and `_sen_sym_get` finds the first bit that differs without leaving either.
-/

import Senna.Lib.BitTree
import Senna.Sym.Table

namespace Senna.Sym

open Senna.Lib Senna.Lib.BitTree

/-- The number of bits of a key. -/
def bitLen (key : List UInt8) : Nat := key.length * 8

/-- A key that a table takes: a string with its terminator, or bytes as many as the table is made
for. -/
structure IsKey (keySize : Nat) (key : List UInt8) : Prop where
  size : if keySize = 0 then ∃ w, (0 : UInt8) ∉ w ∧ key = w ++ [0] else key.length = keySize
  short : key.length * 8 ≤ senSymMaxKeyLength

/-- The bit `j` of a byte, from the highest one on. -/
def byteBit (b : UInt8) (j : Nat) : Bool := b &&& (0x80 >>> UInt8.ofNat j) ≠ 0

theorem nthBit_eq (key : List UInt8) (n : Nat) :
    nthBit key n = byteBit (key.getD (n / 8) 0) (n % 8) := rfl

theorem byteBit_eq_testBit {j : Nat} (hj : j < 8) (b : UInt8) :
    byteBit b j = b.toNat.testBit (7 - j) := by
  have hall : ∀ j < 8, ∀ n < 256, byteBit (UInt8.ofNat n) j = n.testBit (7 - j) := by
    decide +kernel
  have h := hall j hj b.toNat b.toNat_lt
  rwa [UInt8.ofNat_toNat] at h

theorem byteBit_xor {j : Nat} (hj : j < 8) (a b : UInt8) :
    byteBit (a ^^^ b) j = (byteBit a j ^^ byteBit b j) := by
  rw [byteBit_eq_testBit hj, byteBit_eq_testBit hj, byteBit_eq_testBit hj, UInt8.toNat_xor,
    Nat.testBit_xor]

theorem diffBit_add (x : UInt8) (k : Nat) (mask : UInt8) (c : Nat) :
    diffBit x k mask c = (diffBit x k mask 0).map (c + ·) := by
  induction k generalizing mask c with
  | zero => rfl
  | succ k ih =>
      rw [diffBit, diffBit]
      split_ifs
      · rfl
      · rw [ih _ (c + 1), ih _ (0 + 1), Option.map_map]
        congr 1
        funext j
        simp only [Function.comp_apply]
        omega

/-- The loop over the mask finds the first bit that is set. -/
theorem diffBit_spec {x : UInt8} (hx : x ≠ 0) (c : Nat) :
    ∃ j < 8, diffBit x 8 0x80 c = some (c + j) ∧ (∀ i < j, byteBit x i = false) ∧
      byteBit x j = true := by
  have hall : ∀ n < 256, n ≠ 0 → ∃ j < 8, diffBit (UInt8.ofNat n) 8 0x80 0 = some j ∧
      (∀ i < j, byteBit (UInt8.ofNat n) i = false) ∧ byteBit (UInt8.ofNat n) j = true := by
    decide +kernel
  have hpos : x.toNat ≠ 0 := fun h => hx (UInt8.toNat_inj.mp h)
  obtain ⟨j, hj, hrun, hlow, hset⟩ := hall x.toNat x.toNat_lt hpos
  rw [UInt8.ofNat_toNat] at hrun hlow hset
  exact ⟨j, hj, by rw [diffBit_add, hrun, Option.map_some], hlow, hset⟩

theorem diffByte_spec {p : Memory UInt8} {key : List UInt8} {i j : Nat} (hj : j < key.length)
    (hsame : ∀ j' < j, p (i + j') = key.getD j' 0) (hne : p (i + j) ≠ key.getD j 0) :
    diffByte p i key = some (i + j, p (i + j) ^^^ key.getD j 0) := by
  induction key generalizing i j with
  | nil => exact absurd hj (Nat.not_lt_zero j)
  | cons b key ih =>
      cases j with
      | zero => exact if_neg hne
      | succ j =>
          have hfirst : p i = b := hsame 0 (Nat.succ_pos j)
          have hshift : i + (j + 1) = i + 1 + j := by omega
          rw [diffByte, if_pos hfirst, hshift, List.getD_cons_succ]
          refine ih (Nat.lt_of_succ_lt_succ hj) (fun j' hj' => ?_) ?_
          · rw [show i + 1 + j' = i + (j' + 1) by omega]
            exact hsame (j' + 1) (Nat.succ_lt_succ hj')
          · rwa [← hshift]

theorem read_getD {p : Memory UInt8} {a n i : Nat} (hi : i < n) :
    (p.read a n).getD i 0 = p (a + i) := by
  induction n generalizing a i with
  | zero => exact absurd hi (Nat.not_lt_zero i)
  | succ n ih =>
      cases i with
      | zero => rfl
      | succ i =>
          rw [Memory.read, List.getD_cons_succ, ih (Nat.lt_of_succ_lt_succ hi)]
          congr 1
          omega

/-- **The position that `_sen_sym_get` finds** is where the keys first differ. -/
theorem diffAt_spec {p : Memory UInt8} {K key : List UInt8} (hp : p.read 0 K.length = K) {j : Nat}
    (hjK : j < K.length) (hj : j < key.length) (hsame : ∀ i < j, K.getD i 0 = key.getD i 0)
    (hne : K.getD j 0 ≠ key.getD j 0) :
    ∃ c, diffAt p key = some c ∧ FirstDiff bitLen nthBit c K key := by
  have hread : ∀ i < K.length, p i = K.getD i 0 := by
    intro i hi
    conv_rhs => rw [← hp, read_getD hi, Nat.zero_add]
  have hdiff : K.getD j 0 ^^^ key.getD j 0 ≠ 0 := fun h => hne (UInt8.xor_eq_zero_iff.mp h)
  obtain ⟨t, ht, hrun, hlow, hset⟩ := diffBit_spec hdiff (8 * j)
  have hbyte : diffByte p 0 key = some (j, K.getD j 0 ^^^ key.getD j 0) := by
    have hbefore : ∀ i < j, p (0 + i) = key.getD i 0 := by
      intro i hi
      rw [Nat.zero_add, hread i (lt_trans hi hjK), hsame i hi]
    have h := diffByte_spec hj hbefore (by rwa [Nat.zero_add, hread j hjK])
    rwa [Nat.zero_add, hread j hjK] at h
  refine ⟨8 * j + t, by rw [diffAt, hbyte, Option.bind_some, hrun], ?_, ?_, ?_, ?_⟩
  · intro i hi
    rw [nthBit_eq, nthBit_eq]
    rcases lt_or_eq_of_le (show i / 8 ≤ j by omega) with hlt | heq
    · rw [hsame _ hlt]
    · have hbit := hlow (i % 8) (by omega)
      rw [byteBit_xor (Nat.mod_lt i (by decide))] at hbit
      rw [heq]
      exact bne_eq_false_iff_eq.mp hbit
  · rw [nthBit_eq, nthBit_eq, show (8 * j + t) / 8 = j by omega, show (8 * j + t) % 8 = t by omega]
    rw [byteBit_xor ht] at hset
    exact bne_iff_ne.mp hset
  · unfold bitLen
    omega
  · unfold bitLen
    omega

/-- Two lists of which neither begins the other one. -/
theorem exists_diff {K key : List UInt8} (h : ¬ K <+: key) (h' : ¬ key <+: K) :
    ∃ j < K.length, j < key.length ∧ (∀ i < j, K.getD i 0 = key.getD i 0) ∧
      K.getD j 0 ≠ key.getD j 0 := by
  induction K generalizing key with
  | nil => exact absurd (List.nil_prefix) h
  | cons a K ih =>
      cases key with
      | nil => exact absurd (List.nil_prefix) h'
      | cons b key =>
          by_cases hab : a = b
          · rw [hab] at h h' ⊢
            obtain ⟨j, hK, hkey, hsame, hne⟩ := ih (fun hp => h ((List.prefix_cons_inj b).mpr hp))
              fun hp => h' ((List.prefix_cons_inj b).mpr hp)
            refine ⟨j + 1, Nat.succ_lt_succ hK, Nat.succ_lt_succ hkey, fun i hi => ?_, ?_⟩
            · cases i with
              | zero => rfl
              | succ i =>
                  rw [List.getD_cons_succ, List.getD_cons_succ]
                  exact hsame i (Nat.lt_of_succ_lt_succ hi)
            · rwa [List.getD_cons_succ, List.getD_cons_succ]
          · exact ⟨0, Nat.succ_pos _, Nat.succ_pos _, fun i hi => absurd hi (Nat.not_lt_zero i),
              hab⟩

variable {keySize : Nat} {K key : List UInt8}

/-- A key does not begin another one. -/
theorem IsKey.eq_of_prefix (hK : IsKey keySize K) (hkey : IsKey keySize key) (h : K <+: key) :
    K = key := by
  have hsize := hK.size
  have hsize' := hkey.size
  split_ifs at hsize hsize'
  · obtain ⟨w, hw, rfl⟩ := hsize
    obtain ⟨w', hw', rfl⟩ := hsize'
    obtain ⟨r, hr⟩ := h
    rw [List.append_assoc, List.singleton_append] at hr
    -- the terminator of the first one is that of the second one
    rcases List.append_eq_append_iff.mp hr with ⟨a, hwa, ha⟩ | ⟨a, hwa, ha⟩
    · cases a with
      | nil => rw [hwa, List.append_nil]
      | cons x a =>
          obtain ⟨rfl, -⟩ := List.cons.inj ha
          exact absurd (hwa ▸ List.mem_append_right w List.mem_cons_self) hw'
    · cases a with
      | nil => rw [hwa, List.append_nil]
      | cons x a =>
          obtain ⟨rfl, -⟩ := List.cons.inj ha
          exact absurd (hwa ▸ List.mem_append_right w' List.mem_cons_self) hw
  · exact h.eq_of_length (hsize.trans hsize'.symm)

/-- Two keys first differ in a bit that `_sen_sym_get` finds. -/
theorem IsKey.diffAt (hK : IsKey keySize K) (hkey : IsKey keySize key) (hne : K ≠ key)
    {p : Memory UInt8} (hp : p.read 0 K.length = K) :
    ∃ c, Sym.diffAt p key = some c ∧ FirstDiff bitLen nthBit c K key := by
  obtain ⟨j, hjK, hj, hsame, hdiffer⟩ := exists_diff (fun h => hne (hK.eq_of_prefix hkey h))
    fun h => hne (hkey.eq_of_prefix hK h).symm
  exact diffAt_spec hp hjK hj hsame hdiffer

theorem IsKey.sizeOf {s : SenSym} (hkey : IsKey s.keySize key) : s.sizeOf key = key.length := by
  have hsize := hkey.size
  unfold SenSym.sizeOf
  split_ifs at hsize ⊢ with hzero
  · obtain ⟨w, hw, rfl⟩ := hsize
    have htake : (w ++ [0]).takeWhile (· ≠ 0) = w := by
      have hall : ∀ b ∈ w, decide (b ≠ 0) = true := fun b hb =>
        decide_eq_true fun hzero => hw (hzero ▸ hb)
      rw [List.takeWhile_append_of_pos hall]
      exact List.append_nil w
    rw [htake, List.length_append, List.length_singleton]
  · exact hsize.symm

theorem IsKey.length_pos (hkey : IsKey keySize key) : 0 < key.length := by
  have hsize := hkey.size
  split_ifs at hsize
  · obtain ⟨w, -, rfl⟩ := hsize
    rw [List.length_append]
    exact Nat.succ_pos _
  · omega

end Senna.Sym
