/-
# Simple arrays

A `sen_array` has eight levels. The level `i` has a place for each of the ids from `16 ^ i` up to
`16 ^ (i + 1)`, and all its elements are in one block, which is allocated when the first of them is
asked for. The size of the block, and the offset of an element in it, are computed with 32 bits: the
size as an `int`, so that nothing larger than `2 ^ 31` bytes comes out, and the offset without a
sign.

A pointer is the number of the block that it points into and an offset in it. Memory is there as
long as its size is one that an allocator can give out.
-/

import Mathlib.Tactic

namespace Senna.Store

/-- What is left of a number in an `int`. -/
def cInt (i : Int) : Int := i.bmod (2 ^ 32)

/-- What is left of a number in a `uint32_t`. -/
def cU32 (i : Int) : Nat := (i % 2 ^ 32).toNat

/-- What is left of a number in a `size_t`. -/
def cSizeT (i : Int) : Nat := (i % 2 ^ 64).toNat

/-- A pointer: a block of memory, and how far inside of it. -/
structure Ptr where
  block : Nat
  offset : Nat
  deriving DecidableEq, Repr

/-- `(byte *)p + n` -/
def Ptr.add (p : Ptr) (n : Nat) : Ptr := ⟨p.block, p.offset + n⟩

/-- Two ranges of `n` bytes have no byte in common. -/
def Ptr.Apart (n : Nat) (p q : Ptr) : Prop :=
  p.block ≠ q.block ∨ p.offset + n ≤ q.offset ∨ q.offset + n ≤ p.offset

instance (n : Nat) (p q : Ptr) : Decidable (p.Apart n q) :=
  inferInstanceAs (Decidable (_ ∨ _))

/-- The `n` bytes from `p` on are in a block, if the blocks have these sizes. -/
def Ptr.Inside (sizes : List Nat) (n : Nat) (p : Ptr) : Prop :=
  ∃ size, sizes[p.block]? = some size ∧ p.offset + n ≤ size

/-- `SEN_GMALLOC` and `SEN_GCALLOC`, from the sizes of the blocks so far. A size of `2 ^ 63`
bytes or more is refused. -/
def senGmalloc (sizes : List Nat) (size : Nat) : Option Nat × List Nat :=
  if size >>> 63 = 0 then (some sizes.length, sizes ++ [size]) else (none, sizes)

theorem senGmalloc_of_fits {sizes : List Nat} {size : Nat} (h : size >>> 63 = 0) :
    senGmalloc sizes size = (some sizes.length, sizes ++ [size]) := if_pos h

theorem senGmalloc_of_exceeds {sizes : List Nat} {size : Nat} (h : size >>> 63 ≠ 0) :
    senGmalloc sizes size = (none, sizes) := if_neg h

/-- `sen_array`: the block of every level. -/
structure SenArray where
  elementSize : UInt16
  elements : Nat → Option Nat

/-- An array, and the sizes of all blocks that are allocated. -/
structure ArrayState where
  array : SenArray
  sizes : List Nat

/-- `sen_array_init` -/
def senArrayInit (elementSize : UInt16) : SenArray := ⟨elementSize, fun _ => none⟩

/-- `i` in `sen_array_at`: the level of an id. -/
def arrayLevel (id : Nat) : Nat := id.log2 >>> 2

/-- `1 << (i << 2)` -/
def arrayOrigin (i : Nat) : Int := cInt (1 <<< (i <<< 2) : Nat)

/-- `0x0f * o`, where `o` is the origin of the level `i`. -/
def arrayCount (i : Nat) : Int := cInt (0x0f * arrayOrigin i)

/-- `0x0f * o * a->element_size` -/
def arrayBytes (elementSize : UInt16) (i : Nat) : Int :=
  cInt (arrayCount i * elementSize.toNat)

/-- `(id - o) * a->element_size` -/
def arrayOffset (elementSize : UInt16) (id : Nat) : Nat :=
  cU32 (cU32 (id - arrayOrigin (arrayLevel id)) * elementSize.toNat)

/-- What `sen_array_at` does where the level `i` has no block: `*e = SEN_GMALLOC(..)`. -/
def ArrayState.allot (w : ArrayState) (i : Nat) : ArrayState :=
  let e := senGmalloc w.sizes (cSizeT (arrayBytes w.array.elementSize i))
  { array := { w.array with elements := Function.update w.array.elements i e.1 }
    sizes := e.2 }

/-- `sen_array_at` -/
def senArrayAt (w : ArrayState) (id : Nat) : Option Ptr × ArrayState :=
  let i := arrayLevel id
  let w := if (w.array.elements i).isSome then w else w.allot i
  ((w.array.elements i).map fun e => ⟨e, arrayOffset w.array.elementSize id⟩, w)

/-- The loop of `SEN_ARRAY_EACH` over one level, which runs `n` times. -/
def eachElement (elementSize : UInt16) : Nat → Nat → Ptr → List (Nat × Ptr)
  | 0, _, _ => []
  | n + 1, k, v => (k, v) :: eachElement elementSize n (cU32 (k + 1)) (v.add elementSize.toNat)

/-- The loop of `SEN_ARRAY_EACH` over `n` levels, from the level `ei` and the id `k` on. -/
def eachLevel (a : SenArray) : Nat → Nat → Nat → List (Nat × Ptr)
  | 0, _, _ => []
  | n + 1, ei, k =>
      let ej := arrayCount ei
      match a.elements ei with
      -- `_ej--` comes to zero after so many rounds, also from below
      | some e =>
          eachElement a.elementSize (cU32 ej) k ⟨e, 0⟩ ++
            eachLevel a n (ei + 1) (cU32 (k + cU32 ej))
      | none => eachLevel a n (ei + 1) (cU32 (k + ej))

/-- `SEN_ARRAY_EACH`: the ids and addresses that it visits. -/
def senArrayEach (a : SenArray) : List (Nat × Ptr) := eachLevel a 8 0 1

/-- What becomes of a new array when elements are asked for, in any order, and other memory is
allocated in between. -/
inductive ArrayReach (elementSize : UInt16) : ArrayState → Prop
  | init (sizes : List Nat) : ArrayReach elementSize ⟨senArrayInit elementSize, sizes⟩
  | other {w : ArrayState} (size : Nat) (h : ArrayReach elementSize w) :
      ArrayReach elementSize { w with sizes := w.sizes ++ [size] }
  | at {w : ArrayState} (id : Nat) (h : ArrayReach elementSize w) (hid : 1 ≤ id ∧ id < 2 ^ 32) :
      ArrayReach elementSize (senArrayAt w id).2

theorem cU32_natCast (n : Nat) : cU32 n = n % 2 ^ 32 := by
  unfold cU32
  omega

theorem arrayLevel_eq {id i : Nat} (hlow : 16 ^ i ≤ id) (hhigh : id < 16 ^ (i + 1)) :
    arrayLevel id = i := by
  have hpos : 0 < 16 ^ i := Nat.pow_pos (by decide)
  have hid : id ≠ 0 := by omega
  have hlow' : 4 * i ≤ id.log2 := by
    rw [Nat.le_log2 hid, pow_mul]
    exact hlow
  have hhigh' : id.log2 < 4 * (i + 1) := by
    rw [Nat.log2_lt hid, pow_mul]
    exact hhigh
  unfold arrayLevel
  rw [Nat.shiftRight_eq_div_pow]
  omega

/-- An id is in its level. -/
theorem arrayLevel_mem {id : Nat} (hid : 1 ≤ id) :
    16 ^ arrayLevel id ≤ id ∧ id < 16 ^ (arrayLevel id + 1) := by
  have hne : id ≠ 0 := by omega
  unfold arrayLevel
  rw [Nat.shiftRight_eq_div_pow]
  constructor
  · calc 16 ^ (id.log2 / 2 ^ 2) = 2 ^ (4 * (id.log2 / 2 ^ 2)) := by rw [pow_mul]; rfl
      _ ≤ 2 ^ id.log2 := Nat.pow_le_pow_right (by decide) (by omega)
      _ ≤ id := Nat.log2_self_le hne
  · calc id < 2 ^ (id.log2 + 1) := Nat.lt_log2_self
      _ ≤ 2 ^ (4 * (id.log2 / 2 ^ 2 + 1)) := Nat.pow_le_pow_right (by decide) (by omega)
      _ = 16 ^ (id.log2 / 2 ^ 2 + 1) := by rw [pow_mul]; rfl

theorem arrayLevel_lt {id n : Nat} (hid : 1 ≤ id) (hn : id < 16 ^ n) : arrayLevel id < n := by
  by_contra hge
  have hpow : 16 ^ n ≤ 16 ^ arrayLevel id := Nat.pow_le_pow_right (by decide) (by omega)
  have := (arrayLevel_mem hid).1
  omega

theorem arrayOrigin_eq {i : Nat} (hi : i < 8) : arrayOrigin i = 16 ^ i := by
  interval_cases i <;> rfl

/-- The wrapped number of elements counts down to zero after as many rounds as there are
elements. -/
theorem cU32_arrayCount {i : Nat} (hi : i < 8) : cU32 (arrayCount i) = 15 * 16 ^ i := by
  interval_cases i <;> rfl

theorem cInt_bounds (i : Int) : -2 ^ 31 ≤ cInt i ∧ cInt i < 2 ^ 31 := by
  have hlow := Int.le_bmod (x := i) (m := 2 ^ 32) (by decide)
  have hhigh := Int.bmod_lt (x := i) (m := 2 ^ 32) (by decide)
  unfold cInt
  omega

theorem cSizeT_of_nonneg {i : Int} (hlow : 0 ≤ i) (hhigh : i < 2 ^ 31) : cSizeT i = i.toNat := by
  unfold cSizeT
  omega

/-- A negative size is one that no allocator gives out. -/
theorem cSizeT_of_neg {i : Int} (hlow : -2 ^ 31 ≤ i) (hneg : i < 0) : cSizeT i >>> 63 ≠ 0 := by
  rw [Nat.shiftRight_eq_div_pow]
  unfold cSizeT
  omega

/-- How many bytes the elements of a level need. -/
def levelBytes (elementSize : UInt16) (i : Nat) : Nat := 15 * 16 ^ i * elementSize.toNat

theorem arrayBytes_eq (elementSize : UInt16) {i : Nat} (hi : i < 8) :
    arrayBytes elementSize i = cInt (levelBytes elementSize i) := by
  have hcount : arrayCount i = cInt (15 * 16 ^ i : Nat) := by interval_cases i <;> rfl
  unfold arrayBytes levelBytes
  rw [hcount]
  unfold cInt
  push_cast
  rw [Int.bmod_mul_bmod]

theorem arrayOffset_eq (elementSize : UInt16) {id : Nat} (hid : 1 ≤ id) (hmax : id < 2 ^ 32) :
    arrayOffset elementSize id =
      (id - 16 ^ arrayLevel id) * elementSize.toNat % 2 ^ 32 := by
  have hlow := (arrayLevel_mem hid).1
  have hlevel : arrayLevel id < 8 := arrayLevel_lt hid (by simpa using hmax)
  have hsub : ((id : Int) - 16 ^ arrayLevel id) = ((id - 16 ^ arrayLevel id : Nat) : Int) := by
    push_cast [Nat.cast_sub hlow]
    rfl
  unfold arrayOffset
  rw [arrayOrigin_eq hlevel, hsub, cU32_natCast,
    Nat.mod_eq_of_lt ((Nat.sub_le _ _).trans_lt hmax), ← Nat.cast_mul, cU32_natCast]

/-- An offset that is not wrapped. -/
theorem arrayOffset_of_fits (elementSize : UInt16) {id : Nat} (hid : 1 ≤ id) (hmax : id < 2 ^ 32)
    (hfits : levelBytes elementSize (arrayLevel id) < 2 ^ 31) :
    arrayOffset elementSize id = (id - 16 ^ arrayLevel id) * elementSize.toNat := by
  rw [arrayOffset_eq elementSize hid hmax]
  apply Nat.mod_eq_of_lt
  have hhigh := (arrayLevel_mem hid).2
  have hle : (id - 16 ^ arrayLevel id) * elementSize.toNat ≤
      levelBytes elementSize (arrayLevel id) :=
    Nat.mul_le_mul_right _ (by rw [pow_succ] at hhigh; omega)
  omega

/-- What holds of an array in every state: a level that is there has a block of its own, of the size
that was asked for. -/
structure ArrayState.Ok (elementSize : UInt16) (w : ArrayState) : Prop where
  elementSize_eq : w.array.elementSize = elementSize
  size_eq : ∀ i e, w.array.elements i = some e →
    w.sizes[e]? = some (cSizeT (arrayBytes elementSize i))
  injective : ∀ i j e, w.array.elements i = some e → w.array.elements j = some e → i = j

variable {elementSize : UInt16} {w : ArrayState}

/-- `sen_array_at` where the level has its block. -/
theorem senArrayAt_of_some {id e : Nat} (he : w.array.elements (arrayLevel id) = some e) :
    senArrayAt w id = (some ⟨e, arrayOffset w.array.elementSize id⟩, w) := by
  simp [senArrayAt, he]

/-- `sen_array_at` where the level has no block. -/
theorem senArrayAt_of_none {id : Nat} (he : w.array.elements (arrayLevel id) = none) :
    senArrayAt w id =
      ((senGmalloc w.sizes (cSizeT (arrayBytes w.array.elementSize (arrayLevel id)))).1.map
          fun e => ⟨e, arrayOffset w.array.elementSize id⟩,
        w.allot (arrayLevel id)) := by
  simp [senArrayAt, he, ArrayState.allot]

/-- `sen_array_at` where the level has no block and gets none. -/
theorem senArrayAt_refused {id : Nat} (he : w.array.elements (arrayLevel id) = none)
    (hsize : cSizeT (arrayBytes w.array.elementSize (arrayLevel id)) >>> 63 ≠ 0) :
    (senArrayAt w id).1 = none := by
  rw [senArrayAt_of_none he, senGmalloc_of_exceeds hsize]
  rfl

theorem ArrayState.allot_of_fits {i : Nat}
    (hsize : cSizeT (arrayBytes w.array.elementSize i) >>> 63 = 0) :
    w.allot i =
      { array := { w.array with
          elements := Function.update w.array.elements i (some w.sizes.length) }
        sizes := w.sizes ++ [cSizeT (arrayBytes w.array.elementSize i)] } := by
  unfold allot
  rw [senGmalloc_of_fits hsize]

theorem ArrayState.allot_of_exceeds {i : Nat} (he : w.array.elements i = none)
    (hsize : cSizeT (arrayBytes w.array.elementSize i) >>> 63 ≠ 0) :
    w.allot i = w := by
  unfold allot
  rw [senGmalloc_of_exceeds hsize, ← he]
  simp only [Function.update_eq_self]

/-- Other memory does not concern an array. -/
theorem ArrayState.Ok.grow (h : w.Ok elementSize) (size : Nat) :
    ArrayState.Ok elementSize { w with sizes := w.sizes ++ [size] } where
  elementSize_eq := h.elementSize_eq
  size_eq i e he := by
    have hsize := h.size_eq i e he
    have hlt := (List.getElem?_eq_some_iff.mp hsize).1
    simpa [List.getElem?_append_left hlt] using hsize
  injective := h.injective

/-- A level gets its block. -/
theorem ArrayState.Ok.update (h : w.Ok elementSize) (i : Nat) :
    ArrayState.Ok elementSize
      { array := { w.array with
          elements := Function.update w.array.elements i (some w.sizes.length) }
        sizes := w.sizes ++ [cSizeT (arrayBytes elementSize i)] } where
  elementSize_eq := h.elementSize_eq
  size_eq j e he := by
    by_cases hj : j = i
    · subst hj
      obtain rfl : w.sizes.length = e := by simpa using he
      simp
    · exact (h.grow _).size_eq j e (by simpa [Function.update_of_ne hj] using he)
  injective j k e hj hk := by
    -- a block of another level is older than the new one
    have hold : ∀ l, l ≠ i → w.array.elements l = some e → e < w.sizes.length := fun l _ hl =>
      (List.getElem?_eq_some_iff.mp (h.size_eq l e hl)).1
    by_cases hji : j = i <;> by_cases hki : k = i
    · rw [hji, hki]
    · subst hji
      have := hold k hki (by simpa [Function.update_of_ne hki] using hk)
      obtain rfl : w.sizes.length = e := by simpa using hj
      omega
    · subst hki
      have := hold j hji (by simpa [Function.update_of_ne hji] using hj)
      obtain rfl : w.sizes.length = e := by simpa using hk
      omega
    · exact h.injective j k e (by simpa [Function.update_of_ne hji] using hj)
        (by simpa [Function.update_of_ne hki] using hk)

/-- What one call of `sen_array_at` keeps. -/
theorem ArrayState.Ok.at (h : w.Ok elementSize) (id : Nat) :
    (senArrayAt w id).2.Ok elementSize := by
  cases he : w.array.elements (arrayLevel id) with
  | some e =>
      rw [senArrayAt_of_some he]
      exact h
  | none =>
      rw [senArrayAt_of_none he]
      by_cases hsize :
          cSizeT (arrayBytes w.array.elementSize (arrayLevel id)) >>> 63 = 0
      · rw [allot_of_fits hsize, h.elementSize_eq]
        exact h.update _
      · rw [allot_of_exceeds he hsize]
        exact h

theorem ArrayReach.ok (h : ArrayReach elementSize w) : w.Ok elementSize := by
  induction h with
  | init sizes =>
      exact ⟨rfl, fun i e he => by simp [senArrayInit] at he,
        fun i j e he => by simp [senArrayInit] at he⟩
  | other size _ ih => exact ih.grow size
  | «at» id _ _ ih => exact ih.at id

/-- The rounds over one level. -/
theorem eachElement_eq (elementSize : UInt16) {n k : Nat} {v : Ptr} (hmax : k + n ≤ 2 ^ 32) :
    eachElement elementSize n k v =
      (List.range n).map fun j => (k + j, v.add (j * elementSize.toNat)) := by
  induction n generalizing k v with
  | zero => rfl
  | succ n ih =>
      rw [eachElement, List.range_succ_eq_map, List.map_cons, List.map_map]
      congr 1
      · simp [Ptr.add]
      · cases n with
        | zero => rfl
        | succ n =>
            have hk : cU32 ((k : Int) + 1) = k + 1 := by
              unfold cU32
              omega
            rw [hk, ih (by omega)]
            apply List.map_congr_left
            intro j _
            simp only [Function.comp_apply, Ptr.add, Prod.mk.injEq, Ptr.mk.injEq, true_and]
            constructor
            · omega
            · rw [Nat.succ_mul]
              omega

/-- What `SEN_ARRAY_EACH` visits in the level `i`. -/
def levelVisits (a : SenArray) (i : Nat) : List (Nat × Ptr) :=
  match a.elements i with
  | some e => (List.range (15 * 16 ^ i)).map fun j => (16 ^ i + j, ⟨e, j * a.elementSize.toNat⟩)
  | none => []

/-- The rounds over the levels from `ei` on: each begins with the first id of its level. -/
theorem eachLevel_eq (a : SenArray) {n ei : Nat} (hn : ei + n = 8) :
    eachLevel a n ei (16 ^ ei % 2 ^ 32) = (List.range' ei n).flatMap (levelVisits a) := by
  induction n generalizing ei with
  | zero => rfl
  | succ n ih =>
      have hei : ei < 8 := by omega
      have hk : 16 ^ ei % 2 ^ 32 = 16 ^ ei := by interval_cases ei <;> rfl
      have hnext : cU32 ((16 ^ ei : Nat) + cU32 (arrayCount ei)) = 16 ^ (ei + 1) % 2 ^ 32 := by
        interval_cases ei <;> rfl
      have hnext' : cU32 ((16 ^ ei : Nat) + arrayCount ei) = 16 ^ (ei + 1) % 2 ^ 32 := by
        interval_cases ei <;> rfl
      rw [List.range'_succ, List.flatMap_cons, ← ih (by omega), eachLevel, hk, hnext, hnext']
      unfold levelVisits
      cases a.elements ei with
      | none => rfl
      | some e =>
          have hmax : 16 ^ ei + 15 * 16 ^ ei ≤ 2 ^ 32 := by interval_cases ei <;> decide
          simp only [cU32_arrayCount hei, eachElement_eq _ hmax, Ptr.add, Nat.zero_add]

theorem senArrayEach_eq (a : SenArray) :
    senArrayEach a = (List.range' 0 8).flatMap (levelVisits a) :=
  @eachLevel_eq a 8 0 rfl

theorem mem_levelVisits {a : SenArray} {i k : Nat} {p : Ptr} :
    (k, p) ∈ levelVisits a i ↔
      ∃ e, a.elements i = some e ∧ 16 ^ i ≤ k ∧ k < 16 ^ (i + 1) ∧
        p = ⟨e, (k - 16 ^ i) * a.elementSize.toNat⟩ := by
  unfold levelVisits
  rw [pow_succ]
  cases a.elements i with
  | none => simp
  | some e =>
      simp only [List.mem_map, List.mem_range, Prod.mk.injEq, Option.some.injEq,
        exists_eq_left']
      constructor
      · rintro ⟨j, hj, rfl, rfl⟩
        exact ⟨by omega, by omega, by simp⟩
      · rintro ⟨hlow, hhigh, rfl⟩
        exact ⟨k - 16 ^ i, by omega, by omega, rfl⟩

/-- Every id is visited once, and they come in order. -/
theorem senArrayEach_pairwise (a : SenArray) :
    (senArrayEach a).Pairwise fun x y => x.1 < y.1 := by
  rw [senArrayEach_eq, List.pairwise_flatMap]
  constructor
  · intro i _
    unfold levelVisits
    cases a.elements i with
    | none => exact .nil
    | some e =>
        refine List.pairwise_map.mpr (List.pairwise_lt_range.imp fun hlt => ?_)
        simpa using hlt
  · refine List.Pairwise.imp (fun {i j} hij x hx y hy => ?_) (List.pairwise_lt_range' 1)
    obtain ⟨-, -, -, hx, -⟩ := mem_levelVisits.mp hx
    obtain ⟨-, -, hy, -, -⟩ := mem_levelVisits.mp hy
    have hpow : 16 ^ (i + 1) ≤ 16 ^ j := Nat.pow_le_pow_right (by decide) hij
    omega

theorem mem_senArrayEach {a : SenArray} {k : Nat} {p : Ptr} :
    (k, p) ∈ senArrayEach a ↔
      1 ≤ k ∧ k < 2 ^ 32 ∧ ∃ e, a.elements (arrayLevel k) = some e ∧
        p = ⟨e, (k - 16 ^ arrayLevel k) * a.elementSize.toNat⟩ := by
  simp only [senArrayEach_eq, List.mem_flatMap, mem_levelVisits, List.mem_range'_1]
  constructor
  · rintro ⟨i, hi, e, he, hlow, hhigh, hp⟩
    obtain rfl := arrayLevel_eq hlow hhigh
    have hpos : 0 < 16 ^ arrayLevel k := Nat.pow_pos (by decide)
    have hpow : 16 ^ (arrayLevel k + 1) ≤ 16 ^ 8 := Nat.pow_le_pow_right (by decide) (by omega)
    exact ⟨by omega, by omega, e, he, hp⟩
  · rintro ⟨hk, hmax, e, he, hp⟩
    obtain ⟨hlow, hhigh⟩ := arrayLevel_mem hk
    have hlevel : arrayLevel k < 8 := arrayLevel_lt hk (by omega)
    exact ⟨arrayLevel k, by omega, e, he, hlow, hhigh, hp⟩

/-- What is asked of the ids below `16 ^ (n + 1)`, which are those of the first levels up to the
level `n`: any two of them have places of their own inside the blocks of their levels, and the
enumeration visits those whose levels are there, with the addresses that `sen_array_at` gives. -/
structure SlotsOk (elementSize : UInt16) (n : Nat) : Prop where
  places : ∀ w, ArrayReach elementSize w → ∀ x y, 1 ≤ x → x < 16 ^ (n + 1) → 1 ≤ y →
    y < 16 ^ (n + 1) → x ≠ y → ∃ p q w', (senArrayAt w x).1 = some p ∧
      senArrayAt (senArrayAt w x).2 y = (some q, w') ∧
      p.Apart elementSize.toNat q ∧
      w'.array.elements (arrayLevel x) = some p.block ∧ p.Inside w'.sizes elementSize.toNat ∧
      w'.array.elements (arrayLevel y) = some q.block ∧ q.Inside w'.sizes elementSize.toNat
  visits : ∀ w, ArrayReach elementSize w →
    ((senArrayEach w.array).Pairwise fun u v => u.1 < v.1) ∧
    ∀ k p, k < 16 ^ (n + 1) → ((k, p) ∈ senArrayEach w.array ↔
      1 ≤ k ∧ (w.array.elements (arrayLevel k)).isSome ∧ (senArrayAt w k).1 = some p)

theorem levelBytes_mono (elementSize : UInt16) {i n : Nat} (hi : i ≤ n) :
    levelBytes elementSize i ≤ levelBytes elementSize n :=
  Nat.mul_le_mul_right _ (Nat.mul_le_mul_left _ (Nat.pow_le_pow_right (by decide) hi))

/-- The size of a block that an `int` can hold. -/
theorem cSizeT_arrayBytes {i : Nat} (hi : i < 8) (hfits : levelBytes elementSize i < 2 ^ 31) :
    cSizeT (arrayBytes elementSize i) = levelBytes elementSize i := by
  rw [arrayBytes_eq elementSize hi]
  unfold cSizeT cInt
  rw [Int.bmod_eq_of_le_mul_two (by omega) (by omega)]
  omega

/-- What one call returns, if the size of the level fits. -/
theorem senArrayAt_place (hw : ArrayReach elementSize w) {x : Nat} (hx : 1 ≤ x) (hmax : x < 2 ^ 32)
    (hfits : levelBytes elementSize (arrayLevel x) < 2 ^ 31) :
    ∃ e, senArrayAt w x =
        (some ⟨e, (x - 16 ^ arrayLevel x) * elementSize.toNat⟩, (senArrayAt w x).2) ∧
      (senArrayAt w x).2.array.elements (arrayLevel x) = some e := by
  have hok := hw.ok
  have hlevel : arrayLevel x < 8 := arrayLevel_lt hx (by omega)
  have hoffset := arrayOffset_of_fits elementSize hx hmax hfits
  cases he : w.array.elements (arrayLevel x) with
  | some e =>
      rw [senArrayAt_of_some he, hok.elementSize_eq, hoffset]
      exact ⟨e, rfl, he⟩
  | none =>
      have hsize : cSizeT (arrayBytes w.array.elementSize (arrayLevel x)) >>> 63 = 0 := by
        rw [hok.elementSize_eq, cSizeT_arrayBytes hlevel hfits, Nat.shiftRight_eq_div_pow]
        omega
      rw [senArrayAt_of_none he, senGmalloc_of_fits hsize, ArrayState.allot_of_fits hsize,
        hok.elementSize_eq, hoffset]
      exact ⟨w.sizes.length, rfl, Function.update_self ..⟩

/-- A call leaves the levels alone that have their blocks. -/
theorem senArrayAt_keeps {x i e : Nat} (he : w.array.elements i = some e) :
    (senArrayAt w x).2.array.elements i = some e := by
  cases hx : w.array.elements (arrayLevel x) with
  | some f =>
      rw [senArrayAt_of_some hx]
      exact he
  | none =>
      have hne : i ≠ arrayLevel x := by
        rintro rfl
        simp [hx] at he
      rw [senArrayAt_of_none hx]
      simpa [ArrayState.allot, Function.update_of_ne hne] using he

/-- The element of an id is inside of the block of its level. -/
theorem ArrayState.Ok.inside (hok : w.Ok elementSize) {x e : Nat} (hx : 1 ≤ x) (hmax : x < 2 ^ 32)
    (hfits : levelBytes elementSize (arrayLevel x) < 2 ^ 31)
    (he : w.array.elements (arrayLevel x) = some e) :
    Ptr.Inside w.sizes elementSize.toNat ⟨e, (x - 16 ^ arrayLevel x) * elementSize.toNat⟩ := by
  have hlevel : arrayLevel x < 8 := arrayLevel_lt hx (by omega)
  refine ⟨levelBytes elementSize (arrayLevel x), ?_, ?_⟩
  · rw [← cSizeT_arrayBytes hlevel hfits]
    exact hok.size_eq _ _ he
  · have hhigh := (arrayLevel_mem hx).2
    have hle : (x - 16 ^ arrayLevel x + 1) * elementSize.toNat ≤
        levelBytes elementSize (arrayLevel x) :=
      Nat.mul_le_mul_right _ (by rw [pow_succ] at hhigh; omega)
    rw [Nat.succ_mul] at hle
    exact hle

/-- Elements of different ids are apart. -/
theorem ArrayState.Ok.apart (hok : w.Ok elementSize) {x y e f : Nat} (hx : 1 ≤ x) (hy : 1 ≤ y)
    (hne : x ≠ y) (he : w.array.elements (arrayLevel x) = some e)
    (hf : w.array.elements (arrayLevel y) = some f) :
    Ptr.Apart elementSize.toNat ⟨e, (x - 16 ^ arrayLevel x) * elementSize.toNat⟩
      ⟨f, (y - 16 ^ arrayLevel y) * elementSize.toNat⟩ := by
  by_cases hblock : e = f
  · -- one block belongs to one level
    subst hblock
    have hlevel := hok.injective _ _ _ he hf
    have hlowx := (arrayLevel_mem hx).1
    have hlowy := (arrayLevel_mem hy).1
    rw [hlevel] at hlowx ⊢
    have hmul : ∀ {a b : Nat}, a < b → a * elementSize.toNat + elementSize.toNat ≤
        b * elementSize.toNat := fun h => by
      rw [← Nat.succ_mul]
      exact Nat.mul_le_mul_right _ h
    rcases Nat.lt_or_gt_of_ne hne with hlt | hlt
    · exact .inr (.inl (hmul (by omega)))
    · exact .inr (.inr (hmul (by omega)))
  · exact .inl hblock

theorem senArrayAt_offset {x : Nat} {p : Ptr} (hp : (senArrayAt w x).1 = some p) :
    p.offset = arrayOffset w.array.elementSize x := by
  cases he : w.array.elements (arrayLevel x) with
  | some e =>
      rw [senArrayAt_of_some he] at hp
      obtain rfl := Option.some.inj hp
      rfl
  | none =>
      rw [senArrayAt_of_none he] at hp
      obtain ⟨e, _, hp⟩ := Option.map_eq_some_iff.mp hp
      rw [← hp]

/-- If the blocks of the levels up to `n` fit, the ids of these levels have places of their own. -/
theorem slotsOk_of_fits {n : Nat} (hn : n < 8) (hfits : levelBytes elementSize n < 2 ^ 31) :
    SlotsOk elementSize n := by
  have hmax : 16 ^ (n + 1) ≤ 2 ^ 32 := by interval_cases n <;> decide
  have hlevel : ∀ x, 1 ≤ x → x < 16 ^ (n + 1) →
      levelBytes elementSize (arrayLevel x) < 2 ^ 31 := fun x hx hlt =>
    (levelBytes_mono elementSize (Nat.le_of_lt_succ (arrayLevel_lt hx hlt))).trans_lt hfits
  constructor
  · intro w hw x y hx hxn hy hyn hne
    obtain ⟨e, hatx, he⟩ := senArrayAt_place hw hx (by omega) (hlevel x hx hxn)
    have hw₁ := hw.at x ⟨hx, by omega⟩
    obtain ⟨f, haty, hf⟩ := senArrayAt_place hw₁ hy (by omega) (hlevel y hy hyn)
    have he' := senArrayAt_keeps (x := y) he
    have hok := (hw₁.at y ⟨hy, by omega⟩).ok
    exact ⟨_, _, _, by rw [hatx], haty, hok.apart hx hy hne he' hf, he',
      hok.inside hx (by omega) (hlevel x hx hxn) he', hf,
      hok.inside hy (by omega) (hlevel y hy hyn) hf⟩
  · intro w hw
    refine ⟨senArrayEach_pairwise _, fun k p hk => ?_⟩
    rw [mem_senArrayEach, hw.ok.elementSize_eq]
    constructor
    · rintro ⟨hk₁, hk₂, e, he, rfl⟩
      rw [senArrayAt_of_some he, hw.ok.elementSize_eq,
        arrayOffset_of_fits elementSize hk₁ hk₂ (hlevel k hk₁ hk)]
      exact ⟨hk₁, by simp [he], rfl⟩
    · rintro ⟨hk₁, hsome, hp⟩
      obtain ⟨e, he⟩ := Option.isSome_iff_exists.mp hsome
      rw [senArrayAt_of_some he, hw.ok.elementSize_eq,
        arrayOffset_of_fits elementSize hk₁ (by omega) (hlevel k hk₁ hk)] at hp
      exact ⟨hk₁, by omega, e, he, (Option.some.inj hp).symm⟩

/-- In a level whose block does not fit, an element is outside of what was allocated. -/
theorem not_slotsOk_of_exceeds {n : Nat} (hn : n < 8)
    (hexceeds : 2 ^ 31 ≤ levelBytes elementSize n) : ¬ SlotsOk elementSize n := by
  intro hslots
  have hpos : 0 < elementSize.toNat := by
    by_contra hzero
    have : levelBytes elementSize n = 0 := by
      unfold levelBytes
      rw [Nat.eq_zero_of_not_pos hzero, Nat.mul_zero]
    omega
  have hpow : 1 ≤ 16 ^ n := Nat.pow_pos (by decide)
  have hmax : 16 ^ (n + 1) ≤ 2 ^ 32 := by interval_cases n <;> decide
  have hcount := pow_succ 16 n
  have hbytes := arrayBytes_eq elementSize hn
  obtain ⟨hlow, hhigh⟩ := cInt_bounds (levelBytes elementSize n)
  have hint : (cInt (levelBytes elementSize n)).toNat < 2 ^ 31 := by omega
  -- the first element that the block has no room for, if there is a block
  obtain ⟨k, hkle, hkover⟩ : ∃ k, k * elementSize.toNat ≤ (cInt (levelBytes elementSize n)).toNat ∧
      (cInt (levelBytes elementSize n)).toNat < k * elementSize.toNat + elementSize.toNat :=
    ⟨_, Nat.div_mul_le_self _ _, Nat.lt_div_mul_add hpos⟩
  have hklt : k < 15 * 16 ^ n := by
    have hlt : k * elementSize.toNat < 15 * 16 ^ n * elementSize.toNat :=
      (hkle.trans_lt hint).trans_le hexceeds
    exact Nat.lt_of_mul_lt_mul_right hlt
  obtain ⟨y, hy, hyn, hne⟩ : ∃ y, 1 ≤ y ∧ y < 16 ^ (n + 1) ∧ 16 ^ n + k ≠ y := by
    by_cases hk : k = 0
    · exact ⟨16 ^ n + 1, by omega, by omega, by omega⟩
    · exact ⟨16 ^ n, by omega, by omega, by omega⟩
  have hinit : ArrayReach elementSize ⟨senArrayInit elementSize, []⟩ := .init []
  have hx : 1 ≤ 16 ^ n + k := by omega
  have hxn : 16 ^ n + k < 16 ^ (n + 1) := by omega
  have hlevel : arrayLevel (16 ^ n + k) = n := arrayLevel_eq (by omega) hxn
  obtain ⟨p, q, w', hp, hq, -, hblock, ⟨size, hsize, hinside⟩, -⟩ :=
    hslots.places _ hinit _ _ hx hxn hy hyn hne
  have hw' : w' = (senArrayAt (senArrayAt ⟨senArrayInit elementSize, []⟩ (16 ^ n + k)).2 y).2 := by
    rw [hq]
  have hok : w'.Ok elementSize := by
    rw [hw']
    exact ((hinit.at _ ⟨hx, by omega⟩).at y ⟨hy, by omega⟩).ok
  have hsize' := hok.size_eq _ _ hblock
  rw [hlevel, hbytes, hsize] at hsize'
  have hoffset := senArrayAt_offset hp
  change p.offset = arrayOffset elementSize (16 ^ n + k) at hoffset
  rw [arrayOffset_eq elementSize hx (by omega), hlevel, Nat.add_sub_cancel_left,
    Nat.mod_eq_of_lt (by omega)] at hoffset
  rw [Option.some.inj hsize'] at hinside
  by_cases hneg : cInt (levelBytes elementSize n) < 0
  · -- no memory was given out at all
    have hrefused := cSizeT_of_neg hlow hneg
    rw [← hbytes] at hrefused
    rw [senArrayAt_refused rfl (by rwa [hlevel])] at hp
    simp at hp
  · rw [cSizeT_of_nonneg (Int.not_lt.mp hneg) hhigh, hoffset] at hinside
    exact absurd hinside (Nat.not_le_of_lt hkover)

/-- **Ids have places of their own as far as the size of a level is an `int`.** -/
theorem slotsOk_iff (elementSize : UInt16) (n : Fin 8) :
    SlotsOk elementSize n ↔ 15 * 16 ^ (n : Nat) * elementSize.toNat < 2 ^ 31 := by
  constructor
  · intro h
    by_contra hexceeds
    exact not_slotsOk_of_exceeds n.isLt (Nat.le_of_not_lt hexceeds) h
  · exact slotsOk_of_fits n.isLt

/-- With elements of 16 bytes the size of the last level is `15 * 2 ^ 32`, of which an `int` keeps
nothing, and the first two ids that are `2 ^ 28` apart have the same address. -/
theorem slotsOk_fails : ¬ SlotsOk 16 7 := by
  intro h
  have hinit : ArrayReach 16 ⟨senArrayInit 16, []⟩ := .init []
  obtain ⟨p, q, w', hp, hq, hapart, -⟩ :=
    h.places _ hinit 0x10000000 0x20000000 (by decide) (by decide) (by decide) (by decide)
      (by decide)
  have hp' : (senArrayAt ⟨senArrayInit 16, []⟩ 0x10000000).1 = some ⟨0, 0⟩ := by decide
  have hq' : (senArrayAt (senArrayAt ⟨senArrayInit 16, []⟩ 0x10000000).2 0x20000000).1 =
      some ⟨0, 0⟩ := by decide
  rw [hq] at hq'
  rw [hp'] at hp
  obtain rfl := Option.some.inj hp
  obtain rfl := Option.some.inj hq'
  revert hapart
  decide

end Senna.Store
