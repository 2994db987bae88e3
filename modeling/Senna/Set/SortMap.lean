/-
# Renaming the entries of a sort

A sort moves entries about and looks at them only through its two tests. Replacing every
entry of the set by another one, so that no test changes, therefore replaces the entries
of the result. In particular two entries that compare equal can change places: in which
order they come out is a matter of where they stand in the index.
-/

import Senna.Set.Sort

namespace Senna.Set

open Senna.Lib

universe u v

variable {ε : Type u} {δ : Type v}

/-- The slot with its entry replaced. -/
def Slot.map (f : ε → δ) : Slot ε → Slot δ
  | .null => .null
  | .garbage => .garbage
  | .entry e => .entry (f e)

theorem Slot.content_map (f : ε → δ) (s : Slot ε) : (s.map f).content = s.content.map f := by
  cases s with
  | null => rfl
  | garbage => rfl
  | entry e => rfl

/-- The replaced slots hold the replaced entries. -/
theorem live_map (f : ε → δ) (index : List (Slot ε)) :
    live (index.map (Slot.map f)) = (live index).map f := by
  rw [live, live, List.filterMap_map, List.map_filterMap]
  congr 1
  funext s
  exact Slot.content_map f s

/-- The table with its entries replaced. -/
def Table.map (f : ε → δ) (t : Table ε) : Table δ :=
  { t with index := t.index.map (Slot.map f) }

@[simp] theorem Table.map_index (f : ε → δ) (t : Table ε) :
    (t.map f).index = t.index.map (Slot.map f) := rfl

@[simp] theorem Table.map_maxOffset (f : ε → δ) (t : Table ε) :
    (t.map f).maxOffset = t.maxOffset := rfl

@[simp] theorem Table.map_nEntries (f : ε → δ) (t : Table ε) :
    (t.map f).nEntries = t.nEntries := rfl

/-- A table is well-formed with its entries replaced. -/
theorem Table.Ok.map {t : Table ε} (ht : t.Ok) (f : ε → δ) : (t.map f).Ok where
  length_eq := by rw [map_index, List.length_map, map_maxOffset, ht.length_eq]
  pow_two := ht.pow_two
  count := by rw [map_nEntries, map_index, live_map, List.length_map, ht.count]

/-- A store in the array of replaced entries. -/
theorem store_map (f : ε → δ) (a : List ε) (i : Nat) (x : ε) :
    store (a.map f) i (f x) = (store a i x).map (List.map f) := by
  unfold store
  rw [List.length_map, ← List.map_set]
  split <;> rfl

theorem swap_map (f : ε → δ) (a : List ε) (i j : Nat) :
    swap (a.map f) i j = (swap a i j).map (List.map f) := by
  unfold swap
  rw [List.getElem?_map, List.getElem?_map]
  cases a[i]? with
  | none => rfl
  | some x =>
      cases a[j]? with
      | none => rfl
      | some y => simp [List.map_set]

/-- No test tells an entry from its replacement. -/
structure Cmp.Agrees (f : ε → δ) (cmp : Cmp ε) (cmp' : Cmp δ) : Prop where
  lt_eq : ∀ x y, cmp'.lt (f x) (f y) = cmp.lt x y
  gt_eq : ∀ x y, cmp'.gt (f x) (f y) = cmp.gt x y

section

variable {f : ε → δ} {cmp : Cmp ε} {cmp' : Cmp δ}

/-- The next entry stands in the same slot. -/
theorem nextLive_map (index : List (Slot ε)) (m k i : Nat) :
    nextLive (index.map (Slot.map f)) m k i =
      (nextLive index m k i).map fun (i, e) => (i, f e) := by
  induction k generalizing i with
  | zero => rfl
  | succ k ih =>
      rw [nextLive, nextLive, List.getElem?_map]
      cases index[i]? with
      | none => rfl
      | some s =>
          cases s with
          | null => exact ih _
          | garbage => exact ih _
          | entry e => rfl

/-- The loop of `pack` makes the same comparisons, and its places hold the replaced entries. -/
theorem packLoop_map (h : cmp.Agrees f cmp') (index : List (Slot ε)) (m : Nat) (c : ε)
    (k n : Nat) (res : List ε) (head tail i : Nat) :
    packLoop cmp' (index.map (Slot.map f)) m (f c) k n (res.map f) head tail i =
      (packLoop cmp index m c k n res head tail i).map fun (res, head) => (res.map f, head) := by
  induction n generalizing res head tail i with
  | zero =>
      rw [packLoop, packLoop, store_map, Option.map_map, Option.map_map]
      rfl
  | succ n ih =>
      rw [packLoop, packLoop, nextLive_map]
      cases nextLive index m k ((i + 1) &&& m) with
      | none => rfl
      | some ie =>
          obtain ⟨i, e⟩ := ie
          simp only [Option.map_some, Option.bind_some, h.lt_eq, store_map]
          split
          · cases store res head e with
            | none => rfl
            | some res => exact ih _ _ _ _
          · cases store res tail e with
            | none => rfl
            | some res => exact ih _ _ _ _

/-- `pack` of the replaced entries. -/
theorem pack_map (h : cmp.Agrees f cmp') (t : Table ε) (res : List ε) (k : Nat) :
    pack cmp' (t.map f) (res.map f) k =
      (pack cmp t res k).map fun (res, c) => (res.map f, c) := by
  unfold pack
  simp only [Table.map_index, Table.map_maxOffset, Table.map_nEntries, nextLive_map]
  cases nextLive t.index t.maxOffset k (t.maxOffset >>> 1) with
  | none => rfl
  | some ie =>
      obtain ⟨i, c⟩ := ie
      simp only [Option.map_some, Option.bind_some, packLoop_map h, Option.map_map]
      rfl

/-- Two pivot rules find a pivot and its replacement. -/
def PivotRule.Agrees (f : ε → δ) (pv : PivotRule ε) (pv' : PivotRule δ) : Prop :=
  ∀ p c a, pv' (f p) c (a.map f) = (pv p c a).map f

section

variable {pv : List ε → Option ε} {pv' : List δ → Option δ}

/-- The scan from the left stops at the same place. -/
theorem scanUp_map (h : cmp.Agrees f cmp') (hpv : ∀ a, pv' (a.map f) = (pv a).map f)
    (a : List ε) (k b : Nat) : scanUp cmp' pv' (a.map f) k b = scanUp cmp pv a k b := by
  induction k generalizing b with
  | zero => rfl
  | succ k ih =>
      rw [scanUp, scanUp, List.getElem?_map, hpv]
      cases a[b + 1]? with
      | none => rfl
      | some x =>
          cases pv a with
          | none => rfl
          | some p => simp only [Option.map_some, Option.bind_some, h.lt_eq, ih]

/-- The scan from the right stops at the same place. -/
theorem scanDown_map (h : cmp.Agrees f cmp') (hpv : ∀ a, pv' (a.map f) = (pv a).map f)
    (a : List ε) (k e : Nat) : scanDown cmp' pv' (a.map f) k e = scanDown cmp pv a k e := by
  induction k generalizing e with
  | zero => rfl
  | succ k ih =>
      cases e with
      | zero => rfl
      | succ e =>
          rw [scanDown, scanDown, List.getElem?_map, hpv]
          cases a[e]? with
          | none => rfl
          | some x =>
              cases pv a with
              | none => rfl
              | some p => simp only [Option.map_some, Option.bind_some, h.gt_eq, ih]

/-- The loop of `part` makes the same exchanges. -/
theorem partLoop_map (h : cmp.Agrees f cmp') (hpv : ∀ a, pv' (a.map f) = (pv a).map f)
    (k : Nat) (a : List ε) (b e : Nat) :
    partLoop cmp' pv' k (a.map f) b e =
      (partLoop cmp pv k a b e).map fun (a, e) => (a.map f, e) := by
  induction k generalizing a b e with
  | zero => rfl
  | succ k ih =>
      rw [partLoop, partLoop, scanUp_map h hpv]
      cases scanUp cmp pv a k b with
      | none => rfl
      | some b =>
          simp only [Option.bind_some]
          rw [scanDown_map h hpv]
          cases scanDown cmp pv a k e with
          | none => rfl
          | some e =>
              simp only [Option.bind_some, swap_map]
              split
              · rfl
              · cases swap a b e with
                | none => rfl
                | some a => exact ih _ _ _

end

theorem swapIfGt_map (h : cmp.Agrees f cmp') (a : List ε) (i j : Nat) :
    swapIfGt cmp' (a.map f) i j = (swapIfGt cmp a i j).map (List.map f) := by
  unfold swapIfGt
  rw [List.getElem?_map, List.getElem?_map]
  cases a[i]? with
  | none => rfl
  | some x =>
      cases a[j]? with
      | none => rfl
      | some y =>
          simp only [Option.map_some, Option.bind_some, h.gt_eq, swap_map]
          split <;> rfl

/-- The median of three stands in the same place. -/
theorem median_map (h : cmp.Agrees f cmp') (a : List ε) (b c e : Nat) :
    median cmp' (a.map f) b c e = (median cmp a b c e).map (List.map f) := by
  unfold median
  rw [List.getElem?_map, List.getElem?_map]
  cases a[b]? with
  | none => rfl
  | some x =>
      cases a[c]? with
      | none => rfl
      | some y =>
          simp only [Option.map_some, Option.bind_some, h.gt_eq, swap_map, swapIfGt_map h]
          split <;> rfl

/-- `part` splits the replaced entries at the same place. -/
theorem part_map (h : cmp.Agrees f cmp') {pv : PivotRule ε} {pv' : PivotRule δ}
    (hpv : pv.Agrees f pv') (k : Nat) (a : List ε) (b e : Nat) :
    part cmp' pv' k (a.map f) b e = (part cmp pv k a b e).map fun (a, c) => (a.map f, c) := by
  unfold part
  rw [swapIfGt_map h]
  cases swapIfGt cmp a b e with
  | none => rfl
  | some a =>
      simp only [Option.map_some, Option.bind_some]
      split
      · rfl
      · rw [median_map h]
        cases median cmp a b (b + (e - b) / 2) e with
        | none => rfl
        | some a =>
            simp only [Option.map_some, Option.bind_some, List.getElem?_map]
            split
            · rfl
            · cases a[b + (e - b) / 2]? with
              | none => rfl
              | some ck =>
                  simp only [Option.map_some, Option.bind_some, swap_map]
                  cases swap a (b + 1) (b + (e - b) / 2) with
                  | none => rfl
                  | some a =>
                      simp only [Option.map_some, Option.bind_some]
                      rw [partLoop_map h (hpv ck (b + 1))]
                      cases partLoop cmp (pv ck (b + 1)) k a (b + 1) e with
                      | none => rfl
                      | some ae =>
                          obtain ⟨a, e⟩ := ae
                          simp only [Option.map_some, Option.bind_some, swap_map, Option.map_map]
                          rfl

/-- Sorting a part of the array: by the calls that `part` leaves. -/
theorem sortRange_map (h : cmp.Agrees f cmp') {pv : PivotRule ε} {pv' : PivotRule δ}
    (hpv : pv.Agrees f pv') (k : Nat) (a : List ε) (head stop : Nat) (limit : Int) :
    sortRange cmp' pv' k (a.map f) head stop limit =
      (sortRange cmp pv k a head stop limit).map (List.map f) := by
  induction k generalizing a head stop limit with
  | zero => rfl
  | succ k ih =>
      rw [sortRange, sortRange]
      split
      · rw [part_map h hpv]
        cases part cmp pv k a head (stop - 1) with
        | none => rfl
        | some ac =>
            obtain ⟨a, c⟩ := ac
            cases c with
            | none => rfl
            | some c =>
                simp only [Option.map_some, Option.bind_some, ih]
                cases sortRange cmp pv k a head c limit with
                | none => rfl
                | some a =>
                    simp only [Option.map_some, Option.bind_some, ih]
                    split <;> rfl
      · rfl

/-- **The sort of renamed entries** is the renamed sort. -/
theorem sort_map (h : cmp.Agrees f cmp') {pv : PivotRule ε} {pv' : PivotRule δ}
    (hpv : pv.Agrees f pv') (t : Table ε) (res : List ε) (limit : Int) (k : Nat) :
    sort cmp' pv' (t.map f) (res.map f) limit k =
      (sort cmp pv t res limit k).map (List.map f) := by
  rw [sort, sort, pack_map h]
  cases pack cmp t res k with
  | none => rfl
  | some rc =>
      obtain ⟨res, c⟩ := rc
      cases c with
      | none => rfl
      | some c =>
          simp only [Option.map_some, Option.bind_some, sortRange_map h hpv]
          cases sortRange cmp pv k res 0 c limit with
          | none => rfl
          | some res =>
              simp only [Option.map_some, Option.bind_some, sortRange_map h hpv]
              show (if limit - 1 - (c : Int) > 0 then
                (sortRange cmp pv k res (c + 1) t.nEntries _).map _ else _) = _
              split <;> rfl

end

end Senna.Set
