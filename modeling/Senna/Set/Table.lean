/-
# The index of a set

A `sen_set` keeps pointers to its entries in `index`, an open hash table whose size is
a power of two. A slot is empty, the mark `GARBAGE` of a deleted entry, or an entry.
Going round the table from any slot, one slot after the other, meets every entry once.
-/

import Senna.Lib.Fuel

namespace Senna.Set

open Senna.Lib

universe u

variable {ε : Type u}

/-- What a slot of the index holds. -/
inductive Slot (ε : Type u)
  | null
  | garbage
  | entry (e : ε)
  deriving DecidableEq, Repr

/-- The entry of a slot. -/
def Slot.content : Slot ε → Option ε
  | .entry e => some e
  | _ => none

@[simp] theorem Slot.content_null : (Slot.null : Slot ε).content = none := rfl

@[simp] theorem Slot.content_garbage : (Slot.garbage : Slot ε).content = none := rfl

@[simp] theorem Slot.content_entry (e : ε) : (Slot.entry e).content = some e := rfl

/-- The entries of an index, slot by slot. -/
def live (index : List (Slot ε)) : List ε := index.filterMap Slot.content

/-- The part of a `sen_set` that finds its entries. -/
structure Table (ε : Type u) where
  keySize : Nat
  maxOffset : Nat
  nEntries : Nat
  index : List (Slot ε)

/-- The size of the index is a power of two, and the entries are counted. -/
structure Table.Ok (t : Table ε) : Prop where
  length_eq : t.index.length = t.maxOffset + 1
  pow_two : ∃ k, t.maxOffset + 1 = 2 ^ k
  count : t.nEntries = (live t.index).length

/-- `i & m` is the remainder of `i`. -/
theorem and_maxOffset {m k : Nat} (hm : m + 1 = 2 ^ k) (i : Nat) : i &&& m = i % (m + 1) := by
  obtain rfl : m = 2 ^ k - 1 := by omega
  rw [Nat.and_two_pow_sub_one_eq_mod, hm]

/-- The first slot from `i` on that holds an entry. -/
def nextLive (index : List (Slot ε)) (m : Nat) : Nat → Nat → Option (Nat × ε)
  | 0, _ => none
  | k + 1, i =>
      match index[i]? with
      | none => none
      | some (.entry e) => some (i, e)
      | some _ => nextLive index m k ((i + 1) &&& m)

/-- From slot `i` to the slot before `start` there are the entries `L`, in this order. -/
def Ahead (index : List (Slot ε)) (start i : Nat) (L : List ε) : Prop :=
  ∃ j, i = (start + j) % index.length ∧ live ((index.rotate start).drop j) = L

theorem ahead_start {index : List (Slot ε)} {start : Nat} (h : start < index.length) :
    Ahead index start start (live (index.rotate start)) :=
  ⟨0, (Nat.mod_eq_of_lt h).symm, rfl⟩

/-- All entries lie ahead of the slot where the round begins. -/
theorem live_rotate_perm (index : List (Slot ε)) (start : Nat) :
    (live (index.rotate start)).Perm (live index) :=
  (List.rotate_perm index start).filterMap _

/-- **The scan of the index.** When an entry lies ahead, the scan stops at the first one,
and the others lie ahead of the slot after it. -/
theorem nextLive_ahead {index : List (Slot ε)} {m k start i : Nat} {e : ε} {L : List ε}
    (hlen : index.length = m + 1) (hm : m + 1 = 2 ^ k) (h : Ahead index start i (e :: L)) :
    ∃ i', Settles (fun f => nextLive index m f i) (i', e) ∧
      Ahead index start ((i' + 1) &&& m) L := by
  obtain ⟨j, rfl, hj⟩ := h
  have next (j : Nat) :
      ((start + j) % index.length + 1) &&& m = (start + (j + 1)) % index.length := by
    rw [and_maxOffset hm, ← hlen, Nat.mod_add_mod, Nat.add_assoc]
  generalize hd : index.length - j = d
  induction d generalizing j with
  | zero =>
      have hnil : (index.rotate start).drop j = [] := by
        apply List.drop_eq_nil_of_le
        rw [List.length_rotate]
        omega
      rw [hnil] at hj
      exact absurd hj (by simp [live])
  | succ d ih =>
      have hjr : j < (index.rotate start).length := by
        rw [List.length_rotate]
        omega
      have hcell : index[(start + j) % index.length]? = some (index.rotate start)[j] := by
        rw [← List.getElem?_eq_getElem hjr, List.getElem?_rotate (by omega), Nat.add_comm]
      rw [List.drop_eq_getElem_cons hjr] at hj
      -- an empty or deleted slot is passed over
      have skip (hslot : ∀ e, (index.rotate start)[j] ≠ Slot.entry e)
          (hj : live ((index.rotate start).drop (j + 1)) = e :: L) :
          ∃ i', Settles (fun f => nextLive index m f ((start + j) % index.length)) (i', e) ∧
            Ahead index start ((i' + 1) &&& m) L := by
        obtain ⟨i', hset, hahead⟩ := ih (j + 1) hj (by omega)
        refine ⟨i', Settles.succ (fun f => ?_) hset, hahead⟩
        rw [nextLive, hcell, ← next]
        cases hs : (index.rotate start)[j] with
        | entry e => exact absurd hs (hslot e)
        | null => rfl
        | garbage => rfl
      cases hs : (index.rotate start)[j] with
      | null =>
          rw [hs] at hj
          exact skip (by simp [hs]) hj
      | garbage =>
          rw [hs] at hj
          exact skip (by simp [hs]) hj
      | entry e' =>
          rw [hs] at hj
          obtain ⟨rfl, hL⟩ : e' = e ∧ live ((index.rotate start).drop (j + 1)) = L := by
            simpa [live] using hj
          refine ⟨(start + j) % index.length, Settles.succ (fun f => ?_) (Settles.pure _), ?_⟩
          · rw [nextLive, hcell, hs]
          · exact ⟨j + 1, next j, hL⟩

/-- `sen_set_cursor_next` with `rest` slots to come from slot `curr` on: the slot found and
how many come after it. -/
def cursorNext (index : List (Slot ε)) : Nat → Nat → Option (Nat × Nat)
  | 0, _ => none
  | i + 1, ep =>
      match index[ep]? with
      | some (.entry _) => some (ep, i)
      | _ => cursorNext index i (ep + 1)

end Senna.Set
