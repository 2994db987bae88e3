/-
# The stream of merged records

The two loops of the heap keep its order: they are the movements of `HeapUp` and
`HeapDown`. The member at the root has the least current record, so the stream of the
heap is sorted when every object is, and it holds the records of all objects. This needs
a comparison function: the comparison that the heap makes without one looks at the
addresses of the records, not at their scores.
-/

import Mathlib.Data.List.TakeWhile
import Senna.Index.RecordsHeap
import Senna.Set.SortSpec

namespace Senna.Index

open Senna.Lib Senna.Set

universe u

section

variable {α : Type u} {cmp : α → α → Option Bool} {gt : α → α → Bool} {S : α → Prop} {r : α}

/-- Moving the element at `n` to `c` and what stands there to `n` is a swap. -/
theorem hole_move {bins : List α} {n c : Nat} {x : α} (hn : n < bins.length)
    (hx : bins[c]? = some x) (hne : n ≠ c) :
    ((bins.set n x).set c r).Perm (bins.set n r) ∧
      ((bins.set n x).set c r)[n]? = (bins.set n r)[c]? ∧
      ((bins.set n x).set c r)[c]? = (bins.set n r)[n]? ∧
      ∀ k, k ≠ n → k ≠ c → ((bins.set n x).set c r)[k]? = (bins.set n r)[k]? := by
  obtain ⟨hc, rfl⟩ := List.getElem?_eq_some_iff.mp hx
  refine ⟨?_, ?_, ?_, fun k hkn hkc => ?_⟩
  · have hperm := @List.set_set_perm _ (bins.set n r) n c
      (by rwa [List.length_set]) (by rwa [List.length_set])
    rwa [List.set_set, List.getElem_set_ne hne, List.getElem_set_self] at hperm
  · rw [List.getElem?_set_ne hne.symm, List.getElem?_set_self hn, List.getElem?_set_ne hne, hx]
  · rw [List.getElem?_set_self (by rwa [List.length_set]), List.getElem?_set_self hn]
  · rw [List.getElem?_set_ne hkc.symm, List.getElem?_set_ne hkn.symm,
      List.getElem?_set_ne hkn.symm]

/-- **Moving up** terminates with a heap of the same members. -/
theorem siftUp_settles (hgt : TotalPreorderOn S gt)
    (hcmp : ∀ {x y}, S x → S y → cmp x y = some (gt x y)) (bins : List α) {n : Nat}
    (hn : n < bins.length) (hS : ∀ x ∈ bins.set n r, S x) (h : HeapUp gt n (bins.set n r)) :
    ∃ out, Settles (fun k => siftUp cmp r k bins n) out ∧ IsHeap gt out ∧
      out.Perm (bins.set n r) := by
  induction n using Nat.strong_induction_on generalizing bins with
  | _ n ih =>
    have hstore (x : α) : store bins n x = some (bins.set n x) := by rw [store, if_pos hn]
    by_cases hzero : n = 0
    · refine ⟨bins.set n r, Settles.succ (fun k => ?_) (Settles.pure _), ?_, List.Perm.refl _⟩
      · rw [siftUp, if_pos hzero, hstore]
      · subst hzero
        exact h.isHeap_zero
    have hp : (n - 1) / 2 < bins.length := by omega
    have hne : n ≠ (n - 1) / 2 := by omega
    obtain ⟨q, hq⟩ : ∃ q, bins[(n - 1) / 2]? = some q := ⟨_, List.getElem?_eq_getElem hp⟩
    have hr : (bins.set n r)[n]? = some r := List.getElem?_set_self hn
    have hq' : (bins.set n r)[(n - 1) / 2]? = some q := by rw [List.getElem?_set_ne hne, hq]
    have hSr : S r := forall_getElem? hS hr
    have hSq : S q := forall_getElem? hS hq'
    have step (k : Nat) : siftUp cmp r (k + 1) bins n =
        if gt r q then store bins n r
        else (store bins n q).bind fun bins => siftUp cmp r k bins ((n - 1) / 2) := by
      rw [siftUp, if_neg hzero, hq, Option.bind_some, hcmp hSr hSq, Option.bind_some]
    cases hafter : gt r q with
    | true =>
        refine ⟨bins.set n r, Settles.succ (fun k => ?_) (Settles.pure _), ?_, List.Perm.refl _⟩
        · rw [step, hafter, if_pos rfl, hstore]
        · exact h.isHeap (Edge.of_gt hgt hS hr hq' hafter)
    | false =>
        obtain ⟨hperm, hmn, hmp, hrest⟩ := hole_move (r := r) hn hq hne
        obtain ⟨out, hset, hheap, hout⟩ := ih ((n - 1) / 2) (by omega) (bins.set n q)
          (by rwa [List.length_set]) (fun x hx => hS x (hperm.mem_iff.mp hx))
          (h.move hgt hS (by omega) (by rwa [List.length_set])
            (Edge.of_not_gt hr hq' hafter) hmn hmp hrest)
        refine ⟨out, Settles.succ (fun k => ?_) hset, hheap, hout.trans hperm⟩
        rw [step, hafter, if_neg Bool.false_ne_true, hstore, Option.bind_some]

/-- What `siftChild` chooses: nothing when `r` is not greater than its children, else a
child that is smaller than `r` and not greater than the other child. -/
theorem siftChild_spec (hgt : TotalPreorderOn S gt)
    (hcmp : ∀ {x y}, S x → S y → cmp x y = some (gt x y)) (hr : S r) (n1 n2 : Nat)
    {r1 r2 : Option α} (h1 : ∀ x, r1 = some x → S x) (h2 : ∀ x, r2 = some x → S x) :
    siftChild cmp r n1 n2 r1 r2 = some none ∧ (∀ x, r1 = some x → gt r x = false) ∧
        (∀ x, r2 = some x → gt r x = false) ∨
      ∃ q, gt r q = true ∧
        (siftChild cmp r n1 n2 r1 r2 = some (some (n1, q)) ∧ r1 = some q ∧
            (∀ y, r2 = some y → gt q y = false) ∨
          siftChild cmp r n1 n2 r1 r2 = some (some (n2, q)) ∧ r2 = some q ∧
            ∀ y, r1 = some y → gt q y = false) := by
  cases r1 with
  | none =>
      cases r2 with
      | none => exact Or.inl ⟨rfl, by simp, by simp⟩
      | some q2 =>
          have hq2 := hcmp hr (h2 q2 rfl)
          cases hafter2 : gt r q2 with
          | false => exact Or.inl ⟨by simp [siftChild, andCmp, hq2, hafter2], by simp,
                by simp [hafter2]⟩
          | true =>
              exact Or.inr ⟨q2, hafter2, Or.inr ⟨by simp [siftChild, andCmp, hq2, hafter2], rfl,
                by simp⟩⟩
  | some q1 =>
      have hS1 := h1 q1 rfl
      have hq1 := hcmp hr hS1
      cases r2 with
      | none =>
          cases hafter1 : gt r q1 with
          | false => exact Or.inl ⟨by simp [siftChild, andCmp, hq1, hafter1], by simp [hafter1],
                by simp⟩
          | true =>
              exact Or.inr ⟨q1, hafter1, Or.inl ⟨by simp [siftChild, andCmp, hq1, hafter1], rfl,
                by simp⟩⟩
      | some q2 =>
          have hS2 := h2 q2 rfl
          have hq2 := hcmp hr hS2
          have hq12 := hcmp hS1 hS2
          cases hafter1 : gt r q1 with
          | false =>
              cases hafter2 : gt r q2 with
              | false =>
                  exact Or.inl ⟨by simp [siftChild, andCmp, hq1, hq2, hafter1, hafter2],
                    by simp [hafter1], by simp [hafter2]⟩
              | true =>
                  have hother : gt q2 q1 = false :=
                    hgt.trans hS2 hr hS1 (hgt.asymm hr hS2 hafter2) hafter1
                  exact Or.inr ⟨q2, hafter2, Or.inr
                    ⟨by simp [siftChild, andCmp, hq1, hq2, hafter1, hafter2], rfl,
                        by simp [hother]⟩⟩
          | true =>
              cases hafter2 : gt r q2 with
              | false =>
                  have hother : gt q1 q2 = false :=
                    hgt.trans hS1 hr hS2 (hgt.asymm hr hS1 hafter1) hafter2
                  exact Or.inr ⟨q1, hafter1, Or.inl
                    ⟨by simp [siftChild, andCmp, hq1, hq2, hafter1, hafter2], rfl,
                        by simp [hother]⟩⟩
              | true =>
                  cases hchild : gt q1 q2 with
                  | false =>
                      exact Or.inr ⟨q1, hafter1, Or.inl
                        ⟨by simp [siftChild, andCmp, hq1, hq2, hq12, hafter1, hafter2, hchild], rfl,
                          by simp [hchild]⟩⟩
                  | true =>
                      have hother := hgt.asymm hS1 hS2 hchild
                      exact Or.inr ⟨q2, hafter2, Or.inr
                        ⟨by simp [siftChild, andCmp, hq1, hq2, hq12, hafter1, hafter2, hchild], rfl,
                          by simp [hother]⟩⟩

/-- **Moving down** terminates with a heap of the same members. -/
theorem siftDown_settles (hgt : TotalPreorderOn S gt)
    (hcmp : ∀ {x y}, S x → S y → cmp x y = some (gt x y)) (bins : List α) {n : Nat}
    (hn : n < bins.length) (hS : ∀ x ∈ bins.set n r, S x) (h : HeapDown gt n (bins.set n r)) :
    ∃ out, Settles (fun k => siftDown cmp r k bins n) out ∧ IsHeap gt out ∧
      out.Perm (bins.set n r) := by
  generalize hd : bins.length - n = d
  induction d using Nat.strong_induction_on generalizing bins n with
  | _ d ih =>
    have hr : (bins.set n r)[n]? = some r := List.getElem?_set_self hn
    have hSr : S r := forall_getElem? hS hr
    have hchild (i : Nat) (hi : n < i) : (bins.set n r)[i]? = bins[i]? :=
      List.getElem?_set_ne (by omega)
    have hSchild (i : Nat) (hi : n < i) : ∀ x, bins[i]? = some x → S x := fun x hx =>
      forall_getElem? hS ((hchild i hi).trans hx)
    have hspec := siftChild_spec hgt hcmp hSr (n * 2 + 1) (n * 2 + 2)
      (hSchild (n * 2 + 1) (by omega)) (hSchild (n * 2 + 2) (by omega))
    have hstore (x : α) : store bins n x = some (bins.set n x) := by rw [store, if_pos hn]
    -- `r` against a child that it need not give way to
    have stays {i : Nat} (hi : n < i) (hle : ∀ x, bins[i]? = some x → gt r x = false) :
        Edge gt (bins.set n r) n i := by
      intro x y hx hy
      rw [← Option.some.inj (hr.symm.trans hx)]
      exact hle y ((hchild i hi).symm.trans hy)
    -- one round, when the member `q` of the child `i` takes the place
    have round {i : Nat} {q : α} (hi : 0 < i) (hpar : (i - 1) / 2 = n) (hni : n < i)
        (hq : bins[i]? = some q) (hafter : gt r q = true)
        (hchoice : siftChild cmp r (n * 2 + 1) (n * 2 + 2) bins[n * 2 + 1]? bins[n * 2 + 2]? =
          some (some (i, q)))
        (hsib : ∀ j, 0 < j → (j - 1) / 2 = n → j ≠ i → ∀ y, bins[j]? = some y → gt q y = false) :
        ∃ out, Settles (fun k => siftDown cmp r k bins n) out ∧ IsHeap gt out ∧
          out.Perm (bins.set n r) := by
      have hq' : (bins.set n r)[i]? = some q := (hchild i hni).trans hq
      obtain ⟨hperm, hmn, hmi, hrest⟩ := hole_move (r := r) hn hq (by omega)
      have hil : i < bins.length := (List.getElem?_eq_some_iff.mp hq).1
      have hmove := h.move hi hpar (Edge.of_gt hgt hS hr hq' hafter)
        (fun j hj hjn hji x y hx hy => by
          rw [← Option.some.inj (hq'.symm.trans hx)]
          exact hsib j hj hjn hji y ((hchild j (by omega)).symm.trans hy)) hmn hmi hrest
      obtain ⟨out, hset, hheap, hout⟩ := ih (bins.length - i) (by omega) (bins.set n q)
        (by rwa [List.length_set]) (fun x hx => hS x (hperm.mem_iff.mp hx)) hmove
        (by rw [List.length_set])
      refine ⟨out, Settles.succ (fun k => ?_) hset, hheap, hout.trans hperm⟩
      rw [siftDown, hchoice, Option.bind_some]
      show (store bins n q).bind _ = _
      rw [hstore, Option.bind_some]
    rcases hspec with ⟨hchoice, hle1, hle2⟩ | ⟨q, hafter, ⟨hchoice, hq, hsib⟩ | ⟨hchoice, hq, hsib⟩⟩
    · refine ⟨bins.set n r, Settles.succ (fun k => ?_) (Settles.pure _), ?_, List.Perm.refl _⟩
      · rw [siftDown, hchoice, Option.bind_some]
        exact hstore r
      · exact h.isHeap (stays (by omega) hle1) (stays (by omega) hle2)
    · apply round (by omega) (by omega) (by omega) hq hafter hchoice
      intro j hj hjn hji y hy
      obtain rfl : j = n * 2 + 2 := by omega
      exact hsib y hy
    · apply round (by omega) (by omega) (by omega) hq hafter hchoice
      intro j hj hjn hji y hy
      obtain rfl : j = n * 2 + 1 := by omega
      exact hsib y hy

end

section

variable {ε : Type u} {r : SenRecords ε}

/-- The place in the array of the sort that the walk comes to next. -/
def SenRecords.pos (r : SenRecords ε) : Nat :=
  match r.currRec with
  | none => 0
  | some i => i + 1

/-- The entries that the walk has still to deliver: it ends at the limit or at the first
record without a key. -/
def SenRecords.ahead (r : SenRecords ε) : List ε :=
  match r.sorted with
  | none => []
  | some (_, s) => ((s.take r.limit.toNat).drop r.pos).takeWhile fun e => r.obj.len e != 0

/-- The current record and those that the walk has still to deliver. -/
def SenRecords.pending (r : SenRecords ε) : List (RecordsObj ε × ε) :=
  (r.currEntry.toList ++ r.ahead).map fun e => (r.obj, e)

/-- The object is sorted, and its limit is within the array. -/
def SenRecords.Sorted (r : SenRecords ε) : Prop := ∃ a s, r.sorted = some (a, s) ∧
    r.limit ≤ s.length

theorem SenRecords.pending_cons {e : ε} (h : r.currEntry = some e) :
    r.pending = (r.obj, e) :: r.ahead.map fun e => (r.obj, e) := by
  rw [SenRecords.pending, h]
  rfl

/-- Within the limit the walk steps to the next place of the array. -/
theorem SenRecords.advance_of_lt {a : Nat} {s : List ε} (hs : r.sorted = some (a, s))
    (hpos : r.pos < r.limit.toNat) : r.advance = some { r with currRec := some r.pos } := by
  unfold SenRecords.pos at hpos ⊢
  rw [SenRecords.advance, hs]
  cases hc : r.currRec with
  | none =>
      rw [hc] at hpos
      have hlim : r.limit > 0 := by
        show 0 < r.limit
        change 0 < r.limit.toNat at hpos
        omega
      show some (if r.limit > 0 then _ else _) = _
      rw [if_pos hlim]
  | some i =>
      rw [hc] at hpos
      change i + 1 < r.limit.toNat at hpos
      show (if (i : Int) ≥ r.limit - 1 then none else _) = _
      rw [if_neg (by omega)]

/-- At the limit the walk does not step. -/
theorem SenRecords.advance_of_ge {a : Nat} {s : List ε} (hs : r.sorted = some (a, s))
    (hpos : r.limit.toNat ≤ r.pos) : r.advance = none ∨ r.advance = some r ∧
        r.currEntry = none := by
  unfold SenRecords.pos at hpos
  rw [SenRecords.advance, hs]
  cases hc : r.currRec with
  | none =>
      rw [hc] at hpos
      change r.limit.toNat ≤ 0 at hpos
      refine Or.inr ⟨?_, by rw [SenRecords.currEntry, hc, Option.bind_none]⟩
      show some (if r.limit > 0 then _ else r) = _
      rw [if_neg (by omega)]
  | some i =>
      rw [hc] at hpos
      change r.limit.toNat ≤ i + 1 at hpos
      left
      show (if (i : Int) ≥ r.limit - 1 then none else _) = _
      rw [if_pos (by omega)]

theorem senRecordsNext_of_advance {r' : SenRecords ε} {e : ε} (h : r.advance = some r')
    (he : r'.currEntry = some e) : senRecordsNext r = (r'.obj.len e, r') := by
  rw [senRecordsNext, h]
  dsimp only
  rw [he]

/-- At the limit the walk ends. -/
theorem senRecordsNext_of_ge {a : Nat} {s : List ε} (hs : r.sorted = some (a, s))
    (hpos : r.limit.toNat ≤ r.pos) : senRecordsNext r = (0, r) := by
  rcases SenRecords.advance_of_ge hs hpos with h | ⟨h, he⟩
  · rw [senRecordsNext, h]
  · rw [senRecordsNext, h]
    dsimp only
    rw [he]

/-- Within the limit the walk comes to the element at the next place. -/
theorem senRecordsNext_of_lt {a : Nat} {s : List ε} {e : ε} (hs : r.sorted = some (a, s))
    (hpos : r.pos < r.limit.toNat) (he : s[r.pos]? = some e) :
    senRecordsNext r = (r.obj.len e, { r with currRec := some r.pos }) := by
  apply senRecordsNext_of_advance (SenRecords.advance_of_lt hs hpos)
  rw [SenRecords.currEntry]
  dsimp only
  rw [hs]
  exact he

end

section

variable {ε : Type u} (Q : RecordsObj ε × ε → Prop)
  (gtP : RecordsObj ε × ε → RecordsObj ε × ε → Bool)

/-- A member of the heap: an object with a current record, whose pending records are in
order. -/
structure Member (r : SenRecords ε) : Prop where
  sorted : r.Sorted
  curr : ∃ e, r.currEntry = some e
  pairwise : r.pending.Pairwise fun a b => gtP a b = false
  mem : ∀ a ∈ r.pending, Q a

/-- Members are compared by their current records. -/
def gtMember (r1 r2 : SenRecords ε) : Bool :=
  match r1.currEntry, r2.currEntry with
  | some e1, some e2 => gtP (r1.obj, e1) (r2.obj, e2)
  | _, _ => false

variable {Q gtP} {r r1 r2 : SenRecords ε}

theorem gtMember_eq {e1 e2 : ε} (h1 : r1.currEntry = some e1) (h2 : r2.currEntry = some e2) :
    gtMember gtP r1 r2 = gtP (r1.obj, e1) (r2.obj, e2) := by
  rw [gtMember, h1, h2]

theorem Member.curr_mem (h : Member Q gtP r) {e : ε} (he : r.currEntry = some e) : Q (r.obj, e) :=
  h.mem _ (by rw [SenRecords.pending_cons he]; exact List.mem_cons_self)

/-- The order of the records orders the members. -/
theorem gtMember_total (hgt : TotalPreorderOn Q gtP) :
    TotalPreorderOn (Member Q gtP) (gtMember gtP) where
  asymm {r1 r2} h1 h2 h := by
    obtain ⟨e1, he1⟩ := h1.curr
    obtain ⟨e2, he2⟩ := h2.curr
    rw [gtMember_eq he1 he2] at h
    rw [gtMember_eq he2 he1]
    exact hgt.asymm (h1.curr_mem he1) (h2.curr_mem he2) h
  trans {r1 r2 r3} h1 h2 h3 h12 h23 := by
    obtain ⟨e1, he1⟩ := h1.curr
    obtain ⟨e2, he2⟩ := h2.curr
    obtain ⟨e3, he3⟩ := h3.curr
    rw [gtMember_eq he1 he2] at h12
    rw [gtMember_eq he2 he3] at h23
    rw [gtMember_eq he1 he3]
    exact hgt.trans (h1.curr_mem he1) (h2.curr_mem he2) (h3.curr_mem he3) h12 h23

variable (Q gtP)

/-- Where a comparison is made, it is by the order. -/
def CmpOk (mem : Nat → Int) (h : RecordsHeap ε) : Prop :=
  ∀ r1 r2, Member Q gtP r1 → Member Q gtP r2 →
    recordsHeapCmp mem h r1 r2 = some (gtMember gtP r1 r2)

/-- The heap holds members in heap order. -/
structure HeapOk (h : RecordsHeap ε) : Prop where
  member : ∀ r ∈ h.bins, Member Q gtP r
  heap : IsHeap (gtMember gtP) h.bins

/-- The records that the heap has still to deliver. -/
def RecordsHeap.pending (h : RecordsHeap ε) : List (RecordsObj ε × ε) :=
  h.bins.flatMap SenRecords.pending

variable {Q gtP} {h h' : RecordsHeap ε} {mem : Nat → Int}

/-- The comparison depends on what the heap was opened with. -/
theorem CmpOk.congr (hcmp : CmpOk Q gtP mem h) (hd : h'.dir = h.dir) (hc : h'.compar = h.compar)
    (ha : h'.comparArg = h.comparArg) : CmpOk Q gtP mem h' := by
  intro r1 r2 h1 h2
  have heq : recordsHeapCmp mem h' r1 r2 = recordsHeapCmp mem h r1 r2 := by
    simp only [recordsHeapCmp, hd, hc, ha]
  rw [heq]
  exact hcmp r1 r2 h1 h2

theorem isHeap_of_length_le {α : Type u} {gt : α → α → Bool} {l : List α} (hl : l.length ≤ 1) :
    IsHeap gt l := fun i hi => Edge.of_length_le (by omega)

/-- The current record of the root stands before everything that is pending. -/
theorem HeapOk.root_le (hgt : TotalPreorderOn Q gtP) (hh : HeapOk Q gtP h) {e : ε}
    (hroot : h.bins[0]? = some r) (he : r.currEntry = some e) :
    ∀ a ∈ h.pending, gtP (r.obj, e) a = false := by
  intro a ha
  obtain ⟨q, hq, ha⟩ := List.mem_flatMap.mp ha
  have hr := hh.member r (List.mem_of_getElem? hroot)
  have hqm := hh.member q hq
  obtain ⟨i, hi⟩ := List.mem_iff_getElem?.mp hq
  obtain ⟨e', he'⟩ := hqm.curr
  have hcurr : gtP (r.obj, e) (q.obj, e') = false := by
    have heq : gtMember gtP r q = gtP (r.obj, e) (q.obj, e') := gtMember_eq he he'
    rw [← heq]
    exact hh.heap.root_le (gtMember_total hgt) hh.member i r q hroot hi
  rw [SenRecords.pending_cons he'] at ha
  rcases List.mem_cons.mp ha with rfl | hlater
  · exact hcurr
  · have hpair := hqm.pairwise
    rw [SenRecords.pending_cons he'] at hpair
    have hqa : gtP (q.obj, e') a = false := List.rel_of_pairwise_cons hpair hlater
    exact hgt.trans (hr.curr_mem he) (hqm.curr_mem he')
      (hqm.mem a (by rw [SenRecords.pending_cons he']; exact ha)) hcurr hqa

variable (Q gtP) in
/-- An object that a heap may be given: sorted, rewound, and its records in order. -/
structure Fresh (r : SenRecords ε) : Prop where
  sorted : r.Sorted
  rewound : r.currRec = none
  pairwise : r.pending.Pairwise fun a b => gtP a b = false
  mem : ∀ a ∈ r.pending, Q a

end

section

variable {ε : Type u} (m : Entries ε) (optarg : Option (SenSortOptarg ε))

/-- The direction of the sort and of the heap. -/
def recDir : Int :=
  match optarg with
  | some o => if o.mode = .ascending then 1 else -1
  | none => -1

/-- The mode of the sort; without an argument it is descending. -/
def recMode : SortMode :=
  match optarg with
  | some o => o.mode
  | none => .descending

/-- How `sen_records_sort` compares the records of an object. -/
def recSortBy (obj : RecordsObj ε) : SortBy (RecordsObj ε) ε :=
  sortBy obj.table m obj (some (setOptarg obj optarg))

/-- How records of any objects compare: by the comparison function if there is one, else as
the records of an object do. -/
def streamBy (a : RecordsObj ε) : SortBy Unit (RecordsObj ε × ε) :=
  match optarg.bind SenSortOptarg.compar with
  | some c => .func (fun _ x _ y arg => c x.1 x.2 y.1 y.2 arg)
        (optarg.elim 0 SenSortOptarg.comparArg) ()
  | none =>
      match recSortBy m optarg a with
      | .func f arg arg0 => .func (fun _ x _ y arg => f arg0 x.2 arg0 y.2 arg) arg ()
      | .int offset => .int offset

/-- The memory of the entries, for records of any objects. -/
def streamEntries : Entries (RecordsObj ε × ε) where
  word a := m.word a.2
  strKey a := m.strKey a.2
  binKey a := m.binKey a.2

/-- `r` is what a successful `sen_records_sort` makes of an object that is not empty. -/
def SortedObject (r : SenRecords ε) : Prop :=
  ∃ r₀ buf limit, r₀.obj.table.Ok ∧ r₀.obj.table.nEntries ≠ 0 ∧
    buf.2.length = r₀.obj.table.nEntries ∧
    Settles (senRecordsSort m r₀ (some buf) limit optarg) (.success, r)

end

section

variable {ε : Type u} {m : Entries ε} {optarg : Option (SenSortOptarg ε)} {obj : RecordsObj ε}
  {r : SenRecords ε} {rs : List (SenRecords ε)} {Q : RecordsObj ε × ε → Prop} {dir : Int}

/-- On the records of one object the order of the stream is the order of its sort. -/
theorem streamBy_before {mode : SortMode} (x y : ε) :
    (streamBy m optarg obj).Before (streamEntries m) mode (obj, x) (obj, y) ↔
      (recSortBy m optarg obj).Before m mode x y := by
  cases hc : optarg.bind SenSortOptarg.compar with
  | none =>
      simp only [streamBy, hc]
      cases recSortBy m optarg obj with
      | func f arg arg0 => cases mode <;> rfl
      | int offset => cases mode <;> rfl
  | some c =>
      obtain ⟨o, rfl, ho⟩ := Option.bind_eq_some_iff.mp hc
      have hby : recSortBy m (some o) obj = .func c o.comparArg obj := by
        simp only [recSortBy, sortBy, setOptarg, ho, Option.getD_some]
      rw [hby]
      simp only [streamBy, hc]
      cases mode <;> rfl

theorem streamBy_ok {S : ε → Prop} (hS : ∀ e, S e → Q (obj, e))
    (h : (streamBy m optarg obj).Ok Q (streamEntries m) dir) :
    (recSortBy m optarg obj).Ok S m dir := by
  cases hc : optarg.bind SenSortOptarg.compar with
  | none =>
      simp only [streamBy, hc] at h
      cases hby : recSortBy m optarg obj with
      | func f arg arg0 =>
          rw [hby] at h
          exact ⟨fun hx hy => h.fits (hS _ hx) (hS _ hy), fun hx hy => h.symm (hS _ hx) (hS _ hy),
            fun hx hy hz => h.trans (hS _ hx) (hS _ hy) (hS _ hz)⟩
      | int offset =>
          rw [hby] at h
          exact fun x hx => h (obj, x) (hS x hx)
  | some c =>
      obtain ⟨o, rfl, ho⟩ := Option.bind_eq_some_iff.mp hc
      have hby : recSortBy m (some o) obj = .func c o.comparArg obj := by
        simp only [recSortBy, sortBy, setOptarg, ho, Option.getD_some]
      rw [hby]
      simp only [streamBy, hc] at h
      exact ⟨fun hx hy => h.fits (hS _ hx) (hS _ hy), fun hx hy => h.symm (hS _ hx) (hS _ hy),
        fun hx hy hz => h.trans (hS _ hx) (hS _ hy) (hS _ hz)⟩

theorem sortDir_setOptarg : sortDir (some (setOptarg obj optarg)) = recDir optarg := by
  cases optarg <;> rfl

theorem sortMode_setOptarg : sortMode (some (setOptarg obj optarg)) = recMode optarg := by
  cases optarg <;> rfl

/-- A sort leaves the records of the object alone. -/
theorem senRecordsSort_obj {r₀ : SenRecords ε} {buf : Option (Nat × List ε)} {limit : Int} {k : Nat}
    {rc : SenRc} (h : senRecordsSort m r₀ buf limit optarg k = some (rc, r)) : r.obj = r₀.obj := by
  rw [senRecordsSort] at h
  dsimp only at h
  split at h
  · obtain ⟨-, rfl⟩ := Prod.mk.inj (Option.some.inj h)
    rfl
  · obtain ⟨sorted, -, hr⟩ := Option.map_eq_some_iff.mp h
    rw [← (Prod.mk.inj hr).2]
    rfl

/-- A sorted object: its array holds its records, in order up to the limit. -/
theorem SortedObject.holds_array (h : SortedObject m optarg r)
    (hord : (recSortBy m optarg r.obj).Ok (· ∈ live r.obj.table.index) m (recDir optarg)) :
    ∃ a s, r.sorted = some (a, s) ∧ r.currRec = none ∧ s.Perm (live r.obj.table.index) ∧
      0 < s.length ∧ s.length = r.obj.table.nEntries ∧ r.limit ≤ r.obj.table.nEntries ∧
      ∀ (i j : Nat) (x y : ε), i < j → (i : Int) < r.limit → s[i]? = some x → s[j]? = some y →
        (recSortBy m optarg r.obj).Before m (recMode optarg) x y := by
  obtain ⟨r₀, buf, limit, ht, hne, hbuf, hset⟩ := h
  have hobj : r.obj = r₀.obj := by
    obtain ⟨n, hn⟩ := hset
    exact senRecordsSort_obj (hn n le_rfl)
  obtain ⟨limit', hlimit'⟩ : ∃ l, l = if limit > r₀.obj.table.nEntries then
      (r₀.obj.table.nEntries : Int) else limit := ⟨_, rfl⟩
  have hle : limit' ≤ r₀.obj.table.nEntries := by
    rw [hlimit']
    split <;> omega
  have hdir : recDir optarg = sortDir (some (setOptarg r₀.obj optarg)) :=
    sortDir_setOptarg.symm
  rw [hobj, hdir] at hord
  obtain ⟨s, hsort, hlen, hperm, hbefore⟩ := @senSetSort_sorts _ _ _ _ _ _ limit' _ ht hne hord hbuf
  rw [sortMode_setOptarg] at hbefore
  have hset' := senRecordsSort_settles hne hlimit' hsort
  obtain ⟨-, rfl⟩ := Prod.mk.inj (hset.unique hset')
  exact ⟨buf.1, s, rfl, rfl, hperm, by omega, hlen, hle, fun i j x y hij hi hx hy =>
    hbefore i j x y hij (Or.inr hi) hx hy⟩

/-- What a sorted object delivers. -/
theorem SortedObject.fresh (h : SortedObject m optarg r)
    {B : SortBy Unit (RecordsObj ε × ε)} (hB : streamBy m optarg r.obj = B)
    (hord : B.Ok Q (streamEntries m) (recDir optarg))
    (hQ : ∀ e ∈ live r.obj.table.index, Q (r.obj, e)) :
    Fresh Q (B.cmp (streamEntries m) (recDir optarg)).gt r := by
  have hdir : recDir optarg = if recMode optarg = .ascending then 1 else -1 := by
    cases optarg <;> rfl
  have hordr : (recSortBy m optarg r.obj).Ok (· ∈ live r.obj.table.index) m (recDir optarg) :=
    streamBy_ok hQ (hB ▸ hord)
  obtain ⟨a, s, hs, hcurr, hperm, -, hlen, hlim, hbefore⟩ := h.holds_array hordr
  have hsorted : r.Sorted := ⟨a, s, hs, by rw [hlen]; exact hlim⟩
  have hahead : r.ahead = (s.take r.limit.toNat).takeWhile fun e => r.obj.len e != 0 := by
    simp only [SenRecords.ahead, hs, SenRecords.pos, hcurr, List.drop_zero]
  have hpending : r.pending = r.ahead.map fun e => (r.obj, e) := by
    rw [SenRecords.pending, SenRecords.currEntry, hcurr]
    rfl
  have hsub : r.ahead.Sublist (s.take r.limit.toNat) := by
    rw [hahead]
    exact List.takeWhile_sublist _
  have hlive : ∀ e ∈ s, Q (r.obj, e) := fun e he => hQ e (hperm.mem_iff.mp he)
  refine ⟨hsorted, hcurr, ?_, ?_⟩
  · rw [hpending, List.pairwise_map]
    apply List.Pairwise.sublist hsub
    rw [List.pairwise_iff_getElem]
    intro i j hi hj hij
    rw [List.length_take] at hi hj
    have hx : s[i]? = some s[i] := List.getElem?_eq_getElem (by omega)
    have hy : s[j]? = some s[j] := List.getElem?_eq_getElem (by omega)
    have hb := hbefore i j s[i] s[j] hij (by omega) hx hy
    rw [← streamBy_before, hB, SortBy.before_iff hdir hord (hlive _ (List.mem_of_getElem? hx))
      (hlive _ (List.mem_of_getElem? hy))] at hb
    simpa only [List.getElem_take] using hb
  · intro b hb
    rw [hpending] at hb
    obtain ⟨e, he, rfl⟩ := List.mem_map.mp hb
    exact hlive e (List.mem_of_mem_take (hsub.subset he))

end

end Senna.Index
