/-
# Expanded tokens

A token that stands for many terms merges their postings. The cursors of the terms are
kept in a binary heap by the place they stand at, the least at the root, and only the
cursor at the root is moved. The heap yields every occurrence of every term once and in
order, and a skip leaves out exactly what lies before the document it is to find.
-/

import Senna.Index.RecordsStream
import Senna.Index.Select

namespace Senna.Index

open Senna.Inv Senna.Lib

namespace CursorHeap

/-- The loop of `cursor_heap_push`: `c` rises from bin `n`. -/
def rise (c : PostCursor) : Nat → CursorHeap → Nat → CursorHeap
  | 0, bins, n => bins.set n c
  | k + 1, bins, n =>
      if n = 0 then bins.set n c
      else
        match bins[(n - 1) / 2]? with
        | none => bins.set n c
        | some c₂ =>
            if c.cmp c₂ then bins.set n c
            else rise c k (bins.set n c₂) ((n - 1) / 2)

/-- `cursor_heap_push` of a cursor on the postings `hits`, into a heap with room for `nBins`
cursors: the new room and heap. It fails where the cursor has no posting, or one without a
position; `none` is a store outside the bins. -/
def push (nBins : Nat) (h : CursorHeap) (hits : List Hit) : Option (SenRc × Nat × CursorHeap) :=
  let nBins := if h.length ≥ nBins then nBins * 2 else nBins
  match TokenInfo.load hits with
  | [] => some (.internalError, nBins, h)
  | c :: _ =>
      if h.length < nBins then some (.success, nBins, rise c (h.length + 1) (h ++ [c]) h.length)
      else none

/-- Push cursors on all streams into a heap that has been opened with room for `nBins`. -/
def pushAll : Nat → CursorHeap → List (List Hit) → Option CursorHeap
  | _, h, [] => some h
  | nBins, h, hits :: streams =>
      (push nBins h hits).bind fun (_, nBins, h) => pushAll nBins h streams

end CursorHeap

/-- One occurrence is not behind another. -/
def PosInfo.le (a b : PosInfo) : Prop :=
  a.rid < b.rid ∨ (a.rid = b.rid ∧ (a.sid < b.sid ∨ (a.sid = b.sid ∧ a.pos ≤ b.pos)))

/-- The document of an occurrence. -/
def PosInfo.doc (a : PosInfo) : DocId := ⟨a.rid, a.sid⟩

/-- The hitOccs of a posting. -/
def hitOccs (h : Hit) : List PosInfo := h.pos.map fun p => ⟨h.rid, h.sid, p⟩

namespace PostCursor

/-- The occurrence a cursor stands at. -/
def occ (c : PostCursor) : PosInfo := ⟨c.hit.rid, c.hit.sid, c.pos⟩

/-- The hitOccs of the posting that the cursor has not come to. -/
def rest (c : PostCursor) : List PosInfo := c.unread.map fun p => ⟨c.hit.rid, c.hit.sid, p⟩

/-- The hitOccs that a cursor has still to yield. -/
def pending (c : PostCursor) : List PosInfo := c.occ :: (c.rest ++ c.later.flatMap hitOccs)

/-- What a cursor has still to yield is in order. -/
structure Ok (c : PostCursor) : Prop where
  unread : (c.pos :: c.unread).Pairwise (· < ·)
  later : Sorted (c.hit :: c.later)
  ne_nil : ∀ h ∈ c.later, h.pos ≠ []
  increasing : ∀ h ∈ c.later, h.pos.Pairwise (· < ·)

end PostCursor

/-- A stream of postings that increase strictly, each with increasing positions. -/
structure PostingsOk (hits : List Hit) : Prop where
  ne_nil : hits ≠ []
  sorted : Sorted hits
  pos_ne_nil : ∀ h ∈ hits, h.pos ≠ []
  increasing : ∀ h ∈ hits, h.pos.Pairwise (· < ·)

namespace PosInfo

theorem le_refl (a : PosInfo) : a.le a := Or.inr ⟨rfl, Or.inr ⟨rfl, Nat.le_refl _⟩⟩

theorem le_trans {a b c : PosInfo} (hab : a.le b) (hbc : b.le c) : a.le c := by
  unfold le at *
  omega

theorem le_of_not_le {a b : PosInfo} (h : ¬a.le b) : b.le a := by
  unfold le at *
  omega

theorem le_of_doc_lt {a b : PosInfo} (h : a.doc < b.doc) : a.le b := by
  rw [DocId.lt_def] at h
  simp only [doc] at h
  unfold le
  omega

end PosInfo

namespace PostCursor

variable {c c₁ c₂ : PostCursor}

theorem cmp_eq_false : c₁.cmp c₂ = false ↔ c₁.occ.le c₂.occ := by
  rw [cmp, decide_eq_false_iff_not]
  simp only [PosInfo.le, occ]
  omega

/-- The cursors are ordered by where they stand. -/
theorem cmp_total : TotalPreorderOn (fun _ => True) cmp where
  asymm {x y} _ _ h := by
    rw [cmp_eq_false]
    apply PosInfo.le_of_not_le
    rw [← cmp_eq_false, h]
    decide
  trans _ _ _ hxy hyz := by
    rw [cmp_eq_false] at hxy hyz ⊢
    exact PosInfo.le_trans hxy hyz

/-- A cursor stands at the first of what it has to yield. -/
theorem Ok.occ_le (h : c.Ok) : ∀ a ∈ c.pending, c.occ.le a := by
  intro a ha
  rcases List.mem_cons.mp ha with rfl | ha
  · exact PosInfo.le_refl _
  rcases List.mem_append.mp ha with ha | ha
  · obtain ⟨p, hp, rfl⟩ := List.mem_map.mp ha
    exact Or.inr ⟨rfl, Or.inr ⟨rfl, (List.rel_of_pairwise_cons h.unread hp).le⟩⟩
  · obtain ⟨g, hg, ha⟩ := List.mem_flatMap.mp ha
    obtain ⟨p, -, rfl⟩ := List.mem_map.mp ha
    exact PosInfo.le_of_doc_lt ((sorted_cons.mp h.later).1 g hg)

/-- The next occurrence of the same posting. -/
theorem Ok.nextPos (h : c.Ok) {c' : PostCursor} (hn : c.nextPos = some c') :
    c'.Ok ∧ c.pending = c.occ :: c'.pending := by
  rw [PostCursor.nextPos] at hn
  cases hu : c.unread with
  | nil =>
      rw [hu] at hn
      cases hn
  | cons p ps =>
      rw [hu] at hn
      obtain rfl := Option.some.inj hn
      refine ⟨⟨?_, h.later, h.ne_nil, h.increasing⟩, ?_⟩
      · have := h.unread
        rw [hu] at this
        exact this.of_cons
      · rw [pending, rest, hu]
        rfl

/-- The first occurrence of the next posting. -/
theorem Ok.nextAndPos (h : c.Ok) {c' : PostCursor} (hn : CursorHeap.nextAndPos c = some c') :
    c'.Ok ∧ c.pending = c.occ :: (c.rest ++ c'.pending) := by
  rw [CursorHeap.nextAndPos, PostCursor.next] at hn
  cases hl : c.later with
  | nil =>
      rw [hl] at hn
      cases hn
  | cons g hs =>
      rw [hl, Option.bind_some, PostCursor.nextPos] at hn
      cases hp : g.pos with
      | nil =>
          rw [hp] at hn
          cases hn
      | cons p ps =>
          rw [hp] at hn
          obtain rfl := Option.some.inj hn
          have hmem : g ∈ c.later := by rw [hl]; exact List.mem_cons_self
          have hlater := h.later
          rw [hl] at hlater
          refine ⟨⟨?_, (sorted_cons.mp hlater).2, ?_, ?_⟩, ?_⟩
          · rw [← hp]
            exact h.increasing g hmem
          · exact fun g' hg' => h.ne_nil g' (by rw [hl]; exact List.mem_cons_of_mem _ hg')
          · exact fun g' hg' => h.increasing g' (by rw [hl]; exact List.mem_cons_of_mem _ hg')
          · rw [pending, hl, List.flatMap_cons, hitOccs, hp]
            rfl

/-- A cursor without a next posting has only its posting to yield. -/
theorem Ok.nextAndPos_none (h : c.Ok) (hn : CursorHeap.nextAndPos c = none) :
    c.pending = c.occ :: c.rest := by
  rw [CursorHeap.nextAndPos, PostCursor.next] at hn
  cases hl : c.later with
  | nil => rw [pending, hl, List.flatMap_nil, List.append_nil]
  | cons g hs =>
      rw [hl, Option.bind_some, PostCursor.nextPos] at hn
      cases hp : g.pos with
      | nil => exact absurd hp (h.ne_nil g (by rw [hl]; exact List.mem_cons_self))
      | cons p ps =>
          rw [hp] at hn
          cases hn

end PostCursor

/-- A cursor on a stream stands at its first occurrence. -/
theorem PostingsOk.load {hits : List Hit} (h : PostingsOk hits) :
    ∃ c, TokenInfo.load hits = [c] ∧ c.Ok ∧ c.pending = hits.flatMap hitOccs := by
  obtain ⟨g, hs, rfl⟩ := List.exists_cons_of_ne_nil h.ne_nil
  obtain ⟨a, as, hpos⟩ := List.exists_cons_of_ne_nil (h.pos_ne_nil g List.mem_cons_self)
  refine ⟨⟨g, a, as, hs⟩, TokenInfo.load_cons hpos, ⟨?_, h.sorted, ?_, ?_⟩, ?_⟩
  · show (a :: as).Pairwise (· < ·)
    rw [← hpos]
    exact h.increasing g List.mem_cons_self
  · exact fun g' hg' => h.pos_ne_nil g' (List.mem_cons_of_mem _ hg')
  · exact fun g' hg' => h.increasing g' (List.mem_cons_of_mem _ hg')
  · rw [List.flatMap_cons, hitOccs, hpos]
    rfl

/-- The comparison of two cursors never fails. -/
def someCmp (x y : PostCursor) : Option Bool := some (x.cmp y)

theorem someCmp_eq {x y : PostCursor} (_ : True) (_ : True) : someCmp x y = some (x.cmp y) := rfl

section

variable {c : PostCursor} {bins : CursorHeap} {n : Nat}

theorem siftDown_succ {k : Nat} {out : CursorHeap}
    (h : siftDown someCmp c k bins n = some out) : siftDown someCmp c (k + 1) bins n =
        some out := by
  induction k generalizing bins n with
  | zero => cases h
  | succ k ih =>
      rw [siftDown] at h ⊢
      cases hchild : siftChild someCmp c (n * 2 + 1) (n * 2 + 2) bins[n * 2 + 1]?
          bins[n * 2 + 2]? with
      | none =>
          rw [hchild] at h
          cases h
      | some choice =>
          rw [hchild, Option.bind_some] at h
          rw [Option.bind_some]
          cases choice with
          | none => exact h
          | some iq =>
              obtain ⟨i, q⟩ := iq
              obtain ⟨bins', hstore, h⟩ := Option.bind_eq_some_iff.mp h
              exact Option.bind_eq_some_iff.mpr ⟨bins', hstore, ih h⟩

theorem siftDown_settles_of_eq {k : Nat} {out : CursorHeap}
    (h : siftDown someCmp c k bins n = some out) :
    Settles (fun k => siftDown someCmp c k bins n) out := by
  refine ⟨k, fun k' hk => ?_⟩
  induction k', hk using Nat.le_induction with
  | base => exact h
  | succ k' _ ih => exact siftDown_succ ih

/-- The loop of `cursor_heap_recalc_min` is `siftDown`. -/
theorem siftDown_sink (k : Nat) (hn : n < bins.length) (hk : bins.length ≤ n + k) :
    siftDown someCmp c (k + 1) bins n = some (CursorHeap.sink c k bins n) := by
  induction k generalizing bins n with
  | zero => omega
  | succ k ih =>
      have hstore (x : PostCursor) : store bins n x = some (bins.set n x) := by
        rw [store, if_pos hn]
      have round {i : Nat} {q : PostCursor} (hi : n < i) (hq : bins[i]? = some q) :
          (store bins n q).bind (fun bins => siftDown someCmp c (k + 1) bins i) =
            some (CursorHeap.sink c k (bins.set n q) i) := by
        have hil := (List.getElem?_eq_some_iff.mp hq).1
        rw [hstore, Option.bind_some]
        exact ih (by rwa [List.length_set]) (by rw [List.length_set]; omega)
      rw [siftDown, CursorHeap.sink]
      cases h1 : bins[n * 2 + 1]? with
      | none =>
          have h2 : bins[n * 2 + 2]? = none := by
            rw [List.getElem?_eq_none_iff] at h1 ⊢
            omega
          rw [h2]
          exact hstore c
      | some c₁ =>
          cases h2 : bins[n * 2 + 2]? with
          | none =>
              cases hc1 : c.cmp c₁ with
              | false => simp [siftChild, andCmp, someCmp, hc1, hstore]
              | true =>
                  simp only [siftChild, andCmp, someCmp, hc1, Option.bind_some, if_true]
                  exact round (by omega) h1
          | some c₂ =>
              cases hc1 : c.cmp c₁ with
              | false =>
                  cases hc2 : c.cmp c₂ with
                  | false => simp [siftChild, andCmp, someCmp, hc1, hc2, hstore]
                  | true =>
                      simp only [siftChild, andCmp, someCmp, hc1, hc2, Option.bind_some,
                        Option.map_some, Bool.false_eq_true, if_false, if_true]
                      exact round (by omega) h2
              | true =>
                  cases hc2 : c.cmp c₂ with
                  | false =>
                      simp only [siftChild, andCmp, someCmp, hc1, hc2, Option.bind_some,
                        Bool.false_and, Bool.false_eq_true, if_false, if_true]
                      exact round (by omega) h1
                  | true =>
                      cases hc12 : c₁.cmp c₂ with
                      | false =>
                          simp only [siftChild, andCmp, someCmp, hc1, hc2, hc12,
                            Option.bind_some, Option.map_some, Bool.true_and, Bool.false_eq_true,
                            if_false, if_true]
                          exact round (by omega) h1
                      | true =>
                          simp only [siftChild, andCmp, someCmp, hc1, hc2, hc12,
                            Option.bind_some, Option.map_some, Bool.true_and, if_true]
                          exact round (by omega) h2

/-- Sinking the root leaves a heap of the same cursors. -/
theorem sink_spec (h : HeapDown PostCursor.cmp 0 (bins.set 0 c)) (hn : 0 < bins.length) :
    IsHeap PostCursor.cmp (CursorHeap.sink c bins.length bins 0) ∧
      (CursorHeap.sink c bins.length bins 0).Perm (bins.set 0 c) := by
  obtain ⟨out, hset, hheap, hperm⟩ := siftDown_settles PostCursor.cmp_total someCmp_eq bins hn
      (fun _ _ => trivial) h
  have hsink := siftDown_sink (c := c) bins.length hn (by omega)
  obtain rfl := (siftDown_settles_of_eq hsink).unique hset
  exact ⟨hheap, hperm⟩

theorem siftUp_succ {k : Nat} {out : CursorHeap}
    (h : siftUp someCmp c k bins n = some out) : siftUp someCmp c (k + 1) bins n = some out := by
  induction k generalizing bins n with
  | zero => cases h
  | succ k ih =>
      rw [siftUp] at h ⊢
      by_cases hzero : n = 0
      · rwa [if_pos hzero] at h ⊢
      · rw [if_neg hzero] at h ⊢
        obtain ⟨q, hq, h⟩ := Option.bind_eq_some_iff.mp h
        obtain ⟨after, hafter, h⟩ := Option.bind_eq_some_iff.mp h
        refine Option.bind_eq_some_iff.mpr ⟨q, hq, Option.bind_eq_some_iff.mpr ⟨after, hafter, ?_⟩⟩
        cases after with
        | true => exact h
        | false =>
            obtain ⟨bins', hstore, h⟩ := Option.bind_eq_some_iff.mp h
            exact Option.bind_eq_some_iff.mpr ⟨bins', hstore, ih h⟩

theorem siftUp_settles_of_eq {k : Nat} {out : CursorHeap}
    (h : siftUp someCmp c k bins n = some out) :
    Settles (fun k => siftUp someCmp c k bins n) out := by
  refine ⟨k, fun k' hk => ?_⟩
  induction k', hk using Nat.le_induction with
  | base => exact h
  | succ k' _ ih => exact siftUp_succ ih

/-- The loop of `cursor_heap_push` is `siftUp`. -/
theorem siftUp_rise (k : Nat) (hn : n < bins.length) (hk : n ≤ k) :
    siftUp someCmp c (k + 1) bins n = some (CursorHeap.rise c k bins n) := by
  induction k generalizing bins n with
  | zero =>
      obtain rfl : n = 0 := by omega
      rw [siftUp, if_pos rfl, store, if_pos hn, CursorHeap.rise]
  | succ k ih =>
      have hstore (x : PostCursor) : store bins n x = some (bins.set n x) := by
        rw [store, if_pos hn]
      rw [siftUp, CursorHeap.rise]
      by_cases hzero : n = 0
      · rw [if_pos hzero, if_pos hzero, hstore]
      · obtain ⟨q, hq⟩ : ∃ q, bins[(n - 1) / 2]? = some q :=
          ⟨_, List.getElem?_eq_getElem (by omega)⟩
        rw [if_neg hzero, if_neg hzero, hq, Option.bind_some, someCmp, Option.bind_some]
        cases hcmp : c.cmp q with
        | true => simp only [hcmp, if_true, hstore]
        | false =>
            simp only [hcmp, Bool.false_eq_true, if_false, hstore, Option.bind_some]
            exact ih (by rw [List.length_set]; omega) (by omega)

/-- A pushed cursor rises to its place. -/
theorem rise_spec (h : IsHeap PostCursor.cmp bins) (c : PostCursor) :
    IsHeap PostCursor.cmp (CursorHeap.rise c (bins.length + 1) (bins ++ [c]) bins.length) ∧
      (CursorHeap.rise c (bins.length + 1) (bins ++ [c]) bins.length).Perm (bins ++ [c]) := by
  have hset : (bins ++ [c]).set bins.length c = bins ++ [c] := by
    rw [List.set_append_right _ _ (le_refl _), Nat.sub_self]
    rfl
  have hn : bins.length < (bins ++ [c]).length := by
    rw [List.length_append, List.length_singleton]
    omega
  obtain ⟨out, hrun, hheap, hperm⟩ := siftUp_settles PostCursor.cmp_total someCmp_eq (r := c)
    (bins ++ [c]) hn (fun _ _ => trivial)
    (by
      rw [hset]
      exact h.append c)
  rw [hset] at hperm
  obtain rfl := (siftUp_settles_of_eq (siftUp_rise (c := c) (bins.length + 1) hn
    (by omega))).unique hrun
  exact ⟨hheap, hperm⟩

end

/-- A heap of cursors that have something to yield. -/
structure HeapGood (h : CursorHeap) : Prop where
  heap : IsHeap PostCursor.cmp h
  ok : ∀ c ∈ h, c.Ok

/-- The hitOccs that a heap has still to yield. -/
def CursorHeap.pending (h : CursorHeap) : List PosInfo := h.flatMap PostCursor.pending

section

variable {c : PostCursor} {h cs : CursorHeap}

theorem heapGood_nil : HeapGood [] := ⟨isHeap_of_length_le (Nat.zero_le 1), by simp⟩

theorem recalcMin_spec (hdown : HeapDown PostCursor.cmp 0 h) :
    IsHeap PostCursor.cmp (CursorHeap.recalcMin h) ∧ (CursorHeap.recalcMin h).Perm h := by
  match h with
  | [] => exact ⟨isHeap_of_length_le (Nat.zero_le 1), List.Perm.refl _⟩
  | [_] => exact ⟨isHeap_of_length_le (le_refl 1), List.Perm.refl _⟩
  | c :: d :: cs =>
      exact sink_spec (show HeapDown PostCursor.cmp 0 ((c :: d :: cs).set 0 c) from hdown) (by simp)

/-- The last cursor takes the place of the root. -/
theorem dropMin_spec (hheap : IsHeap PostCursor.cmp (c :: cs)) :
    HeapDown PostCursor.cmp 0 (CursorHeap.dropMin (c :: cs)) ∧
      (CursorHeap.dropMin (c :: cs)).Perm cs := by
  rcases List.eq_nil_or_concat cs with rfl | ⟨init, last, rfl⟩
  · have hnil : IsHeap PostCursor.cmp [] := isHeap_of_length_le (Nat.zero_le 1)
    exact ⟨hnil.set_root c, List.Perm.refl _⟩
  · have hdrop : CursorHeap.dropMin (c :: init.concat last) = last :: init := by
      cases hi : init.concat last with
      | nil => simp at hi
      | cons d ds =>
          have hd : d :: ds = init ++ [last] := by rw [← hi, List.concat_eq_append]
          show (d :: ds).getLastD _ :: (d :: ds).dropLast = _
          rw [hd, List.dropLast_concat]
          simp
    have hroot := hheap.dropLast.set_root last
    rw [List.concat_eq_append, ← List.cons_append, List.dropLast_concat,
      List.set_cons_zero] at hroot
    rw [hdrop]
    refine ⟨hroot, ?_⟩
    rw [List.concat_eq_append]
    exact (List.perm_append_singleton last init).symm

/-- A heap whose root has been replaced by a cursor with less to yield. -/
theorem HeapGood.replace (hg : HeapGood (c :: cs)) {c' : PostCursor} (hc : c'.Ok) :
    HeapGood (CursorHeap.recalcMin (c' :: cs)) ∧
      (CursorHeap.recalcMin (c' :: cs)).Perm (c' :: cs) := by
  have hdown := hg.heap.set_root c'
  rw [List.set_cons_zero] at hdown
  obtain ⟨hheap, hperm⟩ := recalcMin_spec hdown
  refine ⟨⟨hheap, fun x hx => ?_⟩, hperm⟩
  rcases List.mem_cons.mp (hperm.mem_iff.mp hx) with rfl | hx
  · exact hc
  · exact hg.ok x (List.mem_cons_of_mem _ hx)

/-- A heap whose root has been closed. -/
theorem HeapGood.close (hg : HeapGood (c :: cs)) :
    HeapGood (CursorHeap.recalcMin (CursorHeap.dropMin (c :: cs))) ∧
      (CursorHeap.recalcMin (CursorHeap.dropMin (c :: cs))).Perm cs := by
  obtain ⟨hdown, hdrop⟩ := dropMin_spec hg.heap
  obtain ⟨hheap, hperm⟩ := recalcMin_spec hdown
  exact ⟨⟨hheap, fun x hx => hg.ok x (List.mem_cons_of_mem _ ((hperm.trans hdrop).mem_iff.mp hx))⟩,
    hperm.trans hdrop⟩

theorem pending_cons_perm {h' : CursorHeap} {c' : PostCursor} (gone : List PosInfo)
    (hpending : c.pending = c.occ :: (gone ++ c'.pending)) (hperm : h'.Perm (c' :: cs)) :
    (c.occ :: (gone ++ h'.pending)).Perm (CursorHeap.pending (c :: cs)) := by
  have h1 : h'.pending.Perm (c'.pending ++ CursorHeap.pending cs) := hperm.flatMap_right _
  have h2 : CursorHeap.pending (c :: cs) =
      c.occ :: (gone ++ (c'.pending ++ CursorHeap.pending cs)) := by
    show c.pending ++ CursorHeap.pending cs = _
    rw [hpending, List.cons_append, List.append_assoc]
  rw [h2]
  exact (h1.append_left gone).cons c.occ

/-- **`cursor_heap_pop`** takes the rest of the posting at the root off the heap. -/
theorem HeapGood.pop (hg : HeapGood (c :: cs)) :
    HeapGood (CursorHeap.pop (c :: cs)) ∧
      (c.occ :: (c.rest ++ (CursorHeap.pop (c :: cs)).pending)).Perm
        (CursorHeap.pending (c :: cs)) := by
  have hc := hg.ok c List.mem_cons_self
  rw [CursorHeap.pop]
  cases hn : CursorHeap.nextAndPos c with
  | some c' =>
      obtain ⟨hc', hpending⟩ := hc.nextAndPos hn
      obtain ⟨hgood, hperm⟩ := hg.replace hc'
      exact ⟨hgood, pending_cons_perm _ hpending hperm⟩
  | none =>
      obtain ⟨hgood, hperm⟩ := hg.close
      refine ⟨hgood, ?_⟩
      have hpending : CursorHeap.pending (c :: cs) =
          c.occ :: (c.rest ++ CursorHeap.pending cs) := by
        show c.pending ++ CursorHeap.pending cs = _
        rw [hc.nextAndPos_none hn]
        rfl
      rw [hpending]
      exact ((hperm.flatMap_right _).append_left c.rest).cons c.occ

/-- **`cursor_heap_pop_pos`** takes the occurrence at the root off the heap. -/
theorem HeapGood.popPos (hg : HeapGood (c :: cs)) :
    HeapGood (CursorHeap.popPos (c :: cs)) ∧
      (c.occ :: (CursorHeap.popPos (c :: cs)).pending).Perm (CursorHeap.pending (c :: cs)) := by
  have hc := hg.ok c List.mem_cons_self
  rw [CursorHeap.popPos]
  cases hp : c.nextPos with
  | some c' =>
      obtain ⟨hc', hpending⟩ := hc.nextPos hp
      obtain ⟨hgood, hperm⟩ := hg.replace hc'
      exact ⟨hgood, pending_cons_perm [] hpending hperm⟩
  | none =>
      -- the posting has no further position, so it is left as by `cursor_heap_pop`
      have hrest : c.rest = [] := by
        rw [PostCursor.nextPos] at hp
        rw [PostCursor.rest]
        cases hu : c.unread with
        | nil => rfl
        | cons p ps =>
            rw [hu] at hp
            cases hp
      have hpop := hg.pop
      rw [CursorHeap.pop, hrest] at hpop
      exact hpop

/-- The root stands at the least of all hitOccs. -/
theorem HeapGood.min_le (hg : HeapGood (c :: cs)) :
    ∀ a ∈ CursorHeap.pending (c :: cs), c.occ.le a := by
  intro a ha
  obtain ⟨d, hd, ha⟩ := List.mem_flatMap.mp ha
  obtain ⟨i, hi⟩ := List.mem_iff_getElem?.mp hd
  have hroot := hg.heap.root_le PostCursor.cmp_total (fun _ _ => trivial) i c d rfl hi
  exact PosInfo.le_trans (PostCursor.cmp_eq_false.mp hroot) ((hg.ok d hd).occ_le a ha)

/-- **`cursor_heap_push`** stays inside its bins and adds the hitOccs of the cursor. -/
theorem HeapGood.push (hg : HeapGood h) {nBins : Nat} (hn : 0 < nBins) (hle : h.length ≤ nBins)
    {hits : List Hit} (hhits : PostingsOk hits) :
    ∃ nBins' h', CursorHeap.push nBins h hits = some (.success, nBins', h') ∧ 0 < nBins' ∧
      h'.length ≤ nBins' ∧ HeapGood h' ∧
      h'.pending.Perm (h.pending ++ hits.flatMap hitOccs) := by
  obtain ⟨c, hload, hc, hpending⟩ := hhits.load
  obtain ⟨hheap, hperm⟩ := rise_spec hg.heap c
  have hroom : h.length < if h.length ≥ nBins then nBins * 2 else nBins := by
    split <;> omega
  refine ⟨_, _, by rw [CursorHeap.push, hload]; exact if_pos hroom, by split <;> omega, ?_,
    ⟨hheap, fun x hx => ?_⟩, ?_⟩
  · rw [hperm.length_eq, List.length_append, List.length_singleton]
    omega
  · rcases List.mem_append.mp (hperm.mem_iff.mp hx) with hx | hx
    · exact hg.ok x hx
    · rw [List.mem_singleton.mp hx]
      exact hc
  · refine (hperm.flatMap_right _).trans ?_
    rw [List.flatMap_append, List.flatMap_singleton, hpending]
    exact List.Perm.refl _

theorem cursorPushAll_spec (hg : HeapGood h) {nBins : Nat} (hn : 0 < nBins) (hle : h.length ≤ nBins)
    (streams : List (List Hit)) (hs : ∀ hits ∈ streams, PostingsOk hits) :
    ∃ h', CursorHeap.pushAll nBins h streams = some h' ∧ HeapGood h' ∧
      h'.pending.Perm (h.pending ++ streams.flatMap fun hits => hits.flatMap hitOccs) := by
  induction streams generalizing h nBins with
  | nil =>
      refine ⟨h, rfl, hg, ?_⟩
      rw [List.flatMap_nil, List.append_nil]
  | cons hits streams ih =>
      obtain ⟨nBins', h', hpush, hn', hle', hg', hperm⟩ :=
          hg.push hn hle (hs hits List.mem_cons_self)
      obtain ⟨h'', hall, hg'', hperm'⟩ := ih hg' hn' hle'
        fun hits hmem => hs hits (List.mem_cons_of_mem _ hmem)
      refine ⟨h'', ?_, hg'', ?_⟩
      · rw [CursorHeap.pushAll, hpush]
        exact hall
      · rw [List.flatMap_cons, ← List.append_assoc]
        exact hperm'.trans (hperm.append_right _)

end

/-- Read `cursor_heap_min` and call `cursor_heap_pop_pos`, until the heap is empty. -/
def CursorHeap.drain : Nat → CursorHeap → Option (List PosInfo)
  | 0, _ => none
  | k + 1, h =>
      match h.min with
      | none => some []
      | some c => (drain k h.popPos).map fun out => c.occ :: out

/-- A heap on the streams, after any pops. -/
inductive CursorHeap.Reachable (nBins : Nat) (streams : List (List Hit)) : CursorHeap → Prop
  | pushed {h : CursorHeap} (hpush : pushAll nBins [] streams = some h) : Reachable nBins streams h
  | pop {h : CursorHeap} (hr : Reachable nBins streams h) : Reachable nBins streams h.pop
  | popPos {h : CursorHeap} (hr : Reachable nBins streams h) : Reachable nBins streams h.popPos

/-- `token_info_skip` to the document `d` leaves out hitOccs before it only. It stops at
the first of the others, or fails when there are none. -/
def SkipsTo (ti : TokenInfo) (d : DocId) : Prop :=
  ∃ rc ti' gone, Settles (fun k => ti.skip k d.rid d.sid) (rc, ti') ∧
    (gone ++ ti'.cursors.pending).Perm ti.cursors.pending ∧ (∀ a ∈ gone, a.doc < d) ∧
    (rc = .success ∧ (∃ c, ti'.cursors.min = some c ∧ ¬c.occ.doc < d ∧
        (∀ a ∈ ti.cursors.pending, ¬a.doc < d → c.occ.le a) ∧ ti'.p = c ∧
        ti'.pos = c.pos - ti.offset) ∨
      rc = .internalError ∧ ti'.cursors = [])

section

variable {h : CursorHeap}

/-- **The stream of the heap** ends; it is sorted and holds every occurrence. -/
theorem drain_settles (hg : HeapGood h) :
    ∃ out, Settles (fun k => h.drain k) out ∧ out.Perm h.pending ∧ out.Pairwise PosInfo.le := by
  generalize hn : h.pending.length = n
  induction n using Nat.strong_induction_on generalizing h with
  | _ n ih =>
    cases h with
    | nil => exact ⟨[], Settles.succ (fun k => rfl) (Settles.pure _), List.Perm.refl _, .nil⟩
    | cons c cs =>
        obtain ⟨hgood, hperm⟩ := hg.popPos
        have hlt : (CursorHeap.popPos (c :: cs)).pending.length < n := by
          rw [← hn, ← hperm.length_eq, List.length_cons]
          omega
        obtain ⟨out, hset, hout, hsorted⟩ := ih _ hlt hgood rfl
        have hall := (hout.cons c.occ).trans hperm
        refine ⟨c.occ :: out, Settles.succ (fun k => rfl) (hset.map fun out => c.occ :: out), hall,
          List.pairwise_cons.mpr ⟨fun a ha => ?_, hsorted⟩⟩
        exact hg.min_le a (hall.mem_iff.mp (List.mem_cons_of_mem _ ha))

theorem CursorHeap.Reachable.good {nBins : Nat} {streams : List (List Hit)} (hn : 0 < nBins)
    (hs : ∀ hits ∈ streams, PostingsOk hits) (hr : h.Reachable nBins streams) : HeapGood h := by
  induction hr with
  | pushed hpush =>
      obtain ⟨h', hall, hg, -⟩ := cursorPushAll_spec heapGood_nil hn (Nat.zero_le _) streams hs
      obtain rfl := Option.some.inj (hpush.symm.trans hall)
      exact hg
  | @pop h _ ih =>
      cases h with
      | nil => exact heapGood_nil
      | cons c cs => exact ih.pop.1
  | @popPos h _ ih =>
      cases h with
      | nil => exact heapGood_nil
      | cons c cs => exact ih.popPos.1

/-- The hitOccs of the posting at the root are in one document. -/
theorem rest_doc {c : PostCursor} {a : PosInfo} (ha : a ∈ c.rest) : a.doc = c.occ.doc := by
  obtain ⟨p, -, rfl⟩ := List.mem_map.mp ha
  rfl

/-- **Skipping** an expanded token. -/
theorem skipsTo {ti : TokenInfo} (hg : HeapGood ti.cursors) (d : DocId) : SkipsTo ti d := by
  generalize hn : ti.cursors.pending.length = n
  induction n using Nat.strong_induction_on generalizing ti with
  | _ n ih =>
    cases hc : ti.cursors with
    | nil =>
        refine ⟨.internalError, ti, [], Settles.succ (fun k => ?_) (Settles.pure _),
          List.Perm.refl _, by simp, Or.inr ⟨rfl, hc⟩⟩
        simp only [TokenInfo.skip, hc, CursorHeap.min, List.head?_nil]
    | cons c cs =>
        have hg' := hg
        rw [hc] at hg'
        have hstop : (c.hit.rid > d.rid ∨ (c.hit.rid = d.rid ∧ c.hit.sid ≥ d.sid)) ↔
            ¬c.occ.doc < d := by
          rw [DocId.lt_def]
          simp only [PostCursor.occ, PosInfo.doc]
          omega
        by_cases hlt : c.occ.doc < d
        · obtain ⟨hgood, hperm⟩ := hg'.pop
          have hsmall : (CursorHeap.pop (c :: cs)).pending.length < n := by
            rw [← hn, hc, ← hperm.length_eq, List.length_cons, List.length_append]
            omega
          obtain ⟨rc, ti', gone, hset, hgone, hbefore, hend⟩ :=
            @ih _ hsmall { ti with cursors := CursorHeap.pop (c :: cs) } hgood rfl
          have hall : (c.occ :: (c.rest ++ gone) ++ ti'.cursors.pending).Perm
              ti.cursors.pending := by
            rw [hc, List.cons_append, List.append_assoc]
            exact ((hgone.append_left c.rest).cons c.occ).trans hperm
          have hposting : ∀ a ∈ c.occ :: c.rest, a.doc < d := by
            intro a ha
            rcases List.mem_cons.mp ha with rfl | ha
            · exact hlt
            · rw [rest_doc ha]
              exact hlt
          refine ⟨rc, ti', c.occ :: (c.rest ++ gone), Settles.succ (fun k => ?_) hset, hall, ?_, ?_⟩
          · simp only [TokenInfo.skip, hc, CursorHeap.min, List.head?_cons,
              if_neg (mt hstop.mp (not_not.mpr hlt))]
          · intro a ha
            rcases List.mem_append.mp (show a ∈ (c.occ :: c.rest) ++ gone from ha) with ha | ha
            · exact hposting a ha
            · exact hbefore a ha
          · rcases hend with ⟨hrc, m, hmin, hge, hle, hp, hpos⟩ | hend
            · refine Or.inl ⟨hrc, m, hmin, hge, fun a ha hna => ?_, hp, hpos⟩
              rw [hc, ← hperm.mem_iff] at ha
              rcases List.mem_append.mp
                (show a ∈ (c.occ :: c.rest) ++ (CursorHeap.pop (c :: cs)).pending from ha)
                with ha | ha
              · exact absurd (hposting a ha) hna
              · exact hle a ha hna
            · exact Or.inr hend
        · refine ⟨.success, ti.settle c, [], Settles.succ (fun k => ?_) (Settles.pure _),
            List.Perm.refl _, by simp, Or.inl ⟨rfl, c, ?_, hlt, fun a ha _ => ?_, rfl, rfl⟩⟩
          · simp only [TokenInfo.skip, hc, CursorHeap.min, List.head?_cons, if_pos (hstop.mpr hlt)]
          · show ti.cursors.min = some c
            rw [hc]
            rfl
          · rw [hc] at ha
            exact hg'.min_le a ha

end

/-- **Merging.** Pushing cursors on any streams of postings succeeds, and the heap yields
every occurrence of every stream once, in order. From any heap that pops lead to, a skip
stops at the first occurrence that is not before its document. -/
theorem cursorHeap_merges {streams : List (List Hit)} (hs : ∀ hits ∈ streams, PostingsOk hits)
    {nBins : Nat} (hn : 0 < nBins) :
    (∃ h out, CursorHeap.pushAll nBins [] streams = some h ∧
        Settles (fun k => h.drain k) out ∧
        out.Perm (streams.flatMap fun hits => hits.flatMap hitOccs) ∧
        out.Pairwise PosInfo.le) ∧
      ∀ ti : TokenInfo, ti.cursors.Reachable nBins streams → ∀ d, SkipsTo ti d := by
  constructor
  · obtain ⟨h, hpush, hg, hpending⟩ := cursorPushAll_spec heapGood_nil hn (Nat.zero_le _) streams hs
    obtain ⟨out, hset, hperm, hsorted⟩ := drain_settles hg
    exact ⟨h, out, hpush, hset, hperm.trans hpending, hsorted⟩
  · exact fun ti hr d => skipsTo (hr.good hn hs) d

/-- Two terms in two documents, into a heap opened for one cursor. -/
theorem cursorHeap_merges_pair :
    let streams : List (List Hit) := [[⟨1, 1, 0, [2, 5]⟩, ⟨3, 1, 0, [1]⟩], [⟨1, 1, 0, [3]⟩]]
    (∃ h out, CursorHeap.pushAll 1 [] streams = some h ∧
        Settles (fun k => h.drain k) out ∧
        out.Perm (streams.flatMap fun hits => hits.flatMap hitOccs) ∧
        out.Pairwise PosInfo.le) ∧
      ∀ ti : TokenInfo, ti.cursors.Reachable 1 streams → ∀ d, SkipsTo ti d := by
  intro streams
  refine cursorHeap_merges (fun hits hmem => ?_) Nat.one_pos
  have hcases : hits = streams[0] ∨ hits = streams[1] := by simpa [streams] using hmem
  rcases hcases with rfl | rfl <;> exact ⟨by decide, by decide, by decide, by decide⟩

end Senna.Index
