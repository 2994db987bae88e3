/-
# Exact search is phrase alignment

`Found` says which documents an exact search is to find, and with which score: those
in which the phrase occurs, and for a single token those the token is in. The loop of
`sen_index_select` adds exactly these, once each and in the order of the documents.
-/

import Senna.Index.MainLoop

namespace Senna.Index

open Senna.Inv Senna.Lib

universe u

variable {ρ : Type u}

/-- The phrase occurs in the document `d` at `p`. -/
def Occurs (ts : List TokenStream) (d : DocId) (p : Nat) : Prop :=
  ∀ t ∈ ts, ∃ h, find t.hits d = some h ∧ p + t.offset ∈ h.pos

/-- How often the phrase occurs in a document. -/
noncomputable def occurrences (ts : List TokenStream) (d : DocId) : Nat :=
  Set.ncard {p | Occurs ts d p}

/-- The scores of the tokens' postings in a document, added up. -/
def docScore (ts : List TokenStream) (d : DocId) : Nat :=
  (ts.map fun t => ((find t.hits d).map Hit.score).getD 0).sum

/-- The document `d` is to be found, with the score `x`. -/
def Found (ts : List TokenStream) (w : Nat → Nat → Int) (d : DocId) (x : Int) : Prop :=
  match ts with
  | [t] => ∃ h, find t.hits d = some h ∧ x = (h.tf + h.score) * w d.rid d.sid
  | _ => (∃ p, Occurs ts d p) ∧
      x = (occurrences ts d + occurrences ts d * docScore ts d) * w d.rid d.sid

/-- A document that is found is in every token's postings. -/
theorem Found.find_ne_none {ts : List TokenStream} {w : Nat → Nat → Int} {d : DocId} {x : Int}
    (h : Found ts w d x) : ∀ t ∈ ts, find t.hits d ≠ none := by
  unfold Found at h
  split at h
  · obtain ⟨g, hg, -⟩ := h
    simp [hg]
  · obtain ⟨⟨p, hp⟩, -⟩ := h
    intro t ht
    obtain ⟨g, hg, -⟩ := hp t ht
    simp [hg]

/-- A document has one score at most. -/
theorem Found.unique {ts : List TokenStream} {w : Nat → Nat → Int} {d : DocId} {x y : Int}
    (h : Found ts w d x) (h' : Found ts w d y) : x = y := by
  rcases ts with _ | ⟨t, _ | ⟨t', ts⟩⟩
  · exact h.2.trans h'.2.symm
  · obtain ⟨g, hg, rfl⟩ := h
    obtain ⟨g', hg', rfl⟩ := h'
    rw [Option.some.inj (hg.symm.trans hg')]
  · exact h.2.trans h'.2.symm

theorem inAll_found (ts : List TokenStream) (w : Nat → Nat → Int) :
    InAll (fun d => ∃ x, Found ts w d x) ts := fun _ ⟨_, hx⟩ => hx.find_ne_none

open TokenInfo

/-- What the loop does with a document it has found. -/
def Records.addFound (R : Records ρ) (r : ρ) (m : DocId × Int) : ρ :=
  R.add r ⟨m.1.rid, m.1.sid, 0⟩ (toU32 m.2)

theorem agree_iff_occurs {d : DocId} {ts : List TokenStream} {trs : List Track}
    (hcut : List.Forall₂ (Cut d) ts trs) (p : Nat) : Agree trs p ↔ Occurs ts d p := by
  induction hcut with
  | nil => simp [Agree, Occurs]
  | @cons t tr ts trs h _ ih =>
      unfold Agree Occurs at *
      rw [List.forall_mem_cons, List.forall_mem_cons, ih]
      simp [h.find, h.off]

theorem totalScore_eq_docScore {d : DocId} {ts : List TokenStream} {trs : List Track}
    (hcut : List.Forall₂ (Cut d) ts trs) : totalScore trs = docScore ts d := by
  induction hcut with
  | nil => rfl
  | @cons t tr ts trs h _ ih =>
      simp only [totalScore, docScore, List.map_cons, List.sum_cons] at ih ⊢
      rw [ih, h.find]
      rfl

/-- What the chase has counted when it ends. -/
theorem Chase.Ended.noccur_eq {d : DocId} {ts : List TokenStream} {trs : List Track} {r : ρ}
    {s : Chase ρ} {left : Option DocId} (h : s.Ended trs r left)
    (hcut : List.Forall₂ (Cut d) ts trs) :
    s.noccur = occurrences ts d ∧ (s.noccur ≠ 0 ↔ ∃ p, Occurs ts d p) := by
  obtain ⟨q, hcount, hbeyond⟩ := h.counted
  have hset : {p | Occurs ts d p} = ((Finset.range q).filter (Agree trs) : Finset Nat) := by
    ext p
    simp only [Set.mem_ofPred_eq, Finset.coe_filter, Finset.mem_range, ← agree_iff_occurs hcut]
    refine ⟨fun hp => ⟨?_, hp⟩, And.right⟩
    by_contra hge
    exact hbeyond p (not_lt.mp hge) hp
  have hncard : s.noccur = occurrences ts d := by
    rw [hcount, Nat.count_eq_card_filter_range, occurrences, hset, Set.ncard_coe_finset]
  refine ⟨hncard, ?_⟩
  rw [hncard, occurrences, ← Nat.pos_iff_ne_zero, Set.ncard_pos (hset ▸ Finset.finite_toSet _)]
  rfl

/-- The arguments of an exact search: operator `or`, document records, positive weights. -/
structure SelectArg.Exact (arg : SelectArg) : Prop where
  rep : arg.rep = false
  orp : arg.orp = true
  weight_pos : ∀ rid sid, 0 < arg.weight rid sid

section Document

variable {R : Records ρ} {arg : SelectArg} {d : DocId} {ts : List TokenStream}
  {tis : List TokenInfo} {trs : List Track}

/-- What the loop is to add, and how a document is left. -/
abbrev DocDone (R : Records ρ) (arg : SelectArg) (d : DocId) (ts : List TokenStream) :=
  StepDone R.addFound (fun d => ∃ x, Found ts arg.weight d x) (Found ts arg.weight) d
    (ts.length = 1)

theorem selectDoc_single {t : TokenStream} {ti : TokenInfo} {tr : Track} (harg : arg.Exact)
    (hcut : Cut d t tr) (hstart : AtStart ti tr) (hok : t.Ok) (r : ρ) :
    ∃ r', Settles (fun k => selectDoc R arg d k [ti] r) ([ti], r', nextDoc d none) ∧
      DocDone R arg d [t] [tr] r [ti] r' none := by
  have htr := hcut.ok hok
  obtain ⟨a, as, -, hat⟩ := hstart.exists_at htr.pos.ne_nil
  have htf : tr.hit.tf ≠ 0 := by simpa [Hit.tf] using htr.pos.ne_nil
  have hw := (harg.weight_pos d.rid d.sid).ne'
  refine ⟨R.addFound r (d, (tr.hit.tf + tr.hit.score) * arg.weight d.rid d.sid),
    .congr (fun k => ?_) (.pure _), .cons (.inl ⟨a, as, hat⟩) .nil,
    ⟨[(d, (tr.hit.tf + tr.hit.score) * arg.weight d.rid d.sid)], rfl, le_rfl, ?_, by simp⟩,
    .inl ⟨rfl, rfl⟩⟩
  · simp only [selectDoc, hw, harg.orp, harg.rep, hat.p, ne_eq, not_false_eq_true, true_or,
      and_self, if_true, htf]
    rfl
  · simp only [List.mem_singleton, forall_eq, true_and]
    exact ⟨tr.hit, hcut.find, rfl⟩

theorem selectDoc_many (harg : arg.Exact) (hcut : List.Forall₂ (Cut d) ts trs)
    (hstart : List.Forall₂ AtStart tis trs) (hok : ∀ t ∈ ts, t.Ok) (hmany : 1 < ts.length)
    (r : ρ) :
    ∃ tis' r' left, Settles (fun k => selectDoc R arg d k tis r) (tis', r', nextDoc d left) ∧
      DocDone R arg d ts trs r tis' r' left := by
  have hlen : trs.length = ts.length := hcut.length_eq.symm
  have htrs : ∀ tr ∈ trs, tr.Ok d := by
    intro tr htr
    obtain ⟨i, hi, rfl⟩ := List.getElem_of_mem htr
    exact (List.forall₂_iff_get.mp hcut |>.2 i (by omega) hi).ok (hok _ (List.get_mem _ _))
  have hne : trs ≠ [] := by
    rintro rfl
    simp at hlen
    omega
  have hw := (harg.weight_pos d.rid d.sid).ne'
  have hinv : Chase.Inv trs r (⟨[], tis, 0, 0, 0, 0, 0, r⟩ : Chase ρ) 0 := by
    refine ⟨⟨[], trs, rfl, .nil, ?_⟩, rfl, by omega, by simp, by simp, Nat.zero_le _, ?_, ?_, rfl⟩
    · refine List.forall₂_iff_get.mpr ⟨hstart.length_eq, fun i hi hj => ?_⟩
      exact (List.forall₂_iff_get.mp hstart |>.2 i hi hj).left (htrs _ (List.get_mem _ _))
    · simp [← hstart.length_eq]
    · simp [← hstart.length_eq]
  obtain ⟨s, left, hrun, hended⟩ := hinv.run (R := R) (w := arg.weight d.rid d.sid) htrs hne
    (by simp; omega)
  obtain ⟨hnoccur, hpos⟩ := hended.noccur_eq hcut
  obtain ⟨t₁, t₂, ts', rfl⟩ : ∃ t₁ t₂ ts', ts = t₁ :: t₂ :: ts' := by
    rcases ts with _ | ⟨t₁, _ | ⟨t₂, ts'⟩⟩
    · exact absurd hmany (by simp)
    · exact absurd hmany (by simp)
    · exact ⟨t₁, t₂, ts', rfl⟩
  obtain ⟨ti₁, ti₂, tis', rfl⟩ : ∃ ti₁ ti₂ tis', tis = ti₁ :: ti₂ :: tis' := by
    have := hstart.length_eq
    rcases tis with _ | ⟨ti₁, _ | ⟨ti₂, tis'⟩⟩
    · simp at this
      omega
    · simp at this
      omega
    · exact ⟨ti₁, ti₂, tis', rfl⟩
  let new := if s.noccur ≠ 0 then [(d, (s.noccur + s.tscore) * arg.weight d.rid d.sid)] else []
  have hnew : new.foldl R.addFound r = if s.noccur ≠ 0 then
      R.addFound r (d, (s.noccur + s.tscore) * arg.weight d.rid d.sid) else r := by
    by_cases hz : s.noccur = 0 <;> simp [new, hz]
  refine ⟨s.before ++ s.after, new.foldl R.addFound r, left, ?_, hended.tokens,
    ⟨new, rfl, ?_, ?_, ?_⟩, .inr hended.left⟩
  · have hmap := hrun.map fun x =>
      (x.1.before ++ x.1.after, if x.1.noccur ≠ 0 ∧ !arg.rep then
        R.addFound x.1.records (d, (x.1.noccur + x.1.tscore) * arg.weight d.rid d.sid)
        else x.1.records, nextDoc d x.2)
    simp only [harg.rep, Bool.not_false, and_true, hended.records, ← hnew] at hmap
    refine .congr (fun k => ?_) hmap
    simp only [selectDoc, hw, harg.orp, harg.rep, ne_eq, not_false_eq_true, true_or,
      and_self, if_true, hstart.length_eq, Bool.not_false, and_true]
    rfl
  · simp only [new]
    split_ifs <;> simp
  · intro m hm
    simp only [new] at hm
    split_ifs at hm with hne
    · obtain rfl := List.mem_singleton.mp hm
      refine ⟨rfl, hpos.mp hne, ?_⟩
      rw [hended.tscore, hnoccur, totalScore_eq_docScore hcut]
      simp
    · exact absurd hm List.not_mem_nil
  · rintro ⟨x, hx, -⟩
    simp [new, hpos.mpr hx]

/-- Every document is dealt with. -/
theorem selectDoc_ok (harg : arg.Exact) (hne : ts ≠ []) (hok : ∀ t ∈ ts, t.Ok) :
    StepOk (selectDoc R arg) R.addFound (fun d => ∃ x, Found ts arg.weight d x)
      (Found ts arg.weight) (ts.length = 1) ts := by
  intro d trs tis r hcut hstart
  cases hcut with
  | nil => exact absurd rfl hne
  | cons hhead htail =>
      cases htail with
      | nil =>
          cases hstart with
          | cons hti htis =>
              cases htis
              obtain ⟨r', hrun, hdone⟩ :=
                selectDoc_single (R := R) harg hhead hti (hok _ (by simp)) r
              exact ⟨_, r', none, hrun, hdone⟩
      | cons h₂ htail =>
          exact selectDoc_many harg (.cons hhead (.cons h₂ htail)) hstart hok (by simp) r

end Document

theorem selectLoop_eq (R : Records ρ) (arg : SelectArg) :
    selectLoop R arg = mainLoop (selectDoc R arg) := by
  funext k
  induction k with
  | zero => rfl
  | succ k ih =>
      funext tis r
      cases tis with
      | nil => rfl
      | cons t ts =>
          rw [selectLoop, ih]
          rfl

/-- **Exact search is phrase alignment.** Whatever streams the tokens read, the loop
terminates; it adds each document in which the phrase occurs once, with its score, and
nothing else. A single token is added wherever it occurs, without regard to its offset. -/
theorem selectLoop_exact (R : Records ρ) {arg : SelectArg} (harg : arg.Exact)
    {ts : List TokenStream} (hne : ts ≠ []) (hok : ∀ t ∈ ts, t.Ok)
    (hsid : ∀ t, ts = [t] → ∀ h ∈ t.hits, h.sid + 1 < 2 ^ 32) (r : ρ) :
    ∃ (tis : List TokenInfo) (ms : List (DocId × Int)),
      ts.mapM TokenStream.tokenInfoOpen = some tis ∧
      Settles (fun k => selectLoop R arg k tis r) (ms.foldl R.addFound r) ∧
      (ms.Pairwise fun a b => a.1 < b.1) ∧
      ∀ d x, (d, x) ∈ ms ↔ Found ts arg.weight d x := by
  have hsid' : ts.length = 1 → ∀ t ∈ ts, ∀ h ∈ t.hits, h.sid + 1 < 2 ^ 32 := by
    intro hlen t ht
    obtain ⟨t', rfl⟩ := List.length_eq_one_iff.mp hlen
    obtain rfl := List.mem_singleton.mp ht
    exact hsid t rfl
  obtain ⟨tis, ms, hopen, hrun, hlists⟩ :=
    mainLoop_finds hne (inAll_found ts arg.weight) (selectDoc_ok (R := R) harg hne hok) hok hsid' r
  refine ⟨tis, ms, hopen, ?_, hlists.sorted, fun d x => ⟨fun hm => (hlists.sound _ hm).2, ?_⟩⟩
  · rw [selectLoop_eq]
    exact hrun
  · intro hfound
    obtain ⟨y, hy⟩ := hlists.complete d (by simp [DocId.lt_def]) ⟨x, hfound⟩
    rwa [hfound.unique (hlists.sound _ hy).2]

/-- A records object that keeps everything it is given. -/
def recordsList : Records (List (PosInfo × Nat)) where
  has := fun r pi => r.any fun e => e.1 = pi
  add := fun r pi score => r ++ [(pi, score)]

/-- Exact search with weight 5. -/
def exactFive : SelectArg := ⟨false, true, fun _ _ => 5⟩

theorem exactFive_exact : exactFive.Exact := ⟨rfl, rfl, fun _ _ => Int.ofNat_succ_pos 4⟩

/-- Two tokens that are adjacent in one of two documents. -/
theorem selectLoop_exact_adjacent :
    ∃ (tis : List TokenInfo) (ms : List (DocId × Int)),
      [(⟨[⟨1, 1, 0, [0, 4]⟩, ⟨2, 1, 0, [7]⟩], 0⟩ : TokenStream), ⟨[⟨1, 1, 3, [5]⟩], 1⟩].mapM
        TokenStream.tokenInfoOpen = some tis ∧
      Settles (fun k => selectLoop recordsList exactFive k tis [])
        (ms.foldl recordsList.addFound []) ∧
      (ms.Pairwise fun a b => a.1 < b.1) ∧
      ∀ d x, (d, x) ∈ ms ↔
        Found [⟨[⟨1, 1, 0, [0, 4]⟩, ⟨2, 1, 0, [7]⟩], 0⟩, ⟨[⟨1, 1, 3, [5]⟩], 1⟩]
          exactFive.weight d x := by
  refine selectLoop_exact recordsList exactFive_exact (by simp) ?_ (by simp) []
  simp only [List.mem_cons, List.not_mem_nil, or_false, forall_eq_or_imp, forall_eq]
  refine ⟨⟨by simp, by decide, ?_, by decide⟩, ⟨by simp, by decide, ?_, by decide⟩⟩
  · simp only [List.mem_cons, List.not_mem_nil, or_false, forall_eq_or_imp, forall_eq]
    exact ⟨⟨by simp, by decide, by decide, by decide, by decide⟩,
      ⟨by simp, by decide, by decide, by decide, by decide⟩⟩
  · simp only [List.mem_singleton, forall_eq]
    exact ⟨by simp, by decide, by decide, by decide, by decide⟩

/-- The token of the last section there can be, searched for alone. -/
theorem selectLoop_lastSection (k : Nat) (r : List (PosInfo × Nat)) :
    selectLoop recordsList exactFive k
      [⟨[⟨⟨1, 2 ^ 32 - 1, 0, [0]⟩, 0, [], []⟩], 0, 0, ⟨⟨1, 2 ^ 32 - 1, 0, [0]⟩, 0, [], []⟩⟩] r
        = none := by
  rw [selectLoop_eq]
  induction k generalizing r with
  | zero => rfl
  | succ k ih =>
      rw [mainLoop_succ]
      cases k with
      | zero => rfl
      | succ k => exact ih _

/-- A single token is found in spite of its offset, and in the last section there can be the
search does not end. -/
theorem selectLoop_single_offset :
    (∃ (tis : List TokenInfo) (r : List (PosInfo × Nat)),
      [(⟨[⟨1, 1, 0, [0]⟩], 1⟩ : TokenStream)].mapM TokenStream.tokenInfoOpen = some tis ∧
      Settles (fun k => selectLoop recordsList exactFive k tis []) r ∧ (⟨1, 1, 0⟩, 5) ∈ r ∧
      ¬ ∃ p, Occurs [⟨[⟨1, 1, 0, [0]⟩], 1⟩] ⟨1, 1⟩ p) ∧
    ∃ tis : List TokenInfo,
      [(⟨[⟨1, 2 ^ 32 - 1, 0, [0]⟩], 0⟩ : TokenStream)].mapM TokenStream.tokenInfoOpen = some tis ∧
      ∀ k, selectLoop recordsList exactFive k tis [] = none := by
  refine ⟨⟨_, [(⟨1, 1, 0⟩, 5)], rfl, ⟨4, fun k hk => ?_⟩, by simp, ?_⟩,
    _, rfl, fun k => selectLoop_lastSection k []⟩
  · obtain ⟨k, rfl⟩ : ∃ m, k = m + 4 := ⟨k - 4, by omega⟩
    rfl
  · rintro ⟨p, hp⟩
    obtain ⟨h, hfind, hmem⟩ := hp _ List.mem_cons_self
    obtain rfl : (⟨1, 1, 0, [0]⟩ : Hit) = h := Option.some.inj hfind
    simp at hmem

end Senna.Index
