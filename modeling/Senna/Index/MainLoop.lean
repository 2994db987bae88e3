/-
# The main loop of a search

Exact and near search share the loop of `sen_index_select` that walks the documents of the
first token, and differ in what they do with a document that all tokens are in. `mainLoop`
takes that as a parameter. A step that deals with its document and lets a token leave it makes
the loop deal with every document, once each and in their order.

The loop keeps a document `lo` such that everything before it is done and every token still
has its postings from `lo` on (`Covers`). Each round raises `lo` to a document before which
some token has nothing.
-/

import Senna.Index.Phrase

namespace Senna.Index

open Senna.Inv Senna.Lib

universe u v

variable {ρ : Type u} {β : Type v}

namespace TokenInfo

variable {d e : DocId} {hs : List Hit}

theorem fromDoc_fromDoc (hle : ¬ e < d) : fromDoc e (fromDoc d hs) = fromDoc e hs := by
  induction hs with
  | nil => rfl
  | cons h hs ih =>
      by_cases hlt : h.id < d
      · have hlt' : h.id < e := by
          rw [DocId.lt_def] at *
          omega
        have h₁ : fromDoc d (h :: hs) = fromDoc d hs := by simp [fromDoc, hlt]
        have h₂ : fromDoc e (h :: hs) = fromDoc e hs := by simp [fromDoc, hlt']
        rw [h₁, h₂, ih]
      · have h₁ : fromDoc d (h :: hs) = h :: hs := by simp [fromDoc, hlt]
        rw [h₁]

/-- Passing over earlier documents does not change what is found of a document. -/
theorem find_fromDoc (hle : ¬ e < d) : find (fromDoc d hs) e = find hs e := by
  induction hs with
  | nil => rfl
  | cons h hs ih =>
      by_cases hlt : h.id < d
      · have h₁ : fromDoc d (h :: hs) = fromDoc d hs := by simp [fromDoc, hlt]
        have hne : h.id ≠ e := by
          rintro rfl
          exact hle hlt
        rw [h₁, ih, find_cons, if_neg hne]
      · have h₁ : fromDoc d (h :: hs) = h :: hs := by simp [fromDoc, hlt]
        rw [h₁]

theorem fromDoc_suffix : fromDoc d hs <:+ hs := List.dropWhile_suffix _

/-- The first posting from a document on is not before it. -/
theorem fromDoc_head {h : Hit} {later : List Hit} (hcut : fromDoc d hs = h :: later) :
    ¬ h.id < d := by
  have := List.head?_dropWhile_not (fun h : Hit => decide (h.id < d)) hs
  rw [fromDoc] at hcut
  rw [hcut] at this
  simpa using this

/-- Nothing is found between a document and the first posting from it on. -/
theorem find_eq_none_of_fromDoc (hsorted : Sorted hs) {h : Hit} {later : List Hit}
    (hcut : fromDoc d hs = h :: later) (hle : ¬ e < d) (hlt : e < h.id) : find hs e = none := by
  have hsorted' : Sorted (h :: later) := hcut ▸ hsorted.sublist fromDoc_suffix.sublist
  rw [← find_fromDoc hle, hcut]
  refine find_eq_none fun g hg heq => ?_
  rcases List.mem_cons.mp hg with rfl | hg
  · exact DocId.lt_irrefl _ (heq ▸ hlt)
  · exact DocId.lt_irrefl _ (DocId.lt_trans hlt (heq ▸ (sorted_cons.mp hsorted').1 g hg))

end TokenInfo

open TokenInfo

/-- The token still has its postings from the document `lo` on. -/
structure Covers (lo : DocId) (ti : TokenInfo) (t : TokenStream) : Prop where
  rest : ∃ hs, fromDoc lo hs = fromDoc lo t.hits ∧ (∀ h ∈ hs, h.pos ≠ []) ∧
    (ti.Fresh t.offset hs ∨ ∃ h a as, h.id < lo ∧ ti.At t.offset h a as hs)

theorem Covers.mono {lo d : DocId} {ti : TokenInfo} {t : TokenStream} (h : Covers lo ti t)
    (hle : ¬ d < lo) : Covers d ti t := by
  obtain ⟨hs, hrest, hpos, hti⟩ := h.rest
  refine ⟨hs, by rw [← fromDoc_fromDoc hle, hrest, fromDoc_fromDoc hle], hpos, ?_⟩
  rcases hti with hfresh | ⟨h, a, as, hlt, hat⟩
  · exact .inl hfresh
  · refine .inr ⟨h, a, as, ?_, hat⟩
    rw [DocId.lt_def] at *
    omega

theorem Covers.of_fresh {lo : DocId} {ti : TokenInfo} {t : TokenStream} (hok : t.Ok)
    (hfresh : ti.Fresh t.offset (fromDoc lo t.hits)) : Covers lo ti t :=
  ⟨_, fromDoc_fromDoc (DocId.lt_irrefl _),
    fun h hh => (hok.pos h (fromDoc_suffix.subset hh)).ne_nil, .inl hfresh⟩

/-- **Skipping a token** to a document moves it to its first posting from there on. -/
theorem Covers.skip {lo d : DocId} {ti : TokenInfo} {t : TokenStream} (h : Covers lo ti t)
    (hle : ¬ d < lo) :
    ∃ rc ti', Settles (fun k => ti.skip k d.rid d.sid) (rc, ti') ∧
      ti'.Fresh t.offset (fromDoc d t.hits) ∧ (rc = .success ↔ fromDoc d t.hits ≠ []) := by
  obtain ⟨hs, hrest, hpos, hti⟩ := h.rest
  have hcut : fromDoc d hs = fromDoc d t.hits := by
    rw [← fromDoc_fromDoc hle, hrest, fromDoc_fromDoc hle]
  rw [← hcut]
  rcases hti with hfresh | ⟨h, a, as, hlt, hat⟩
  · exact skip_load hfresh.cursors hfresh.offset hpos
  · refine hat.skip_of_lt ?_ hpos
    rw [DocId.lt_def] at *
    omega

/-- The track of a token that is in the document `d`. -/
structure Cut (d : DocId) (t : TokenStream) (tr : Track) : Prop where
  cut : fromDoc d t.hits = tr.hit :: tr.later
  id : tr.hit.id = d
  off : tr.off = t.offset

theorem Cut.ok {d : DocId} {t : TokenStream} {tr : Track} (h : Cut d t tr) (hok : t.Ok) :
    tr.Ok d := by
  have hmem : ∀ g ∈ tr.hit :: tr.later, g ∈ t.hits := fun g hg =>
    fromDoc_suffix.subset (h.cut ▸ hg)
  have hsorted : Sorted (tr.hit :: tr.later) :=
    h.cut ▸ hok.sorted.sublist fromDoc_suffix.sublist
  refine ⟨h.id, hok.pos _ (hmem _ (by simp)), h.off ▸ hok.offset_lt,
    fun g hg => (hok.pos g (hmem g (by simp [hg]))).ne_nil, fun g hg => ?_⟩
  exact h.id ▸ (sorted_cons.mp hsorted).1 g hg

theorem Cut.find {d : DocId} {t : TokenStream} {tr : Track} (h : Cut d t tr) :
    find t.hits d = some tr.hit := by
  rw [← find_fromDoc (DocId.lt_irrefl d), h.cut, find_cons, if_pos h.id]

/-- Behind a document, a token has the postings after the one it has there. -/
theorem Cut.fromDoc {d e : DocId} {t : TokenStream} {tr : Track} (h : Cut d t tr) (hlt : d < e) :
    fromDoc e t.hits = TokenInfo.fromDoc e tr.later := by
  have hle : ¬ e < d := fun hlt' => DocId.lt_irrefl _ (DocId.lt_trans hlt hlt')
  rw [← fromDoc_fromDoc hle, h.cut]
  simp [TokenInfo.fromDoc, h.id, hlt]

/-- A token is in no document between the one it leaves and the one it leaves for. -/
theorem Cut.find_eq_none {d e : DocId} {t : TokenStream} {tr : Track} (h : Cut d t tr)
    (hok : t.Ok) (hlt : d < e) (hnext : ∀ g ∈ tr.later.head?, e < g.id) :
    Inv.find t.hits e = none := by
  have hle : ¬ e < d := fun hlt' => DocId.lt_irrefl _ (DocId.lt_trans hlt hlt')
  have hsorted : Sorted (tr.hit :: tr.later) :=
    h.cut ▸ hok.sorted.sublist fromDoc_suffix.sublist
  rw [← find_fromDoc hle, h.cut]
  refine Inv.find_eq_none fun g hg heq => ?_
  rcases List.mem_cons.mp hg with rfl | hg
  · exact DocId.lt_irrefl _ (h.id ▸ heq ▸ hlt)
  · cases hl : tr.later with
    | nil => simp [hl] at hg
    | cons g₀ later =>
        rw [hl] at hg hnext hsorted
        have hlt₀ : e < g₀.id := hnext g₀ rfl
        rcases List.mem_cons.mp hg with rfl | hg
        · exact DocId.lt_irrefl _ (heq ▸ hlt₀)
        · have := (sorted_cons.mp (sorted_cons.mp hsorted).2).1 g hg
          exact DocId.lt_irrefl _ (DocId.lt_trans hlt₀ (heq ▸ this))

/-- Once out of a document, a token covers what comes after it. -/
theorem Cut.covers {d e : DocId} {t : TokenStream} {tr : Track} (h : Cut d t tr) (hok : t.Ok)
    (hlt : d < e) {ti : TokenInfo} (hleft : Left ti tr) : Covers e ti t := by
  refine ⟨tr.later, (h.fromDoc hlt).symm, (h.ok hok).later_pos, ?_⟩
  rw [← h.off]
  rcases hleft with ⟨a, as, hat⟩ | hfresh
  · exact .inr ⟨tr.hit, a, as, h.id ▸ hlt, hat⟩
  · exact .inl hfresh

/-- The token stands at the first position of its track. -/
def AtStart (ti : TokenInfo) (tr : Track) : Prop := ti.Fresh tr.off (tr.hit :: tr.later)

theorem AtStart.left {d : DocId} {ti : TokenInfo} {tr : Track} (h : AtStart ti tr)
    (hok : tr.Ok d) : On 0 ti tr := by
  obtain ⟨a, as, first, hat⟩ := h.exists_at hok.pos.ne_nil
  exact ⟨[], a, as, hat, first, by simp⟩

/-- What each way of skipping the other tokens tells. -/
inductive Others.Tells (d : DocId) (ts : List TokenStream) (tis : List TokenInfo) :
    Others → Prop
  | exhausted (t : TokenStream) (ht : t ∈ ts) (hcut : fromDoc d t.hits = []) :
      Tells d ts tis .exhausted
  | ahead (t : TokenStream) (ht : t ∈ ts) (h : Hit) (later : List Hit)
      (hcut : fromDoc d t.hits = h :: later) (hlt : d < h.id) : Tells d ts tis (.ahead h.id)
  | level (trs : List Track) (hcut : List.Forall₂ (Cut d) ts trs)
      (hstart : List.Forall₂ AtStart tis trs) : Tells d ts tis .level

/-- **Bringing the tokens level.** Either they all have a posting in the document, or one of
them shows how far there is nothing to be found. -/
theorem skipOthers_spec {d : DocId} {tis : List TokenInfo} {ts : List TokenStream}
    (hcov : List.Forall₂ (Covers d) tis ts) (hok : ∀ t ∈ ts, t.Ok) :
    ∃ tis' o, Settles (fun k => skipOthers k d tis) (tis', o) ∧
      List.Forall₂ (Covers d) tis' ts ∧ o.Tells d ts tis' := by
  induction hcov with
  | nil => exact ⟨[], .level, .pure _, .nil, .level [] .nil .nil⟩
  | @cons ti t tis ts hhead htail ih =>
      rw [List.forall_mem_cons] at hok
      obtain ⟨rc, ti', hskip, hfresh, hrc⟩ := hhead.skip (DocId.lt_irrefl d)
      have hcov' := Covers.of_fresh hok.1 hfresh
      rcases hcut : fromDoc d t.hits with _ | ⟨h, later⟩
      · have hfail : rc ≠ .success := fun heq => hrc.mp heq hcut
        refine ⟨ti' :: tis, .exhausted, hskip.bind ?_, .cons hcov' htail,
          .exhausted t (by simp) hcut⟩
        simpa [hfail] using Settles.pure _
      · have hsucc : rc = .success := hrc.mpr (by simp [hcut])
        rw [hcut] at hfresh
        have hmem : h ∈ t.hits := fromDoc_suffix.subset (hcut ▸ List.mem_cons_self)
        obtain ⟨a, as, -, hat⟩ := hfresh.exists_at (hok.1.pos h hmem).ne_nil
        have hhit : ti'.p.hit = h := by rw [hat.p]
        by_cases hid : h.id = d
        · obtain ⟨tis', o, hrun, hcovs, htells⟩ := ih hok.2
          refine ⟨ti' :: tis', o, hskip.bind ?_, .cons hcov' hcovs, ?_⟩
          · have hrid : h.rid = d.rid := congrArg DocId.rid hid
            have hsid : h.sid = d.sid := congrArg DocId.sid hid
            simp only [hsucc, hhit, hrid, hsid, ne_eq, not_true_eq_false, or_self, if_false]
            exact hrun.map _
          · cases htells with
            | exhausted t ht hcut => exact .exhausted t (by simp [ht]) hcut
            | ahead t ht h later hcut hlt => exact .ahead t (by simp [ht]) h later hcut hlt
            | level trs hcuts hstarts =>
                exact .level (⟨t.offset, h, later⟩ :: trs) (.cons ⟨hcut, hid, rfl⟩ hcuts)
                  (.cons hfresh hstarts)
        · have hlt : d < h.id ∧ (h.rid ≠ d.rid ∨ h.sid ≠ d.sid) := by
            have hge := fromDoc_head hcut
            have hne : h.rid ≠ d.rid ∨ h.sid ≠ d.sid := by
              by_contra hcon
              push Not at hcon
              exact hid (by cases d; simp_all [Hit.id])
            rw [DocId.lt_def] at *
            simp only [Hit.id] at *
            omega
          refine ⟨ti' :: tis, .ahead h.id, hskip.bind ?_, .cons hcov' htail,
            .ahead t (by simp) h later hcut hlt.1⟩
          simp only [hsucc, ne_eq, not_true_eq_false, if_false, hhit, hlt.2, if_true, hat.doc]
          exact Settles.pure _

/-- A token without a cursor. -/
def Spent (ti : TokenInfo) : Prop := ∃ off, ti.Fresh off []

/-- A token with at most one cursor, wherever it stands. -/
def Sound (ti : TokenInfo) : Prop :=
  Spent ti ∨ ∃ off h a as hs, ti.At off h a as hs ∧ ∀ h ∈ hs, h.pos ≠ []

theorem Sound.of_fresh {ti : TokenInfo} {off : Nat} {hs : List Hit} (h : ti.Fresh off hs)
    (hpos : ∀ h ∈ hs, h.pos ≠ []) : Sound ti := by
  cases hs with
  | nil => exact .inl ⟨off, h⟩
  | cons g hs =>
      rw [List.forall_mem_cons] at hpos
      obtain ⟨a, as, -, hat⟩ := h.exists_at hpos.1
      exact .inr ⟨off, g, a, as, hs, hat, hpos.2⟩

theorem Left.sound {d : DocId} {ti : TokenInfo} {tr : Track} (h : Left ti tr) (hok : tr.Ok d) :
    Sound ti := by
  rcases h with ⟨a, as, hat⟩ | hfresh
  · exact .inr ⟨tr.off, tr.hit, a, as, tr.later, hat, hok.later_pos⟩
  · exact .of_fresh hfresh hok.later_pos

/-- A successful skip leaves the token at a posting from the document on; a spent token
stays spent. -/
theorem Sound.skip {ti : TokenInfo} (h : Sound ti) (d : DocId) :
    ∃ rc ti', Settles (fun k => ti.skip k d.rid d.sid) (rc, ti') ∧ Sound ti' ∧
      (Spent ti → rc ≠ .success ∧ Spent ti') ∧
      (rc = .success → ∃ off h a as hs, ti'.At off h a as hs ∧ (∀ h ∈ hs, h.pos ≠ []) ∧
        ¬ h.id < d) := by
  rcases h with ⟨off, hspent⟩ | ⟨off, h, a, as, hs, hat, hpos⟩
  · obtain ⟨rc, ti', hrun, hfresh, hrc⟩ :=
      skip_load (d := d) hspent.cursors hspent.offset (by simp)
    have hfail : rc ≠ .success := fun heq => hrc.mp heq rfl
    exact ⟨rc, ti', hrun, .inl ⟨off, hfresh⟩, fun _ => ⟨hfail, off, hfresh⟩,
      fun heq => absurd heq hfail⟩
  · have hnot : ¬ Spent ti := by
      rintro ⟨off', hspent⟩
      have := hat.cursors.symm.trans hspent.cursors
      simp at this
    by_cases hlt : h.id < d
    · obtain ⟨rc, ti', hrun, hfresh, hrc⟩ := hat.skip_of_lt hlt hpos
      have hpos' : ∀ h ∈ fromDoc d hs, h.pos ≠ [] := fun h hh => hpos h (fromDoc_suffix.subset hh)
      refine ⟨rc, ti', hrun, .of_fresh hfresh hpos', fun hs => absurd hs hnot, fun heq => ?_⟩
      obtain ⟨g, later, hcut⟩ := List.exists_cons_of_ne_nil (hrc.mp heq)
      rw [hcut] at hfresh hpos'
      rw [List.forall_mem_cons] at hpos'
      obtain ⟨a', as', -, hat'⟩ := hfresh.exists_at hpos'.1
      exact ⟨off, g, a', as', later, hat', hpos'.2, fromDoc_head hcut⟩
    · obtain ⟨ti', hrun, hat'⟩ := hat.skip_of_le hlt
      exact ⟨.success, ti', hrun, .inr ⟨off, h, a, as, hs, hat', hpos⟩,
        fun hs => absurd hs hnot, fun _ => ⟨off, h, a, as, hs, hat', hpos, hlt⟩⟩

/-- With a spent token among them, the other tokens are never level. -/
theorem skipOthers_spent {tis : List TokenInfo} (hsound : ∀ ti ∈ tis, Sound ti)
    (hspent : ∃ ti ∈ tis, Spent ti) (d : DocId) :
    ∃ tis' o, Settles (fun k => skipOthers k d tis) (tis', o) ∧
      (o = .exhausted ∨ ∃ nd, o = .ahead nd ∧ d < nd) ∧ (∀ ti ∈ tis', Sound ti) ∧
      ∃ ti ∈ tis', Spent ti := by
  induction tis with
  | nil => simp at hspent
  | cons ti tis ih =>
      rw [List.forall_mem_cons] at hsound
      obtain ⟨rc, ti', hskip, hsound', hstays, hstands⟩ := hsound.1.skip d
      have hkept : Spent ti ∨ (∃ ti ∈ tis, Spent ti) → ∃ ti ∈ ti' :: tis, Spent ti := by
        rintro (hs | ⟨t, ht, hs⟩)
        · exact ⟨ti', by simp, (hstays hs).2⟩
        · exact ⟨t, by simp [ht], hs⟩
      have hsplit : Spent ti ∨ ∃ ti ∈ tis, Spent ti := by simpa using hspent
      by_cases hrc : rc = .success
      · by_cases hne : ti'.p.hit.rid ≠ d.rid ∨ ti'.p.hit.sid ≠ d.sid
        · have hlt : d < ti'.doc := by
            obtain ⟨off, h, a, as, hs, hat, -, hge⟩ := hstands hrc
            rw [hat.doc]
            rw [hat.p] at hne
            rw [DocId.lt_def] at *
            simp only [Hit.id] at *
            omega
          refine ⟨ti' :: tis, .ahead ti'.doc, hskip.bind ?_, .inr ⟨_, rfl, hlt⟩,
            by simpa [hsound'] using hsound.2, hkept hsplit⟩
          simp only [hrc, ne_eq, not_true_eq_false, if_false]
          exact .congr (fun _ => if_pos hne) (.pure _)
        · have hlater : ∃ ti ∈ tis, Spent ti := hsplit.resolve_left fun hs => (hstays hs).1 hrc
          obtain ⟨tis', o, hrun, ho, hall, t, ht, hs⟩ := ih hsound.2 hlater
          refine ⟨ti' :: tis', o, hskip.bind ?_, ho, by simpa [hsound'] using hall,
            t, by simp [ht], hs⟩
          simp only [hrc, ne_eq, not_true_eq_false, if_false]
          exact .congr (fun _ => if_neg hne) (hrun.map _)
      · refine ⟨ti' :: tis, .exhausted, hskip.bind ?_, .inl rfl,
          by simpa [hsound'] using hsound.2, hkept hsplit⟩
        simp only [ne_eq, hrc, not_false_eq_true, if_true]
        exact .pure _

/-- What is done with a document that all tokens are in: the tokens and the records afterwards,
and the document that the first token goes on to. -/
abbrev DocStep (ρ : Type u) :=
  DocId → Nat → List TokenInfo → ρ → Option (List TokenInfo × ρ × DocId)

/-- The main loop of `sen_index_select`, whatever is done with a document. -/
def mainLoop (step : DocStep ρ) : Nat → List TokenInfo → ρ → Option ρ
  | 0, _, _ => none
  | _ + 1, [], _ => none
  | k + 1, t :: ts, r =>
      let d := t.doc
      (skipOthers k d ts).bind fun (ts, o) =>
        match o with
        | .exhausted => some r
        | .ahead nd =>
            (t.skip k nd.rid nd.sid).bind fun (rc, t) =>
              if rc ≠ .success then some r else mainLoop step k (t :: ts) r
        | .level =>
            (step d k (t :: ts) r).bind fun (tis, r, nd) =>
              match tis with
              | [] => none
              | t :: ts =>
                  (t.skip k nd.rid nd.sid).bind fun (rc, t) =>
                    if rc ≠ .success then some r else mainLoop step k (t :: ts) r

/-- How a round ends: with skipping the first token, which ends the search when it fails. -/
def goOn (step : DocStep ρ) (k : Nat) (t : TokenInfo) (ts : List TokenInfo) (r : ρ)
    (nd : DocId) : Option ρ :=
  (t.skip k nd.rid nd.sid).bind fun (rc, t) =>
    if rc ≠ .success then some r else mainLoop step k (t :: ts) r

/-- What the loop does with the tokens it has tried to bring level. -/
def afterOthers (step : DocStep ρ) (k : Nat) (t : TokenInfo) (r : ρ) :
    List TokenInfo × Others → Option ρ
  | (_, .exhausted) => some r
  | (ts, .ahead nd) => goOn step k t ts r nd
  | (ts, .level) => (step t.doc k (t :: ts) r).bind fun
    | ([], _, _) => none
    | (t :: ts, r, nd) => goOn step k t ts r nd

theorem mainLoop_succ (step : DocStep ρ) (k : Nat) (t : TokenInfo) (ts : List TokenInfo) (r : ρ) :
    mainLoop step (k + 1) (t :: ts) r =
      (skipOthers k t.doc ts).bind (afterOthers step k t r) := by
  rw [mainLoop]
  refine congrArg _ (funext fun x => ?_)
  obtain ⟨tis, _ | nd | _⟩ := x
  · rfl
  · rfl
  · simp only [afterOthers]
    refine congrArg _ (funext fun x => ?_)
    obtain ⟨_ | ⟨t, ts⟩, r, nd⟩ := x <;> rfl

section Round

variable {step : DocStep ρ} {t t' : TokenInfo} {ts ts' : List TokenInfo} {r r' : ρ} {nd : DocId}

theorem mainLoop_exhausted (ho : Settles (fun k => skipOthers k t.doc ts) (ts', .exhausted)) :
    Settles (fun k => mainLoop step k (t :: ts) r) r :=
  .succ (fun k => mainLoop_succ step k t ts r) (ho.bind (.pure r))

theorem mainLoop_ahead (ho : Settles (fun k => skipOthers k t.doc ts) (ts', .ahead nd))
    (hgo : Settles (fun k => goOn step k t ts' r nd) r') :
    Settles (fun k => mainLoop step k (t :: ts) r) r' :=
  .succ (fun k => mainLoop_succ step k t ts r) (ho.bind hgo)

theorem mainLoop_level (ho : Settles (fun k => skipOthers k t.doc ts) (ts', .level))
    {r₁ : ρ} {tis : List TokenInfo}
    (hdoc : Settles (fun k => step t.doc k (t :: ts') r) (t' :: tis, r₁, nd))
    (hgo : Settles (fun k => goOn step k t' tis r₁ nd) r') :
    Settles (fun k => mainLoop step k (t :: ts) r) r' :=
  .succ (fun k => mainLoop_succ step k t ts r) (ho.bind (hdoc.bind hgo))

theorem goOn_fail {rc : SenRc} (hskip : Settles (fun k => t.skip k nd.rid nd.sid) (rc, t'))
    (hrc : rc ≠ .success) : Settles (fun k => goOn step k t ts r nd) r := by
  refine hskip.bind ?_
  simpa [hrc] using Settles.pure r

theorem goOn_success (hskip : Settles (fun k => t.skip k nd.rid nd.sid) (.success, t'))
    (hloop : Settles (fun k => mainLoop step k (t' :: ts) r) r') :
    Settles (fun k => goOn step k t ts r nd) r' := by
  refine hskip.bind ?_
  simpa using hloop

end Round

/-- **A spent token ends the search.** Nothing more is added. -/
theorem mainLoop_spent (step : DocStep ρ) {off : Nat} {hs : List Hit}
    (hpos : ∀ h ∈ hs, h.pos ≠ []) {t : TokenInfo} {h : Hit} {a : Nat} {as : List Nat}
    (hat : t.At off h a as hs) {tis : List TokenInfo} (hsound : ∀ ti ∈ tis, Sound ti)
    (hspent : ∃ ti ∈ tis, Spent ti) (r : ρ) :
    Settles (fun k => mainLoop step k (t :: tis) r) r := by
  -- every round moves the first token on to a later posting
  generalize hn : hs.length = n
  induction n using Nat.strong_induction_on generalizing hs t h a as tis with
  | _ n ih =>
      obtain ⟨tis', o, hothers, ho, hsound', hspent'⟩ := skipOthers_spent hsound hspent t.doc
      rcases ho with rfl | ⟨nd, rfl, hlt⟩
      · exact mainLoop_exhausted hothers
      · rw [hat.doc] at hlt
        obtain ⟨rc, t', hskip, hfresh, hrc⟩ := hat.skip_of_lt hlt hpos
        refine mainLoop_ahead hothers ?_
        by_cases hsucc : rc = .success
        · have hpos' : ∀ h ∈ fromDoc nd hs, h.pos ≠ [] :=
            fun h hh => hpos h (fromDoc_suffix.subset hh)
          have hshort : (fromDoc nd hs).length ≤ hs.length := fromDoc_suffix.sublist.length_le
          obtain ⟨g, later, hcut⟩ := List.exists_cons_of_ne_nil (hrc.mp hsucc)
          rw [hcut] at hfresh hpos' hshort
          rw [List.forall_mem_cons] at hpos'
          rw [List.length_cons] at hshort
          obtain ⟨a', as', -, hat'⟩ := hfresh.exists_at hpos'.1
          subst hsucc
          exact goOn_success hskip
            (ih later.length (by omega) hpos'.2 hat' hsound' hspent' rfl)
        · exact goOn_fail hskip hsucc

/-- The documents that are to be found (`F`) from `lo` on, in their order, each with what is
reported of it (`P`). -/
structure Listed (F : DocId → Prop) (P : DocId → β → Prop) (lo : DocId) (ms : List (DocId × β)) :
    Prop where
  sorted : ms.Pairwise fun a b => a.1 < b.1
  sound : ∀ m ∈ ms, ¬ m.1 < lo ∧ P m.1 m.2
  complete : ∀ d, ¬ d < lo → F d → ∃ x, (d, x) ∈ ms

/-- The documents that are to be found are in all postings. -/
def InAll (F : DocId → Prop) (ts : List TokenStream) : Prop :=
  ∀ d, F d → ∀ t ∈ ts, find t.hits d ≠ none

namespace Listed

variable {F : DocId → Prop} {P : DocId → β → Prop} {ts : List TokenStream} {lo lo' : DocId}
  {ms new : List (DocId × β)}

theorem nil (hF : InAll F ts) {t : TokenStream} (ht : t ∈ ts)
    (hnone : ∀ d, ¬ d < lo → find t.hits d = none) : Listed F P lo [] :=
  ⟨.nil, by simp, fun d hd hfound => absurd (hnone d hd) (hF d hfound t ht)⟩

/-- Documents that some token is not in may be passed over. -/
theorem skip (hF : InAll F ts) (h : Listed F P lo' ms) (hle : ¬ lo' < lo) {t : TokenStream}
    (ht : t ∈ ts) (hnone : ∀ d, ¬ d < lo → d < lo' → find t.hits d = none) :
    Listed F P lo ms := by
  refine ⟨h.sorted, fun m hm => ?_, fun d hd hfound => ?_⟩
  · obtain ⟨hd, hP⟩ := h.sound m hm
    refine ⟨?_, hP⟩
    rw [DocId.lt_def] at *
    omega
  · exact h.complete d (fun hlt => hF d hfound t ht (hnone d hd hlt)) hfound

/-- One document is dealt with before the others. -/
theorem cons (hF : InAll F ts) (h : Listed F P lo' ms) (hlt : lo < lo') {t : TokenStream}
    (ht : t ∈ ts) (hnone : ∀ d, lo < d → d < lo' → find t.hits d = none)
    (hnew : ∀ m ∈ new, m.1 = lo ∧ P m.1 m.2) (hall : F lo → new ≠ []) (hone : new.length ≤ 1) :
    Listed F P lo (new ++ ms) := by
  refine ⟨List.pairwise_append.mpr ⟨?_, h.sorted, ?_⟩, fun m hm => ?_, fun d hd hfound => ?_⟩
  · match new, hone with
    | [], _ => exact .nil
    | [m], _ => exact List.pairwise_singleton _ m
  · intro m hm e he
    rw [(hnew m hm).1]
    have hge := (h.sound e he).1
    rw [DocId.lt_def] at *
    omega
  · rcases List.mem_append.mp hm with hm | hm
    · obtain ⟨hid, hP⟩ := hnew m hm
      refine ⟨?_, hP⟩
      rw [hid]
      exact DocId.lt_irrefl _
    · obtain ⟨hd, hP⟩ := h.sound m hm
      refine ⟨?_, hP⟩
      rw [DocId.lt_def] at *
      omega
  · by_cases heq : d = lo
    · subst heq
      obtain ⟨m, hm⟩ := List.exists_mem_of_ne_nil new (hall hfound)
      refine ⟨m.2, List.mem_append_left _ ?_⟩
      rw [← (hnew m hm).1]
      exact hm
    · have hne : d.rid ≠ lo.rid ∨ d.sid ≠ lo.sid := by
        by_contra hcon
        push Not at hcon
        exact heq (by cases d; cases lo; simp_all)
      have hbehind : lo < d := by
        rw [DocId.lt_def] at *
        omega
      obtain ⟨x, hx⟩ := h.complete d (fun hlt' => hF d hfound t ht (hnone d hbehind hlt')) hfound
      exact ⟨x, List.mem_append_right _ hx⟩

end Listed

section Search

variable {step : DocStep ρ} {apply : ρ → DocId × β → ρ} {F : DocId → Prop} {P : DocId → β → Prop}
  {t₀ : TokenStream} {ts : List TokenStream} {trs : List Track} {d : DocId}

/-- What a level document leaves behind: what is found is added, and some token has left the
document for the one that comes next; a step that only looks at the document goes on to the
next section. -/
structure StepDone (apply : ρ → DocId × β → ρ) (F : DocId → Prop) (P : DocId → β → Prop)
    (d : DocId) (looks : Prop) (trs : List Track) (r : ρ) (tis' : List TokenInfo) (r' : ρ)
    (left : Option DocId) : Prop where
  tokens : List.Forall₂ Left tis' trs
  added : ∃ new : List (DocId × β), r' = new.foldl apply r ∧ new.length ≤ 1 ∧
    (∀ m ∈ new, m.1 = d ∧ P m.1 m.2) ∧ (F d → new ≠ [])
  left : left = none ∧ looks ∨
    ∃ ti ∈ tis', ∃ tr ∈ trs, ti.Fresh tr.off tr.later ∧ tr.later.head?.map Hit.id = left

/-- A step that deals with every document that all of the tokens are in. -/
def StepOk (step : DocStep ρ) (apply : ρ → DocId × β → ρ) (F : DocId → Prop)
    (P : DocId → β → Prop) (looks : Prop) (ts : List TokenStream) : Prop :=
  ∀ d trs tis r, List.Forall₂ (Cut d) ts trs → List.Forall₂ AtStart tis trs →
    ∃ tis' r' left, Settles (fun k => step d k tis r) (tis', r', nextDoc d left) ∧
      StepDone apply F P d looks trs r tis' r' left

/-- Whatever tokens have their postings from `lo` on still to come, the search adds the
documents to be found from there on. -/
def Finds (step : DocStep ρ) (apply : ρ → DocId × β → ρ) (F : DocId → Prop)
    (P : DocId → β → Prop) (t₀ : TokenStream) (ts : List TokenStream) (lo : DocId) : Prop :=
  ∀ ti tis r, ti.Fresh t₀.offset (fromDoc lo t₀.hits) → List.Forall₂ (Covers lo) tis ts →
    ∃ ms, Settles (fun k => mainLoop step k (ti :: tis) r) (ms.foldl apply r) ∧ Listed F P lo ms

theorem Finds.goOn {nd : DocId} (hF : InAll F (t₀ :: ts))
    (hfinds : fromDoc nd t₀.hits ≠ [] → Finds step apply F P t₀ ts nd)
    {ti : TokenInfo} {tis : List TokenInfo} (hcov : Covers nd ti t₀)
    (hcovs : List.Forall₂ (Covers nd) tis ts) (r : ρ) :
    ∃ ms, Settles (fun k => Index.goOn step k ti tis r nd) (ms.foldl apply r) ∧
      Listed F P nd ms := by
  obtain ⟨rc, ti', hskip, hfresh, hrc⟩ := hcov.skip (DocId.lt_irrefl nd)
  by_cases hcut : fromDoc nd t₀.hits = []
  · refine ⟨[], goOn_fail hskip fun heq => hrc.mp heq hcut, .nil hF (t := t₀) (by simp) ?_⟩
    intro d hle
    rw [← find_fromDoc hle, hcut, find_nil]
  · obtain ⟨ms, hrun, hlists⟩ := hfinds hcut ti' tis r hfresh hcovs
    obtain rfl := hrc.mpr hcut
    exact ⟨ms, goOn_success hskip hrun, hlists⟩

/-- A document in which all tokens have been, with what comes after it. -/
theorem Finds.level {looks : Prop} (hF : InAll F (t₀ :: ts)) (hfinds : ∀ nd, d < nd →
      fromDoc nd t₀.hits ≠ [] → Finds step apply F P t₀ ts nd)
    (hok : ∀ t ∈ t₀ :: ts, t.Ok) (hsid : looks → d.sid + 1 < 2 ^ 32)
    (hcut : List.Forall₂ (Cut d) (t₀ :: ts) trs) {r r' : ρ}
    {ti : TokenInfo} {tis : List TokenInfo} {left : Option DocId}
    (hdone : StepDone apply F P d looks trs r (ti :: tis) r' left) :
    ∃ ms, Settles (fun k => Index.goOn step k ti tis r' (nextDoc d left)) (ms.foldl apply r) ∧
      Listed F P d ms := by
  obtain ⟨new, rfl, hone, hnew, hall⟩ := hdone.added
  have hcutAt : ∀ tr ∈ trs, ∃ t ∈ t₀ :: ts, Cut d t tr := fun tr htr => by
    obtain ⟨i, hi, rfl⟩ := List.getElem_of_mem htr
    have hi' : i < (t₀ :: ts).length := hcut.length_eq ▸ hi
    exact ⟨_, List.getElem_mem hi', (List.forall₂_iff_get.mp hcut).2 i hi' hi⟩
  -- the tokens cover every later document
  have hcovers : ∀ nd, d < nd → List.Forall₂ (Covers nd) (ti :: tis) (t₀ :: ts) := by
    intro nd hlt
    refine List.forall₂_iff_get.mpr ⟨hdone.tokens.length_eq.trans hcut.length_eq.symm, ?_⟩
    intro i hi hj
    have hi' : i < trs.length := hdone.tokens.length_eq ▸ hi
    exact ((List.forall₂_iff_get.mp hcut).2 i hj hi').covers (hok _ (List.get_mem _ _)) hlt
      ((List.forall₂_iff_get.mp hdone.tokens).2 i hi hi')
  have hnext : ∀ nd, d < nd → (∃ t ∈ t₀ :: ts, ∀ e, d < e → e < nd → find t.hits e = none) →
      nextDoc d left = nd → ∃ ms,
        Settles (fun k => Index.goOn step k ti tis (new.foldl apply r) (nextDoc d left))
          (ms.foldl apply r) ∧ Listed F P d ms := by
    rintro nd hlt ⟨t, ht, hnone⟩ rfl
    obtain ⟨hcov, hcovs⟩ := List.forall₂_cons.mp (hcovers _ hlt)
    obtain ⟨ms, hrun, hlists⟩ := Finds.goOn hF (hfinds _ hlt) hcov hcovs (new.foldl apply r)
    exact ⟨new ++ ms, by simpa using hrun, hlists.cons hF hlt ht hnone hnew hall hone⟩
  have hsucc : d.sid + 1 < 2 ^ 32 → left = none → ∃ ms,
        Settles (fun k => Index.goOn step k ti tis (new.foldl apply r) (nextDoc d left))
          (ms.foldl apply r) ∧ Listed F P d ms := by
    rintro hlt rfl
    refine hnext ⟨d.rid, d.sid + 1⟩ (by simp [DocId.lt_def]) ⟨t₀, by simp, fun e hlo hhi => ?_⟩ ?_
    · simp only [DocId.lt_def] at hlo hhi
      omega
    · simp only [nextDoc, Option.getD_none, Nat.mod_eq_of_lt hlt]
  rcases hdone.left with ⟨hleft, hlooks⟩ | ⟨tl, htl, tr, htr, hfresh, hleft⟩
  · exact hsucc (hsid hlooks) hleft
  · obtain ⟨t, ht, hc⟩ := hcutAt tr htr
    have hctr := hc.ok (hok t ht)
    cases hl : tr.later with
    | cons g later =>
        rw [hl] at hleft
        refine hnext g.id (hctr.later_gt g (by simp [hl])) ⟨t, ht, fun e hlo hhi => ?_⟩ ?_
        · exact hc.find_eq_none (hok t ht) hlo (by simpa [hl] using hhi)
        · simp [← hleft, nextDoc]
    | nil =>
        rw [hl] at hleft hfresh
        have hend : ∀ e, d < e → find t.hits e = none := fun e hlt =>
          hc.find_eq_none (hok t ht) hlt (by simp [hl])
        by_cases hwrap : d.sid + 1 < 2 ^ 32
        · exact hsucc hwrap (by simpa using hleft.symm)
        · -- the section id wraps around, but a token is spent
          have hlt : d < ⟨d.rid + 1, 0⟩ := by simp [DocId.lt_def]
          have hnil : Listed F P ⟨d.rid + 1, 0⟩ [] := .nil hF ht fun e hle =>
            hend e (by
              simp only [DocId.lt_def] at hle ⊢
              omega)
          have hlists := hnil.cons hF hlt ht (fun e hlt _ => hend e hlt) hnew hall hone
          rw [List.append_nil] at hlists
          refine ⟨new, ?_, hlists⟩
          have hsound : ∀ tj ∈ ti :: tis, Sound tj := fun tj htj => by
            obtain ⟨i, hi, rfl⟩ := List.getElem_of_mem htj
            have hi' : i < trs.length := hdone.tokens.length_eq ▸ hi
            obtain ⟨t', ht', hc'⟩ := hcutAt _ (List.getElem_mem hi')
            exact ((List.forall₂_iff_get.mp hdone.tokens).2 i hi hi').sound (hc'.ok (hok t' ht'))
          rw [List.forall_mem_cons] at hsound
          obtain ⟨rc, ti', hskip, -, hstays, hstands⟩ := hsound.1.skip (nextDoc d left)
          by_cases hrc : rc = .success
          · subst hrc
            have hlater : ∃ tj ∈ tis, Spent tj := by
              rcases List.mem_cons.mp htl with rfl | htl
              · exact absurd rfl (hstays ⟨_, hfresh⟩).1
              · exact ⟨tl, htl, _, hfresh⟩
            obtain ⟨off, h, a, as, hs, hat, hpos, -⟩ := hstands rfl
            exact goOn_success hskip (mainLoop_spent step hpos hat hsound.2 hlater _)
          · exact goOn_fail hskip hrc

/-- **The search from a document on.** -/
theorem finds {looks : Prop} (hF : InAll F (t₀ :: ts))
    (hstep : StepOk step apply F P looks (t₀ :: ts)) (hok : ∀ t ∈ t₀ :: ts, t.Ok)
    (hsid : looks → ∀ h ∈ t₀.hits, h.sid + 1 < 2 ^ 32) {lo : DocId}
    (hne : fromDoc lo t₀.hits ≠ []) : Finds step apply F P t₀ ts lo := by
  generalize hn : (fromDoc lo t₀.hits).length = n
  induction n using Nat.strong_induction_on generalizing lo with
  | _ n ih =>
      intro ti tis r hfresh hcovs
      obtain ⟨h, later, hcut⟩ := List.exists_cons_of_ne_nil hne
      have hmem : h ∈ t₀.hits := fromDoc_suffix.subset (hcut ▸ List.mem_cons_self)
      have hge := fromDoc_head hcut
      have hok₀ : t₀.Ok := hok t₀ (by simp)
      have hcut₀ : Cut h.id t₀ ⟨t₀.offset, h, later⟩ := by
        refine ⟨?_, rfl, rfl⟩
        rw [← fromDoc_fromDoc hge, hcut]
        simp [TokenInfo.fromDoc, DocId.lt_irrefl]
      rw [hcut] at hfresh hn
      obtain ⟨a, as, -, hat⟩ := hfresh.exists_at (hok₀.pos h hmem).ne_nil
      -- every round ends with the first token at a later document
      have hlater : ∀ nd, h.id < nd → fromDoc nd t₀.hits ≠ [] →
          Finds step apply F P t₀ ts nd := by
        intro nd hlt hne
        refine ih _ ?_ hne rfl
        have hshort : (fromDoc nd later).length ≤ later.length := fromDoc_suffix.sublist.length_le
        rw [hcut₀.fromDoc hlt, ← hn]
        simp only [List.length_cons]
        omega
      have hskip : ∀ {ms}, Listed F P h.id ms → Listed F P lo ms :=
        fun hlists => hlists.skip hF hge (t := t₀) (by simp) fun d hle hlt =>
          find_eq_none_of_fromDoc hok₀.sorted hcut hle hlt
      have hcovs' : List.Forall₂ (Covers h.id) tis ts := hcovs.imp fun _ _ hc => hc.mono hge
      rw [List.forall_mem_cons] at hok
      obtain ⟨tis', o, hothers, hcovs'', htells⟩ := skipOthers_spec hcovs' hok.2
      rw [← hat.doc] at hothers
      cases htells with
      | exhausted t ht hcut' =>
          refine ⟨[], mainLoop_exhausted hothers, hskip (.nil hF (t := t) (by simp [ht]) ?_)⟩
          intro d hle
          rw [← find_fromDoc hle, hcut', find_nil]
      | ahead t ht g later' hcut' hlt =>
          have hcov : Covers g.id ti t₀ := by
            refine ⟨h :: later, ?_,
              fun x hx => (hok₀.pos x (fromDoc_suffix.subset (hcut ▸ hx))).ne_nil, .inl hfresh⟩
            rw [hcut₀.fromDoc hlt]
            simp [TokenInfo.fromDoc, hlt]
          obtain ⟨ms, hrun, hlists⟩ := Finds.goOn hF (hlater _ hlt) hcov
            (hcovs''.imp fun _ _ hc => hc.mono fun hlt' =>
              DocId.lt_irrefl _ (DocId.lt_trans hlt hlt')) r
          refine ⟨ms, mainLoop_ahead hothers hrun,
            hskip (hlists.skip hF ?_ (t := t) (by simp [ht]) ?_)⟩
          · exact fun hlt' => DocId.lt_irrefl _ (DocId.lt_trans hlt hlt')
          · exact fun d hle hlt' =>
              find_eq_none_of_fromDoc (hok.2 t ht).sorted hcut' hle hlt'
      | level trs hcuts hstarts =>
          have hcuts' : List.Forall₂ (Cut h.id) (t₀ :: ts) (⟨t₀.offset, h, later⟩ :: trs) :=
            .cons hcut₀ hcuts
          obtain ⟨tis₁, r', left, hrun, hdone⟩ :=
            hstep h.id _ (ti :: tis') r hcuts' (.cons hfresh hstarts)
          cases tis₁ with
          | nil => cases hdone.tokens
          | cons ti' tis₁ =>
              rw [← hat.doc] at hrun
              obtain ⟨ms, hgo, hlists⟩ := Finds.level hF hlater (List.forall_mem_cons.mpr hok)
                (fun hlooks => hsid hlooks h hmem) hcuts' hdone
              refine ⟨ms, mainLoop_level hothers hrun ?_, hskip hlists⟩
              rw [hat.doc]
              exact hgo

end Search

theorem mapM_tokenInfoOpen {ts : List TokenStream} (hok : ∀ t ∈ ts, t.Ok) :
    ∃ tis, ts.mapM TokenStream.tokenInfoOpen = some tis ∧
      List.Forall₂ (fun ti t => ti.Fresh t.offset t.hits) tis ts := by
  induction ts with
  | nil => exact ⟨[], rfl, .nil⟩
  | cons t ts ih =>
      rw [List.forall_mem_cons] at hok
      obtain ⟨ti, hopen, hfresh⟩ := hok.1.tokenInfoOpen
      obtain ⟨tis, hopens, hall⟩ := ih hok.2
      exact ⟨ti :: tis, by simp [hopen, hopens], .cons hfresh hall⟩

/-- **The search.** From tokens that have just been opened, the loop terminates and deals with
every document that is to be found. -/
theorem mainLoop_finds {step : DocStep ρ} {apply : ρ → DocId × β → ρ} {F : DocId → Prop}
    {P : DocId → β → Prop} {looks : Prop} {ts : List TokenStream} (hne : ts ≠ []) (hF : InAll F ts)
    (hstep : StepOk step apply F P looks ts) (hok : ∀ t ∈ ts, t.Ok)
    (hsid : looks → ∀ t ∈ ts, ∀ h ∈ t.hits, h.sid + 1 < 2 ^ 32) (r : ρ) :
    ∃ (tis : List TokenInfo) (ms : List (DocId × β)),
      ts.mapM TokenStream.tokenInfoOpen = some tis ∧
      Settles (fun k => mainLoop step k tis r) (ms.foldl apply r) ∧ Listed F P ⟨0, 0⟩ ms := by
  obtain ⟨tis, hopen, hall⟩ := mapM_tokenInfoOpen hok
  have hfrom : ∀ hs, fromDoc ⟨0, 0⟩ hs = hs := fun hs => by
    cases hs <;> simp [fromDoc, DocId.lt_def]
  cases hall with
  | nil => exact absurd rfl hne
  | @cons ti t tis ts hfresh hall =>
      have hfinds : Finds step apply F P t ts ⟨0, 0⟩ := by
        refine finds hF hstep hok (fun hlooks => hsid hlooks t (by simp)) ?_
        rw [hfrom]
        exact (hok t (by simp)).ne_nil
      obtain ⟨ms, hrun, hlists⟩ := hfinds ti tis r (by rwa [hfrom])
        (List.forall₂_iff_get.mpr ⟨hall.length_eq, fun i hi hj =>
          .of_fresh (hok _ (List.mem_cons_of_mem _ (List.get_mem _ _))) (by
            rw [hfrom]
            exact (List.forall₂_iff_get.mp hall).2 i hi hj)⟩)
      exact ⟨ti :: tis, ms, hopen, hrun, hlists⟩

end Senna.Index
