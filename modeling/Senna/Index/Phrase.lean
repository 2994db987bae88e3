/-
# The chase counts the occurrences

The positions at which a phrase occurs in a document are the `p` such that every token
has the position `p` plus its offset there. `Chase.Inv.run` shows that the chase of one
document counts them; its invariant is that all occurrences before `pos` are counted,
that no token has passed a position from `pos` on, and that the tokens visited last
agree on `pos`.
-/

import Mathlib.Data.List.TakeWhile
import Mathlib.Order.Interval.Set.Nat
import Senna.Index.Select

namespace Senna.Index

open Senna.Inv Senna.Lib

universe u

variable {ρ : Type u}

/-- What one document offers to a token: the hit there and the hits after it. -/
structure Track where
  off : Nat
  hit : Hit
  later : List Hit

/-- A track of document `d`. -/
structure Track.Ok (d : DocId) (tr : Track) : Prop where
  id : tr.hit.id = d
  pos : PosOk tr.hit
  off_lt : tr.off < 2 ^ 31
  later_pos : ∀ h ∈ tr.later, h.pos ≠ []
  later_gt : ∀ h ∈ tr.later, d < h.id

/-- Every token has the position `p` plus its offset. -/
def Agree (trs : List Track) (p : Nat) : Prop := ∀ tr ∈ trs, p + tr.off ∈ tr.hit.pos

instance (trs : List Track) : DecidablePred (Agree trs) := fun p =>
  inferInstanceAs (Decidable (∀ tr ∈ trs, p + tr.off ∈ tr.hit.pos))

/-- The token stands in the document and has passed no position from `q` on. -/
structure On (q : Nat) (ti : TokenInfo) (tr : Track) : Prop where
  stands : ∃ pre a as, ti.At tr.off tr.hit a as tr.later ∧ tr.hit.pos = pre ++ a :: as ∧
    ∀ x ∈ pre, x < q + tr.off

theorem On.mono {q q' : Nat} {ti : TokenInfo} {tr : Track} (h : On q ti tr) (hle : q ≤ q') :
    On q' ti tr := by
  obtain ⟨pre, a, as, hat, hpos, hpre⟩ := h.stands
  exact ⟨pre, a, as, hat, hpos, fun x hx => lt_of_lt_of_le (hpre x hx) (by omega)⟩

theorem On.hit {q : Nat} {ti : TokenInfo} {tr : Track} (h : On q ti tr) : ti.p.hit = tr.hit := by
  obtain ⟨pre, a, as, hat, -, -⟩ := h.stands
  rw [hat.p]

/-- A token determines its track. -/
theorem On.unique {q q' : Nat} {ti : TokenInfo} {tr tr' : Track} (h : On q ti tr)
    (h' : On q' ti tr') : tr = tr' := by
  obtain ⟨-, a, as, hat, -, -⟩ := h.stands
  obtain ⟨-, a', as', hat', -, -⟩ := h'.stands
  have hp := hat.p.symm.trans hat'.p
  have hoff := hat.offset.symm.trans hat'.offset
  simp only [PostCursor.mk.injEq] at hp
  obtain ⟨off, hit, later⟩ := tr
  obtain ⟨off', hit', later'⟩ := tr'
  simp only at hp hoff
  rw [hp.1, hp.2.2.2, hoff]

theorem On.doc {d : DocId} {q : Nat} {ti : TokenInfo} {tr : Track} (h : On q ti tr)
    (hok : tr.Ok d) :
    ti.p.hit.rid = d.rid ∧ ti.p.hit.sid = d.sid := by
  rw [h.hit]
  exact ⟨congrArg DocId.rid hok.id, congrArg DocId.sid hok.id⟩

/-- A token agreeing on `q` has the position. -/
theorem On.mem {q : Nat} {ti : TokenInfo} {tr : Track} (h : On q ti tr) (hpos : ti.pos = q) :
    q + tr.off ∈ tr.hit.pos := by
  obtain ⟨pre, a, as, hat, hsplit, -⟩ := h.stands
  have ha : a = q + tr.off := by
    have := hat.pos
    omega
  rw [hsplit, ← ha]
  simp

theorem toU32_natCast {q : Nat} (hq : q < 2 ^ 32) : toU32 (q : Int) = q := by
  unfold toU32
  omega

/-- **One visit.** The token moves to its first position from `q` on; if it has none, it
leaves the document. -/
theorem On.skipPos {d : DocId} {q : Nat} {ti : TokenInfo} {tr : Track} (h : On q ti tr)
    (hok : tr.Ok d) (hq : q ≤ 2 ^ 31) :
    (∃ ti' q', Settles (fun k => ti.skipPos k d.rid d.sid (toU32 q)) (.success, ti') ∧
      On q' ti' tr ∧ ti'.pos = (q' : Int) ∧ q ≤ q' ∧ q' < 2 ^ 31 ∧
      ∀ p, q ≤ p → p < q' → p + tr.off ∉ tr.hit.pos) ∨
    ((∀ p ≥ q, p + tr.off ∉ tr.hit.pos) ∧
      ∃ rc ti', Settles (fun k => ti.skipPos k d.rid d.sid (toU32 q)) (rc, ti') ∧
        ti'.Fresh tr.off tr.later ∧ (rc = .success ↔ tr.later ≠ [])) := by
  obtain ⟨pre, a, as, hat, hsplit, hpre⟩ := h.stands
  have hoff := hok.off_lt
  have htarget : (toU32 q + ti.offset) % 2 ^ 32 = q + tr.off := by
    rw [toU32_natCast (by omega), hat.offset, Nat.mod_eq_of_lt (by omega)]
  have hskip : ∀ k, ti.skipPos k d.rid d.sid (toU32 q) =
      TokenInfo.skipPosLoop k ti d.rid d.sid (q + tr.off) := fun k => by
    rw [TokenInfo.skipPos, htarget]
  have htake := List.takeWhile_append_dropWhile
    (p := fun x => decide (x < q + tr.off)) (l := a :: as)
  have hpassed : ∀ x ∈ pre ++ (a :: as).takeWhile (fun x => decide (x < q + tr.off)),
      x < q + tr.off := by
    intro x hx
    rcases List.mem_append.mp hx with hx | hx
    · exact hpre x hx
    · simpa using List.mem_takeWhile_imp hx
  rcases TokenInfo.skipPosLoop_spec hat.cursors hat.offset hok.id hok.later_pos hok.later_gt
      (q + tr.off) with ⟨a', as', ti', hdrop, hrun, hat'⟩ | ⟨hdrop, rc, ti', hrun, hfresh⟩
  · refine .inl ⟨ti', a' - tr.off, .congr hskip hrun, ?_, ?_, ?_, ?_, ?_⟩
    all_goals
      have hge : q + tr.off ≤ a' := by
        have := List.head?_dropWhile_not (fun x => decide (x < q + tr.off)) (a :: as)
        rw [hdrop] at this
        simpa using this
      have hall : tr.hit.pos =
          (pre ++ (a :: as).takeWhile (fun x => decide (x < q + tr.off))) ++ a' :: as' := by
        rw [List.append_assoc, ← hdrop, htake, hsplit]
      have hmem : a' ∈ tr.hit.pos := by rw [hall]; simp
    · exact ⟨_, a', as', hat', hall, fun x hx => lt_of_lt_of_le (hpassed x hx) (by omega)⟩
    · have := hat'.pos
      omega
    · omega
    · have := hok.pos.lt a' hmem
      omega
    · intro p hp hlt hin
      have hsorted := hok.pos.sorted
      rw [hall] at hin hsorted
      rcases List.mem_append.mp hin with hin | hin
      · have := hpassed _ hin
        omega
      · have hle : a' ≤ p + tr.off := by
          rcases List.mem_cons.mp hin with heq | hin
          · omega
          · exact ((List.pairwise_cons.mp (List.pairwise_append.mp hsorted).2.1).1 _ hin).le
        omega
  · refine .inr ⟨fun p hp hin => ?_, rc, ti', .congr hskip hrun, hfresh⟩
    have hall : tr.hit.pos = pre ++ (a :: as).takeWhile (fun x => decide (x < q + tr.off)) := by
      rw [hdrop, List.append_nil] at htake
      rw [htake, hsplit]
    rw [hall] at hin
    have := hpassed _ hin
    omega

/-- The postings' scores, added up. -/
def totalScore (trs : List Track) : Nat := (trs.map fun tr => tr.hit.score).sum

theorem forall₂_on_scores {q : Nat} {tis : List TokenInfo} {trs : List Track}
    (h : List.Forall₂ (On q) tis trs) :
    (tis.map fun ti => ti.p.hit.score).sum = totalScore trs := by
  induction h with
  | nil => rfl
  | cons hd _ ih =>
      simp only [totalScore, List.map_cons, List.sum_cons] at ih ⊢
      rw [ih, hd.hit]

theorem forall₂_on_mem {q : Nat} {tis : List TokenInfo} {trs : List Track}
    (h : List.Forall₂ (On q) tis trs) (hpos : ∀ ti ∈ tis, ti.pos = (q : Int)) :
    ∀ tr ∈ trs, q + tr.off ∈ tr.hit.pos := by
  induction h with
  | nil => simp
  | cons hd _ ih =>
      rw [List.forall_mem_cons] at hpos ⊢
      exact ⟨hd.mem hpos.1, ih hpos.2⟩

/-- The variables of the chase while it looks for the occurrences from `q` on: those before
are counted, and the `count` tokens visited last stand at `q`. -/
structure Chase.Inv (trs : List Track) (r : ρ) (s : Chase ρ) (q : Nat) : Prop where
  tokens : ∃ trB trA, trB ++ trA = trs ∧ List.Forall₂ (On q) s.before trB ∧
    List.Forall₂ (On q) s.after trA
  pos : s.pos = q
  pos_le : q ≤ 2 ^ 31
  noccur : s.noccur = Nat.count (Agree trs) q
  tscore : s.tscore = s.noccur * totalScore trs
  count_le : s.count ≤ trs.length
  agree : ∀ ti ∈ (s.after ++ s.before).drop (trs.length - s.count), ti.pos = (q : Int)
  score : s.score = (((s.after ++ s.before).drop (trs.length - s.count)).map
    fun ti => ti.p.hit.score).sum
  records : s.records = r

/-- The tokens after the chase: each still in the document or just behind it. -/
def Left (ti : TokenInfo) (tr : Track) : Prop :=
  (∃ a as, ti.At tr.off tr.hit a as tr.later) ∨ ti.Fresh tr.off tr.later

/-- Where the chase ends: all occurrences are counted, and some token has left the document,
for the document it returns or for good. -/
structure Chase.Ended (trs : List Track) (r : ρ) (s : Chase ρ) (left : Option DocId) : Prop where
  tokens : List.Forall₂ Left (s.before ++ s.after) trs
  counted : ∃ q, s.noccur = Nat.count (Agree trs) q ∧ ∀ p ≥ q, ¬ Agree trs p
  tscore : s.tscore = s.noccur * totalScore trs
  left : ∃ ti ∈ s.before ++ s.after, ∃ tr ∈ trs, ti.Fresh tr.off tr.later ∧
    tr.later.head?.map Hit.id = left
  records : s.records = r

namespace Chase

variable {trs : List Track} {r : ρ} {s : Chase ρ} {q : Nat} {R : Records ρ} {w : Int} {d : DocId}

theorem Inv.turn (h : s.Inv trs r q) (hne : trs ≠ []) :
    s.turn.Inv trs r q ∧ s.turn.count = s.count ∧ s.turn.after ≠ [] := by
  obtain ⟨trB, trA, hsplit, hB, hA⟩ := h.tokens
  unfold Chase.turn
  cases ha : s.after with
  | cons ti after => exact ⟨h, rfl, by simp [ha]⟩
  | nil =>
      rw [ha] at hA
      cases hA
      rw [List.append_nil] at hsplit
      subst hsplit
      refine ⟨⟨⟨[], trB, rfl, .nil, hB⟩, h.pos, h.pos_le, h.noccur, h.tscore, h.count_le, ?_, ?_,
        h.records⟩, rfl, ?_⟩
      · simpa [ha] using h.agree
      · simpa [ha] using h.score
      · rintro hnil
        simp only at hnil
        rw [hnil] at hB
        cases hB
        exact hne rfl

/-- Reporting an agreement of all tokens counts one occurrence. -/
theorem Inv.report (h : s.Inv trs r q) (hne : trs ≠ []) (hq : q < 2 ^ 31) :
    ∃ q', (s.report R false w d trs.length).Inv trs r q' ∧
      (s.report R false w d trs.length).count < trs.length ∧ q ≤ q' ∧
      (q' = q → (s.report R false w d trs.length).count = s.count) := by
  have hlen : 0 < trs.length := List.length_pos_of_ne_nil hne
  unfold Chase.report
  by_cases hc : s.count = trs.length
  · rw [if_pos hc]
    obtain ⟨trB, trA, hsplit, hB, hA⟩ := h.tokens
    have hagree := h.agree
    have hscore := h.score
    simp only [hc, Nat.sub_self, List.drop_zero] at hagree hscore
    have hall : Agree trs q := by
      rw [← hsplit]
      intro tr htr
      have hmem := forall₂_on_mem (List.rel_append hA hB) hagree
      exact hmem tr (by rcases List.mem_append.mp htr with h | h <;> simp [h])
    have htotal : s.score = totalScore trs := by
      rw [hscore, forall₂_on_scores (List.rel_append hA hB), ← hsplit]
      simp [totalScore, Nat.add_comm]
    refine ⟨q + 1, ⟨⟨trB, trA, hsplit, hB.imp fun _ _ h => h.mono (by omega),
      hA.imp fun _ _ h => h.mono (by omega)⟩, ?_, by omega, ?_, ?_, Nat.zero_le _, ?_, ?_, ?_⟩,
          hlen,
      by omega, fun heq => absurd heq (by omega)⟩
    · simp [h.pos]
    · simp [Nat.count_succ, hall, h.noccur]
    · simp [h.tscore, htotal, Nat.add_mul]
    · have hQ : s.after.length + s.before.length = trs.length := by
        rw [hA.length_eq, hB.length_eq, ← hsplit, List.length_append, Nat.add_comm]
      simp [List.drop_eq_nil_of_le, hQ]
    · have hQ : s.after.length + s.before.length = trs.length := by
        rw [hA.length_eq, hB.length_eq, ← hsplit, List.length_append, Nat.add_comm]
      simp [List.drop_eq_nil_of_le, hQ]
    · simpa using h.records
  · rw [if_neg hc]
    exact ⟨q, h, lt_of_le_of_ne h.count_le hc, le_rfl, fun _ => rfl⟩

/-- A token that stands at a position from `q` on is compared with `pos`. -/
theorem Inv.meet (h : s.Inv trs r q) (hc : s.count < trs.length) {ti ti' : TokenInfo}
    {after : List TokenInfo} (ha : s.after = ti :: after) {q' : Nat}
    (hpos : ti'.pos = (q' : Int)) (hle : q ≤ q') (hq' : q' < 2 ^ 31)
    (hon : ∀ tr ∈ trs, On q ti tr → On q' ti' tr ∧ ∀ p, q ≤ p → p < q' → p + tr.off ∉ tr.hit.pos) :
    (({ s with before := s.before ++ [ti'], after := after } : Chase ρ).meet ti').Inv trs r q' ∧
      (q' = q → (({ s with before := s.before ++ [ti'], after := after } : Chase ρ).meet ti').count
        = s.count + 1) := by
  obtain ⟨trB, trA, hsplit, hB, hA⟩ := h.tokens
  rw [ha] at hA
  cases hA with
  | @cons _ tr _ trA hhead hA =>
      have htr : tr ∈ trs := by rw [← hsplit]; simp
      obtain ⟨hon', hskip⟩ := hon tr htr hhead
      have htokens : ∃ trB' trA', trB' ++ trA' = trs ∧
          List.Forall₂ (On q') (s.before ++ [ti']) trB' ∧ List.Forall₂ (On q') after trA' :=
        ⟨trB ++ [tr], trA, by simpa using hsplit,
          List.rel_append (hB.imp fun _ _ h => h.mono hle) (.cons hon' .nil),
          hA.imp fun _ _ h => h.mono hle⟩
      have hlen : after.length + s.before.length + 1 = trs.length := by
        rw [hA.length_eq, hB.length_eq, ← hsplit]
        simp
        omega
      have hcount : Nat.count (Agree trs) q' = Nat.count (Agree trs) q := by
        obtain ⟨m, rfl⟩ := Nat.exists_eq_add_of_le hle
        rw [Nat.count_add, Nat.add_eq_left, Nat.count_iff_forall_not]
        exact fun p hp hag => hskip (q + p) (by omega) (by omega) (hag tr htr)
      unfold Chase.meet
      by_cases heq : q' = q
      · subst heq
        have hcond : ti'.pos = s.pos := by rw [hpos, h.pos]
        rw [if_pos hcond]
        have hdrop : (after ++ (s.before ++ [ti'])).drop (trs.length - (s.count + 1)) =
            (s.after ++ s.before).drop (trs.length - s.count) ++ [ti'] := by
          rw [ha, ← List.append_assoc, List.drop_append_of_le_length (by simp; omega)]
          obtain ⟨m, hm⟩ : ∃ m, trs.length - s.count = m + 1 :=
            ⟨trs.length - s.count - 1, by omega⟩
          rw [hm, show trs.length - (s.count + 1) = m by omega]
          rfl
        refine ⟨⟨htokens, h.pos, by omega, h.noccur, h.tscore, hc, ?_, ?_, h.records⟩, fun _ => rfl⟩
        · simp only [hdrop, List.mem_append, List.mem_singleton]
          rintro t (ht | rfl)
          · exact h.agree t ht
          · exact hpos
        · simp only [hdrop, List.map_append, List.sum_append, List.map_singleton,
            List.sum_singleton, h.score]
      · have hcond : ti'.pos ≠ s.pos := by
          rw [hpos, h.pos]
          omega
        rw [if_neg hcond]
        have hdrop : (after ++ (s.before ++ [ti'])).drop (trs.length - 1) = [ti'] := by
          rw [← List.append_assoc]
          exact List.drop_left' (by simp; omega)
        refine ⟨⟨htokens, hpos, by omega, by rw [hcount]; exact h.noccur, h.tscore, by simp; omega,
          ?_, ?_, h.records⟩, fun h => absurd h heq⟩
        · simpa only [hdrop, List.mem_singleton, forall_eq] using hpos
        · simp [hdrop]

/-- A token that leaves the document ends the chase, with every occurrence counted. -/
theorem Inv.ended (h : s.Inv trs r q) {ti ti' : TokenInfo} {after : List TokenInfo} {tr : Track}
    (ha : s.after = ti :: after) (hon : On q ti tr) (hfresh : ti'.Fresh tr.off tr.later)
    (hnone : ∀ p ≥ q, p + tr.off ∉ tr.hit.pos) :
    ({ s with before := s.before ++ [ti'], after := after } : Chase ρ).Ended trs r
      (tr.later.head?.map Hit.id) := by
  obtain ⟨trB, trA, hsplit, hB, hA⟩ := h.tokens
  rw [ha] at hA
  have hstill : ∀ {ti tr}, On q ti tr → Left ti tr := fun hon => by
    obtain ⟨-, a, as, hat, -, -⟩ := hon.stands
    exact .inl ⟨a, as, hat⟩
  cases hA with
  | @cons _ tr₀ _ trA hhead hA =>
      obtain rfl := hhead.unique hon
      have htr : tr₀ ∈ trs := by rw [← hsplit]; simp
      refine ⟨?_, ⟨q, h.noccur, fun p hp hag => hnone p hp (hag tr₀ htr)⟩, h.tscore,
        ⟨ti', by simp, tr₀, htr, hfresh, rfl⟩, h.records⟩
      rw [← hsplit]
      have hall := List.rel_append (hB.imp fun _ _ h => hstill h)
        (.cons (.inr hfresh) (hA.imp fun _ _ h => hstill h))
      simpa using hall

/-- **The chase of one document** terminates with every occurrence counted. -/
theorem Inv.run (hok : ∀ tr ∈ trs, tr.Ok d) (hne : trs ≠ []) (h : s.Inv trs r q)
    (hc : s.count < trs.length) :
    ∃ s' left, Settles (fun k => Chase.run R false w d trs.length k s) (s', left) ∧
      s'.Ended trs r left := by
  -- a visit either counts one more agreeing token or moves `pos` forward
  generalize hμ : (2 ^ 31 + 1 - q) * (trs.length + 1) + (trs.length - s.count) = μ
  induction μ using Nat.strong_induction_on generalizing s q with
  | _ μ ih =>
      obtain ⟨hturn, hcount, hafter⟩ := h.turn hne
      rw [← hcount] at hc hμ
      obtain ⟨ti, after, ha⟩ := List.exists_cons_of_ne_nil hafter
      obtain ⟨tr, htr, hon⟩ : ∃ tr ∈ trs, On q ti tr := by
        obtain ⟨trB, trA, hsplit, -, hA⟩ := hturn.tokens
        rw [ha] at hA
        cases hA with
        | @cons _ tr _ trA hhead hA => exact ⟨tr, by rw [← hsplit]; simp, hhead⟩
      have hround : ∀ k, Chase.run R false w d trs.length (k + 1) s =
          (ti.skipPos k d.rid d.sid (toU32 q)).bind fun x =>
            let s₁ : Chase ρ := { s.turn with before := s.turn.before ++ [x.2], after := after }
            if x.1 ≠ .success then some (s₁, none)
            else if x.2.p.hit.rid ≠ d.rid ∨ x.2.p.hit.sid ≠ d.sid then some (s₁, some x.2.doc)
            else Chase.run R false w d trs.length k
              ((s₁.meet x.2).report R false w d trs.length) := by
        intro k
        simp only [Chase.run, ha, hturn.pos]
      rcases hon.skipPos (hok tr htr) hturn.pos_le with
        ⟨ti', q', hskip, hon', hpos', hle, hq', hgap⟩ | ⟨hnone, rc, ti', hskip, hfresh, hrc⟩
      · obtain ⟨hrid, hsid⟩ := hon'.doc (hok tr htr)
        obtain ⟨hmeet, hmeet_count⟩ := hturn.meet hc ha hpos' hle hq'
          fun tr' _ hon'' => (hon.unique hon'') ▸ ⟨hon', hgap⟩
        obtain ⟨q'', hinv, hlt, hle', hsame⟩ := hmeet.report (R := R) (w := w) (d := d) hne hq'
        have hdec : (2 ^ 31 + 1 - q'') * (trs.length + 1) + (trs.length -
            ((({ s.turn with before := s.turn.before ++ [ti'], after := after } : Chase ρ).meet
              ti').report R false w d trs.length).count) < μ := by
          rw [← hμ]
          rcases Nat.eq_or_lt_of_le (le_trans hle hle') with heq | hlt'
          · have h₁ : q' = q := by omega
            rw [hsame (by omega), hmeet_count h₁, heq]
            omega
          · have hbound := hinv.pos_le
            have : (2 ^ 31 + 1 - q'') + 1 ≤ 2 ^ 31 + 1 - q := by omega
            have hmul := Nat.mul_le_mul_right (trs.length + 1) this
            rw [Nat.add_mul] at hmul
            omega
        obtain ⟨s', left, hrun, hended⟩ := ih _ hdec hinv hlt rfl
        refine ⟨s', left, .succ hround (hskip.bind ?_), hended⟩
        simpa [hrid, hsid] using hrun
      · have hended := hturn.ended ha hon hfresh hnone
        cases hl : tr.later with
        | nil =>
            have hfail : rc ≠ .success := fun heq => hrc.mp heq hl
            rw [hl] at hended
            refine ⟨_, none, .succ hround (hskip.bind ?_), hended⟩
            simpa [hfail] using Settles.pure _
        | cons h hs =>
            have hsucc : rc = .success := hrc.mpr (by simp [hl])
            rw [hl] at hended hfresh
            obtain ⟨a, as, -, hat⟩ :=
              hfresh.exists_at ((hok tr htr).later_pos h (by simp [hl]))
            have hdoc : ti'.p.hit = h := by rw [hat.p]
            have hleft : h.rid ≠ d.rid ∨ h.sid ≠ d.sid := by
              have hlt := (hok tr htr).later_gt h (by simp [hl])
              rw [DocId.lt_def] at hlt
              simp only [Hit.id] at hlt
              omega
            refine ⟨_, some h.id, .succ hround (hskip.bind ?_), hended⟩
            simp only [hsucc, ne_eq, not_true_eq_false, if_false, hdoc, hleft, if_true, hat.doc]
            exact Settles.pure _

end Chase

end Senna.Index
