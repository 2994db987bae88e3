/-
# Near search is exact

A document is found when every token has a position there such that no two of them are
further apart than `max_interval`. Each token stands at a position that none of these can be
before, unless such positions have been found already; so moving the token that is furthest
behind to where it could be close to the foremost one loses nothing.
-/

import Senna.Index.Exact
import Senna.Index.Near

namespace Senna.Index

open Senna.Inv Senna.Lib TokenInfo

universe u

variable {ρ : Type u}

/-- Every token has a position, counted from its offset, in the document, and no two of these
are further apart than `maxInterval`. -/
def NearOccurs (ts : List TokenStream) (maxInterval : Int) (d : DocId) : Prop :=
  ∃ p : Nat → Nat, (∀ i t, ts[i]? = some t → ∃ h, find t.hits d = some h ∧ p i + t.offset ∈ h.pos) ∧
    ∀ i < ts.length, ∀ j < ts.length, (p i : Int) ≤ p j + maxInterval

/-- The document is to be found. A single token is found wherever it occurs, unless its
positions are asked for. -/
def NearFound (ts : List TokenStream) (rep : Bool) (maxInterval : Int) (d : DocId) : Prop :=
  match ts, rep with
  | [t], false => find t.hits d ≠ none
  | _, _ => NearOccurs ts maxInterval d

theorem inAll_nearFound (ts : List TokenStream) (rep : Bool) (maxInterval : Int) :
    InAll (NearFound ts rep maxInterval) ts := by
  have hoccurs : ∀ d, NearOccurs ts maxInterval d → ∀ t ∈ ts, find t.hits d ≠ none := by
    rintro d ⟨p, hp, -⟩ t ht
    obtain ⟨i, hi⟩ := List.mem_iff_getElem?.mp ht
    obtain ⟨h, hfind, -⟩ := hp i t hi
    simp [hfind]
  intro d hd
  unfold NearFound at hd
  split at hd
  · simpa using hd
  · exact hoccurs d hd

/-- What is added for a document that is found: something, and nothing about any other. -/
structure Adds (d : DocId) (l : List (PosInfo × Nat)) : Prop where
  ne_nil : l ≠ []
  doc : ∀ e ∈ l, e.1.rid = d.rid ∧ e.1.sid = d.sid

/-- Everything that is added for a document. -/
def Records.addAll (R : Records ρ) (r : ρ) (m : DocId × List (PosInfo × Nat)) : ρ :=
  m.2.foldl (fun r e => R.add r e.1 e.2) r

section Document

variable {R : Records ρ} {rep : Bool} {w : Int} {d : DocId} {maxInterval : Int}
  {tis : List TokenInfo} {trs : List Track} {r : ρ} {s : Near ρ} {c p : Nat → Nat} {i j : Nat}
  {ti : TokenInfo} {tr : Track}

/-- Positions of all tokens that are close enough to each other. -/
structure Close (trs : List Track) (maxInterval : Int) (p : Nat → Nat) : Prop where
  mem : ∀ i tr, trs[i]? = some tr → p i + tr.off ∈ tr.hit.pos
  near : ∀ i < trs.length, ∀ j < trs.length, (p i : Int) ≤ p j + maxInterval

theorem exists_close_iff {ts : List TokenStream} (hcut : List.Forall₂ (Cut d) ts trs) :
    (∃ p, Close trs maxInterval p) ↔ NearOccurs ts maxInterval d := by
  have hlen := hcut.length_eq
  have hat : ∀ (i : Nat) (t : TokenStream) (tr : Track), ts[i]? = some t → trs[i]? = some tr →
      Cut d t tr := by
    intro i t tr ht htr
    obtain ⟨hi, rfl⟩ := List.getElem?_eq_some_iff.mp ht
    obtain ⟨hj, rfl⟩ := List.getElem?_eq_some_iff.mp htr
    exact (List.forall₂_iff_get.mp hcut).2 i hi hj
  constructor
  · rintro ⟨p, hmem, hnear⟩
    refine ⟨p, fun i t ht => ?_, by rwa [hlen]⟩
    obtain ⟨hi, -⟩ := List.getElem?_eq_some_iff.mp ht
    have htr := List.getElem?_eq_getElem (l := trs) (hlen ▸ hi)
    have hc := hat i t _ ht htr
    exact ⟨_, hc.find, hc.off ▸ hmem i _ htr⟩
  · rintro ⟨p, hmem, hnear⟩
    refine ⟨p, fun i tr htr => ?_, by rwa [← hlen]⟩
    obtain ⟨hi, -⟩ := List.getElem?_eq_some_iff.mp htr
    have ht := List.getElem?_eq_getElem (l := ts) (hlen ▸ hi)
    have hc := hat i _ tr ht htr
    obtain ⟨h, hfind, hin⟩ := hmem i _ ht
    obtain rfl : tr.hit = h := Option.some.inj (hc.find.symm.trans hfind)
    rwa [hc.off]

/-- Every token and its track are in the relation `Q`. -/
structure Each (Q : Nat → TokenInfo → Track → Prop) (tis : List TokenInfo) (trs : List Track) :
    Prop where
  length : tis.length = trs.length
  each : ∀ i ti tr, tis[i]? = some ti → trs[i]? = some tr → Q i ti tr

theorem Each.forall₂ {Q : TokenInfo → Track → Prop} (h : Each (fun _ => Q) tis trs) :
    List.Forall₂ Q tis trs := by
  refine List.forall₂_iff_get.mpr ⟨h.length, fun i hi hj => ?_⟩
  exact h.each i _ _ (List.getElem?_eq_getElem hi) (List.getElem?_eq_getElem hj)

theorem Each.of_forall₂ {Q : TokenInfo → Track → Prop} (h : List.Forall₂ Q tis trs) :
    Each (fun _ => Q) tis trs := by
  refine ⟨h.length_eq, fun i ti tr hti htr => ?_⟩
  obtain ⟨hi, rfl⟩ := List.getElem?_eq_some_iff.mp hti
  obtain ⟨hj, rfl⟩ := List.getElem?_eq_some_iff.mp htr
  exact (List.forall₂_iff_get.mp h).2 i hi hj

theorem Each.imp {Q Q' : Nat → TokenInfo → Track → Prop} (h : Each Q tis trs)
    (hQ : ∀ i ti tr, trs[i]? = some tr → Q i ti tr → Q' i ti tr) : Each Q' tis trs :=
  ⟨h.length, fun i ti tr hti htr => hQ i ti tr htr (h.each i ti tr hti htr)⟩

/-- One token is moved. -/
theorem Each.set {Q Q' : Nat → TokenInfo → Track → Prop} (h : Each Q tis trs)
    (htr : trs[i]? = some tr) (hti : Q' i ti tr)
    (hQ : ∀ j ti tr, j ≠ i → trs[j]? = some tr → Q j ti tr → Q' j ti tr) :
    Each Q' (tis.set i ti) trs := by
  refine ⟨by rw [List.length_set, h.length], fun j tj tr' htj htr' => ?_⟩
  by_cases hji : j = i
  · subst hji
    obtain rfl : tr = tr' := Option.some.inj (htr.symm.trans htr')
    obtain ⟨hj, -⟩ := List.getElem?_eq_some_iff.mp htj
    rw [List.length_set] at hj
    rw [List.getElem?_set_self hj] at htj
    obtain rfl := Option.some.inj htj
    exact hti
  · rw [List.getElem?_set_ne (Ne.symm hji)] at htj
    exact hQ j tj tr' hji htr' (h.each j tj tr' htj htr')

theorem Each.exists (h : Each Q tis trs) (hi : i < trs.length) :
    ∃ ti tr, tis[i]? = some ti ∧ trs[i]? = some tr ∧ Q i ti tr := by
  have hti := List.getElem?_eq_getElem (l := tis) (h.length ▸ hi)
  have htr := List.getElem?_eq_getElem hi
  exact ⟨_, _, hti, htr, h.each i _ _ hti htr⟩

/-- The token stands at a position of the document, and has passed none that is not before. -/
structure Stands (ti : TokenInfo) (tr : Track) : Prop where
  on : On ti.pos.toNat ti tr
  nonneg : 0 ≤ ti.pos
  lt : ti.pos < 2 ^ 31

theorem On.left {q : Nat} (h : On q ti tr) : Left ti tr := by
  obtain ⟨-, a, as, hat, -, -⟩ := h.stands
  exact .inl ⟨a, as, hat⟩

/-- The token has left the document, for the one it has moved to if there is any. -/
def Leaves (left : Option DocId) (ti : TokenInfo) (tr : Track) : Prop :=
  ti.Fresh tr.off tr.later ∧ tr.later.head?.map Hit.id = left

/-- **`SKIP_OR_BREAK`** moves a token to its first position from `t` on; if it has none, it
leaves the document. -/
theorem skipOrBreak_spec (hti : tis[i]? = some ti) (hok : tr.Ok d) {q : Nat} (hon : On q ti tr)
    {t : Nat} (hqt : q ≤ t) (ht : t ≤ 2 ^ 31) :
    (∃ ti', Settles (fun k => skipOrBreak k d t i tis) (tis.set i ti', .stays) ∧ Stands ti' tr ∧
      t ≤ ti'.pos ∧ ∀ x : Nat, t ≤ x → (x : Int) < ti'.pos → x + tr.off ∉ tr.hit.pos) ∨
    ((∀ x ≥ t, x + tr.off ∉ tr.hit.pos) ∧
      ∃ ti' left, Settles (fun k => skipOrBreak k d t i tis) (tis.set i ti', .leaves left) ∧
        Leaves left ti' tr) := by
  have hrun : ∀ k, skipOrBreak k d t i tis = (ti.skipPos k d.rid d.sid (toU32 t)).map
      fun r => (tis.set i r.2, skipped d r.1 r.2) := by
    intro k
    rw [skipOrBreak, hti, Option.bind_some]
  rcases (hon.mono hqt).skipPos hok ht with
    ⟨ti', q', hskip, hon', hpos, hle, hlt, hgap⟩ | ⟨hnone, rc, ti', hskip, hfresh, hrc⟩
  · have hstays : skipped d .success ti' = .stays := by
      obtain ⟨hrid, hsid⟩ := hon'.doc hok
      simp [skipped, hrid, hsid]
    refine .inl ⟨ti', .congr hrun ?_, ⟨by rwa [hpos, Int.toNat_natCast], by omega, by omega⟩,
      by omega, fun x hx hlt => hgap x hx (by omega)⟩
    rw [← hstays]
    exact hskip.map _
  · have hleaves : skipped d rc ti' = .leaves (tr.later.head?.map Hit.id) := by
      cases hl : tr.later with
      | nil => simp [skipped, show rc ≠ .success from fun heq => hrc.mp heq hl]
      | cons h hs =>
          rw [hl] at hfresh
          obtain ⟨a, as, -, hat⟩ := hfresh.exists_at (hok.later_pos h (by simp [hl]))
          have hhit : ti'.p.hit = h := by rw [hat.p]
          have hleft : h.rid ≠ d.rid ∨ h.sid ≠ d.sid := by
            have hlt := hok.later_gt h (by simp [hl])
            rw [DocId.lt_def] at hlt
            simp only [Hit.id] at hlt
            omega
          rw [skipped, if_neg (by simp [hrc, hl]), hhit, if_pos hleft, hat.doc]
          rfl
    refine .inr ⟨hnone, ti', tr.later.head?.map Hit.id, .congr hrun ?_, hfresh, rfl⟩
    rw [← hleaves]
    exact hskip.map _

/-- The token stands at its first position. -/
def AtFirst (ti : TokenInfo) (tr : Track) : Prop :=
  Stands ti tr ∧ ∀ x : Nat, (x : Int) < ti.pos → x + tr.off ∉ tr.hit.pos

/-- Which tokens have been moved to their first position. -/
def FirstIn (done : List Nat) (i : Nat) (ti : TokenInfo) (tr : Track) : Prop :=
  (i ∈ done → AtFirst ti tr) ∧ (i ∉ done → On 0 ti tr)

theorem FirstIn.left {done : List Nat} (h : FirstIn done i ti tr) : Left ti tr := by
  by_cases hi : i ∈ done
  · exact (h.1 hi).1.on.left
  · exact (h.2 hi).left

/-- How a walk through the document ends: some token has left it. -/
structure Over (trs : List Track) (tis : List TokenInfo) (left : Option DocId) : Prop where
  tokens : Each (fun _ => Left) tis trs
  leaves : ∃ ti ∈ tis, ∃ tr ∈ trs, Leaves left ti tr

theorem Over.of_set {Q : Nat → TokenInfo → Track → Prop} {left : Option DocId} (h : Each Q tis trs)
    (hQ : ∀ i ti tr, trs[i]? = some tr → Q i ti tr → Left ti tr) (htr : trs[i]? = some tr)
    (hleft : Leaves left ti tr) : Over trs (tis.set i ti) left := by
  have hi : i < tis.length := by
    rw [h.length]
    exact (List.getElem?_eq_some_iff.mp htr).1
  refine ⟨h.set htr (.inr hleft.1) fun j tj tr' _ => hQ j tj tr', ti, ?_, tr,
    List.mem_of_getElem? htr, hleft⟩
  exact List.mem_of_getElem? (List.getElem?_set_self hi)

theorem pushAll_spec (maxInterval : Int) (hok : ∀ tr ∈ trs, tr.Ok d) {is done : List Nat}
    (his : ∀ i ∈ is, i < trs.length) (hnodup : (is ++ done).Nodup)
    (h : Each (FirstIn done) tis trs) (bt : Btr) :
    (∃ tis' bt', Settles (fun k => pushAll k d is tis bt) (tis', bt', .stays) ∧
      Each (FirstIn (is.reverse ++ done)) tis' trs) ∨
    ∃ tis' bt' left, Settles (fun k => pushAll k d is tis bt) (tis', bt', .leaves left) ∧
      Over trs tis' left ∧ ∀ p, ¬ Close trs maxInterval p := by
  induction is generalizing done tis bt with
  | nil => exact .inl ⟨tis, bt, .pure _, h⟩
  | cons i is ih =>
      rw [List.forall_mem_cons] at his
      have hi : i ∉ done := fun hmem =>
        (List.nodup_cons.mp hnodup).1 (List.mem_append_right _ hmem)
      obtain ⟨ti, tr, hti, htr, hQ⟩ := h.exists his.1
      rcases skipOrBreak_spec hti (hok tr (List.mem_of_getElem? htr)) (hQ.2 hi) le_rfl
          (Nat.zero_le _) with ⟨ti', hskip, hstands, -, hgap⟩ | ⟨hnone, ti', left, hskip, hleft⟩
      · have hfirst : AtFirst ti' tr := ⟨hstands, fun x hx => hgap x (Nat.zero_le x) hx⟩
        have h' : Each (FirstIn (i :: done)) (tis.set i ti') trs := by
          refine h.set htr ⟨fun _ => hfirst, fun hnot => absurd List.mem_cons_self hnot⟩ ?_
          intro j tj tr' hji _ hj
          refine ⟨fun hmem => hj.1 ((List.mem_cons.mp hmem).resolve_left hji), fun hmem => hj.2 ?_⟩
          exact fun hin => hmem (List.mem_cons_of_mem _ hin)
        rcases ih his.2 (List.nodup_middle.mpr hnodup) h' (bt.push (tis.set i ti') i) with
          ⟨tis', bt', hrun, heach⟩ | ⟨tis', bt', left, hrun, hover⟩
        · exact .inl ⟨tis', bt', hskip.bind hrun, by simpa using heach⟩
        · exact .inr ⟨tis', bt', left, hskip.bind hrun, hover⟩
      · refine .inr ⟨tis.set i ti', bt, left, hskip.bind (.pure _),
          .of_set h (fun _ _ _ _ hj => hj.left) htr hleft, fun p hp => ?_⟩
        exact hnone (p i) (Nat.zero_le _) (hp.mem i tr htr)

/-- While the walk goes on: unless positions that are close enough have been found, there are
none with a token before the position where it stands. -/
structure Near.Inv (R : Records ρ) (rep : Bool) (d : DocId) (maxInterval : Int) (trs : List Track)
    (r : ρ) (s : Near ρ) : Prop where
  tokens : Each (fun _ => Stands) s.tis trs
  filled : Near.Filled (List.range trs.length).reverse s.tis s.bt
  lower : s.noccur = 0 → ∀ p, Close trs maxInterval p →
    ∀ i < trs.length, posAt s.tis i ≤ p i
  found : s.noccur ≠ 0 → ∃ p, Close trs maxInterval p
  added : ∃ l : List (PosInfo × Nat), s.records = R.addAll r (d, l) ∧
    (∀ e ∈ l, e.1.rid = d.rid ∧ e.1.sid = d.sid) ∧ (l = [] ↔ rep = false ∨ s.noccur = 0)

/-- When the walk is over: something has been counted exactly if there is something. -/
structure Near.Ended (R : Records ρ) (rep : Bool) (d : DocId) (maxInterval : Int)
    (trs : List Track) (r : ρ) (s : Near ρ) (left : Option DocId) : Prop where
  walk : Over trs s.tis left
  found : s.noccur ≠ 0 ↔ ∃ p, Close trs maxInterval p
  added : ∃ l : List (PosInfo × Nat), s.records = R.addAll r (d, l) ∧
    (∀ e ∈ l, e.1.rid = d.rid ∧ e.1.sid = d.sid) ∧ (l = [] ↔ rep = false ∨ s.noccur = 0)

namespace Near

theorem posAt_eq (hti : tis[i]? = some ti) : posAt tis i = ti.pos := by
  rw [posAt, hti]
  rfl

/-- What lies before the tokens. -/
def remaining (n : Nat) (s : Near ρ) : Nat :=
  ∑ i ∈ Finset.range n, (2 ^ 31 - posAt s.tis i).toNat

/-- The first token of the tree is moved on to the position `t`, or leaves the document. -/
theorem advance_spec (hok : ∀ tr ∈ trs, tr.Ok d) (hs : Each (fun _ => Stands) s.tis trs)
    (hi : i < trs.length) {t : Nat} (hit : posAt s.tis i < t) (ht : t ≤ 2 ^ 31) :
    ∃ ti' tr, trs[i]? = some tr ∧
      ((Settles (fun k => s.advance k d i t)
          ({ s with tis := s.tis.set i ti', bt := s.bt.pop (s.tis.set i ti') }, .stays) ∧
        Each (fun _ => Stands) (s.tis.set i ti') trs ∧ t ≤ ti'.pos ∧ posAt (s.tis.set i ti') i =
            ti'.pos ∧
        ∀ x : Nat, t ≤ x → (x : Int) < ti'.pos → x + tr.off ∉ tr.hit.pos) ∨
      ((∀ x ≥ t, x + tr.off ∉ tr.hit.pos) ∧ ∃ left, Settles (fun k => s.advance k d i t)
          ({ s with tis := s.tis.set i ti' }, .leaves left) ∧
              Over trs (s.tis.set i ti') left)) := by
  obtain ⟨ti, tr, hti, htr, hstands⟩ := hs.exists hi
  rw [posAt_eq hti] at hit
  have hnonneg := hstands.nonneg
  rcases skipOrBreak_spec hti (hok tr (List.mem_of_getElem? htr)) hstands.on (by omega) ht with
    ⟨ti', hskip, hstands', hle, hgap⟩ | ⟨hnone, ti', left, hskip, hleft⟩
  · have hlt : i < s.tis.length := by rwa [hs.length]
    exact ⟨ti', tr, htr, .inl ⟨hskip.map _, hs.set htr hstands' fun _ _ _ _ _ h => h, hle,
      posAt_eq (List.getElem?_set_self hlt), hgap⟩⟩
  · exact ⟨ti', tr, htr, .inr ⟨hnone, left, hskip.map _,
      .of_set hs (fun _ _ _ _ hj => hj.on.left) htr hleft⟩⟩

theorem remaining_lt {n : Nat} {ti : TokenInfo} (hi : i < n) (hlt : posAt s.tis i < 2 ^ 31)
    (hmove : posAt s.tis i < posAt (s.tis.set i ti) i) (s' : Near ρ)
    (htis : s'.tis = s.tis.set i ti) : s'.remaining n < s.remaining n := by
  apply Finset.sum_lt_sum
  · intro j _
    by_cases hji : j = i
    · subst hji
      rw [htis]
      omega
    · rw [htis, posAt_set_of_ne ti hji]
  · refine ⟨i, Finset.mem_range.mpr hi, ?_⟩
    rw [htis]
    omega

/-- The positions of the tokens themselves, when they are close enough. -/
theorem close_posAt (hs : Each (fun _ => Stands) s.tis trs) {min max : Int}
    (hmin : ∀ t < trs.length, min ≤ posAt s.tis t) (hmax : ∀ t < trs.length, posAt s.tis t ≤ max)
    (hclose : max - min ≤ maxInterval) : Close trs maxInterval fun t => (posAt s.tis t).toNat := by
  have hnonneg : ∀ t < trs.length, 0 ≤ posAt s.tis t := by
    intro t ht
    obtain ⟨ti, tr, hti, -, hst⟩ := hs.exists ht
    rw [posAt_eq hti]
    exact hst.nonneg
  refine ⟨fun t tr htr => ?_, fun t ht u hu => ?_⟩
  · obtain ⟨ht, -⟩ := List.getElem?_eq_some_iff.mp htr
    obtain ⟨ti, tr', hti, htr', hst⟩ := hs.exists ht
    obtain rfl : tr = tr' := Option.some.inj (htr.symm.trans htr')
    rw [posAt_eq hti]
    exact hst.on.mem (Int.toNat_of_nonneg hst.nonneg).symm
  · rw [Int.toNat_of_nonneg (hnonneg t ht), Int.toNat_of_nonneg (hnonneg u hu)]
    have := hmin u hu
    have := hmax t ht
    omega

/-- **A round** moves the token that is furthest behind forward, or ends the walk. -/
theorem Inv.round (h : s.Inv R rep d maxInterval trs r) (hok : ∀ tr ∈ trs, tr.Ok d)
    (hne : trs ≠ []) (hint : 0 ≤ maxInterval) :
    (∃ s', Settles (fun k => s.round R rep w d maxInterval k) (s', .stays) ∧
      s'.Inv R rep d maxInterval trs r ∧ s'.remaining trs.length < s.remaining trs.length) ∨
    ∃ s' left, Settles (fun k => s.round R rep w d maxInterval k) (s', .leaves left) ∧
      s'.Ended R rep d maxInterval trs r left := by
  obtain ⟨i, j, hmin, hmax, hi, hj, hends⟩ := h.filled.extreme (List.length_pos_of_ne_nil hne)
  have hstands : ∀ t < trs.length, 0 ≤ posAt s.tis t ∧ posAt s.tis t < 2 ^ 31 := by
    intro t ht
    obtain ⟨ti, tr, hti, -, hst⟩ := h.tokens.exists ht
    rw [posAt_eq hti]
    exact ⟨hst.nonneg, hst.lt⟩
  have hle : posAt s.tis i ≤ posAt s.tis j := (hends i hi).2
  have hpos : ¬ posAt s.tis i > posAt s.tis j := by omega
  have hnodup : (List.range trs.length).reverse.Nodup := List.nodup_reverse.mpr List.nodup_range
  by_cases hclose : posAt s.tis j - posAt s.tis i ≤ maxInterval
  · -- the tokens are close enough, and the first one is moved behind the last one
    set s₁ := s.report R rep w d (posAt s.tis i) with hs₁
    have hfound : ∃ p, Close trs maxInterval p :=
      ⟨_, close_posAt h.tokens (fun t ht => (hends t ht).1) (fun t ht => (hends t ht).2) hclose⟩
    have hadded : ∃ l : List (PosInfo × Nat), s₁.records = R.addAll r (d, l) ∧
        (∀ e ∈ l, e.1.rid = d.rid ∧ e.1.sid = d.sid) ∧ (l = [] ↔ rep = false ∨ s₁.noccur = 0) := by
      obtain ⟨l, hl, hdoc, hnil⟩ := h.added
      cases rep with
      | false => exact ⟨l, by simpa [hs₁, report] using hl, hdoc, by simpa using hnil⟩
      | true =>
          refine ⟨l ++ [(⟨d.rid, d.sid, toU32 (posAt s.tis i)⟩, toU32 w)], ?_, ?_, ?_⟩
          · simp [hs₁, report, hl, Records.addAll]
          · intro e he
            rcases List.mem_append.mp he with he | he
            · exact hdoc e he
            · rw [List.mem_singleton.mp he]
              exact ⟨rfl, rfl⟩
          · simp [hs₁, report]
    have hrun : ∀ k, s.round R rep w d maxInterval k =
        s₁.advance k d i (((posAt s.tis j).toNat + 1 : Nat) : Int) := by
      intro k
      have htarget : (((posAt s.tis j).toNat + 1 : Nat) : Int) = posAt s.tis j + 1 := by
        have := (hstands j hj).1
        omega
      rw [htarget, Near.round, hmin, hmax]
      simp only [if_neg hpos, if_pos hclose]
      rw [if_neg (by omega)]
    have htis : s₁.tis = s.tis := rfl
    have hbt : s₁.bt = s.bt := rfl
    have hnoccur : s₁.noccur ≠ 0 := Nat.succ_ne_zero _
    obtain ⟨ti', tr, htr, ⟨hadv, heach, hge, hti', -⟩ | ⟨-, left, hadv, hover⟩⟩ :=
      advance_spec (s := s₁) hok (htis ▸ h.tokens) hi (t := (posAt s.tis j).toNat + 1)
        (by rw [htis]; have := (hstands j hj).1; omega) (by have := (hstands j hj).2; omega)
    · refine .inl ⟨_, .congr hrun hadv, ⟨heach, h.filled.pop hnodup hmin ti',
        fun h0 => absurd h0 hnoccur, fun _ => hfound, hadded⟩, ?_⟩
      refine remaining_lt hi (hstands i hi).2 ?_ _ rfl
      rw [← htis, hti', htis]
      omega
    · exact .inr ⟨_, left, .congr hrun hadv,
        ⟨hover, iff_of_true hnoccur hfound, hadded⟩⟩
  · -- positions close enough to the last token's can only be from `max - max_interval` on
    have hlow : s.noccur = 0 → ∀ p, Close trs maxInterval p →
        posAt s.tis j - maxInterval ≤ p i := by
      intro h0 p hp
      have h₁ := h.lower h0 p hp j hj
      have h₂ := hp.near j hj i hi
      omega
    have hrun : ∀ k, s.round R rep w d maxInterval k =
        s.advance k d i (((posAt s.tis j - maxInterval).toNat : Nat) : Int) := by
      intro k
      have htarget : (((posAt s.tis j - maxInterval).toNat : Nat) : Int) =
          posAt s.tis j - maxInterval := by
        have := (hstands i hi).1
        omega
      rw [htarget, Near.round, hmin, hmax]
      simp only [if_neg hpos, if_neg hclose]
      rw [if_neg (by omega)]
    obtain ⟨ti', tr, htr, ⟨hadv, heach, hge, hti', hgap⟩ | ⟨hnone, left, hadv, hover⟩⟩ :=
      advance_spec (s := s) hok h.tokens hi (t := (posAt s.tis j - maxInterval).toNat)
        (by have := (hstands i hi).1; omega) (by have := (hstands j hj).2; omega)
    · refine .inl ⟨_, .congr hrun hadv, ⟨heach, h.filled.pop hnodup hmin ti', ?_, h.found,
        h.added⟩, ?_⟩
      · intro h0 p hp t ht
        by_cases hti : t = i
        · subst hti
          rw [hti']
          by_contra hlt
          have hp_ge := hlow h0 p hp
          exact hgap (p t) (by omega) (by omega) (hp.mem t tr htr)
        · rw [posAt_set_of_ne ti' hti]
          exact h.lower h0 p hp t ht
      · refine remaining_lt hi (hstands i hi).2 ?_ _ rfl
        have := (hstands i hi).1
        omega
    · refine .inr ⟨_, left, .congr hrun hadv, ⟨hover, ⟨h.found, ?_⟩, h.added⟩⟩
      rintro ⟨p, hp⟩ h0
      have hp_ge := hlow h0 p hp
      exact hnone (p i) (by omega) (hp.mem i tr htr)

/-- **The walk through a document** terminates, and has counted something exactly if there is
something. -/
theorem Inv.run (h : s.Inv R rep d maxInterval trs r) (hok : ∀ tr ∈ trs, tr.Ok d)
    (hne : trs ≠ []) (hint : 0 ≤ maxInterval) :
    ∃ s' left, Settles (fun k => run R rep w d maxInterval k s) (s', left) ∧
      s'.Ended R rep d maxInterval trs r left := by
  generalize hμ : s.remaining trs.length = μ
  induction μ using Nat.strong_induction_on generalizing s with
  | _ μ ih =>
      rcases h.round (w := w) hok hne hint with
        ⟨s', hround, hinv, hlt⟩ | ⟨s', left, hround, hended⟩
      · obtain ⟨s'', left, hrun, hended⟩ := ih _ (hμ ▸ hlt) hinv rfl
        exact ⟨s'', left, .succ (fun _ => rfl) (hround.bind hrun), hended⟩
      · exact ⟨s', left, .succ (fun _ => rfl) (hround.bind (.pure _)), hended⟩

/-- **The near branch** finds positions that are close enough exactly if there are any. -/
theorem branch_spec (R : Records ρ) (rep : Bool) (w : Int) (hok : ∀ tr ∈ trs, tr.Ok d)
    (hne : trs ≠ [])
    (hstart : List.Forall₂ AtStart tis trs) (hint : 0 ≤ maxInterval) (r : ρ) :
    ∃ s left, Settles (fun k => branch R rep w d maxInterval k tis r) (s, left) ∧
      s.Ended R rep d maxInterval trs r left := by
  have hlen := hstart.length_eq
  have hfirst : Each (FirstIn []) tis trs := by
    refine (Each.of_forall₂ hstart).imp fun i ti tr htr h => ⟨by simp, fun _ => ?_⟩
    exact AtStart.left h (hok tr (List.mem_of_getElem? htr))
  have hnothing : ∃ l : List (PosInfo × Nat), r = R.addAll r (d, l) ∧
      (∀ e ∈ l, e.1.rid = d.rid ∧ e.1.sid = d.sid) ∧ (l = [] ↔ rep = false ∨ (0 : Nat) = 0) :=
    ⟨[], rfl, by simp, by simp⟩
  rcases pushAll_spec maxInterval hok
      (fun i (hi : i ∈ List.range tis.length) => hlen ▸ List.mem_range.mp hi)
          (by simpa using List.nodup_range) hfirst .zap with
    ⟨tis', bt', hpush, heach⟩ | ⟨tis', bt', left, hpush, hover, hnone⟩
  · have hall : Each (fun _ => AtFirst) tis' trs := by
      refine heach.imp fun i ti tr htr h => h.1 ?_
      simpa [hlen] using (List.getElem?_eq_some_iff.mp htr).1
    have hfilled : Filled (List.range tis.length).reverse tis' bt' := by
      obtain ⟨k, hk⟩ := hpush
      obtain ⟨hfilled, -⟩ := pushAll_filled
        (show Filled [] _ _ from ⟨SearchTree.Ends.ok_empty _, .refl _⟩)
            (by simpa using List.nodup_range) (hk k le_rfl)
      simpa using hfilled
    have hinv : Inv R rep d maxInterval trs r (⟨tis', bt', 0, r⟩ : Near ρ) := by
      refine ⟨hall.imp fun _ _ _ _ h => h.1, by simpa [hlen] using hfilled, ?_,
        fun h => absurd rfl h, hnothing⟩
      intro _ p hp i hi
      obtain ⟨ti, tr, hti, htr, -, hgap⟩ := hall.exists hi
      rw [posAt_eq hti]
      by_contra hlt
      exact hgap (p i) (by omega) (hp.mem i tr htr)
    obtain ⟨s, left, hrun, hended⟩ := hinv.run (w := w) hok hne hint
    exact ⟨s, left, hpush.bind hrun, hended⟩
  · exact ⟨_, left, hpush.bind (.pure _), hover, iff_of_false (by simp)
      (fun ⟨p, hp⟩ => hnone p hp), hnothing⟩

end Near

/-- The arguments of a near search with operator `or` that counts every section. -/
structure SelectArg.Near (arg : SelectArg) : Prop where
  orp : arg.orp = true
  weight_ne : ∀ rid sid, arg.weight rid sid ≠ 0

variable {arg : SelectArg} {ts : List TokenStream}

/-- Documents are walked through, except for a single token whose positions do not matter. -/
theorem nearDoc_walk (harg : arg.Near) (hmany : ¬ (tis.length = 1 ∧ arg.rep = false)) (k : Nat)
    (r : ρ) : nearDoc R arg maxInterval d k tis r =
      (Near.branch R arg.rep (arg.weight d.rid d.sid) d maxInterval k tis r).map fun (s, left) =>
        (s.tis, if s.noccur ≠ 0 ∧ !arg.rep then
          R.add s.records ⟨d.rid, d.sid, 0⟩ (toU32 (s.noccur * arg.weight d.rid d.sid))
          else s.records, nextDoc d left) := by
  unfold nearDoc
  simp only [ne_eq, harg.weight_ne d.rid d.sid, not_false_eq_true, harg.orp, true_or, and_self,
    if_true]
  split
  · next ti hrep => exact absurd ⟨rfl, hrep⟩ hmany
  · rfl

theorem nearFound_iff (hmany : ¬ (ts.length = 1 ∧ rep = false)) :
    NearFound ts rep maxInterval d ↔ NearOccurs ts maxInterval d := by
  unfold NearFound
  split
  · exact absurd ⟨rfl, rfl⟩ hmany
  · exact Iff.rfl

/-- Every document is dealt with. -/
theorem nearDoc_ok (harg : arg.Near) (hint : 0 ≤ maxInterval) (hne : ts ≠ [])
    (hok : ∀ t ∈ ts, t.Ok) :
    StepOk (nearDoc R arg maxInterval) R.addAll (NearFound ts arg.rep maxInterval)
      (fun d l => Adds d l ∧ NearFound ts arg.rep maxInterval d)
      (ts.length = 1 ∧ arg.rep = false) ts := by
  intro d trs tis r hcut hstart
  have htrs : ∀ tr ∈ trs, tr.Ok d := by
    intro tr htr
    obtain ⟨i, hi, rfl⟩ := List.getElem_of_mem htr
    have hi' : i < ts.length := hcut.length_eq ▸ hi
    exact ((List.forall₂_iff_get.mp hcut).2 i hi' hi).ok (hok _ (List.get_mem _ _))
  by_cases hone : ts.length = 1 ∧ arg.rep = false
  · obtain ⟨hlen, hrep⟩ := hone
    obtain ⟨t, rfl⟩ := List.length_eq_one_iff.mp hlen
    cases hcut with
    | @cons _ tr _ _ hcut htail =>
        cases htail
        cases hstart with
        | @cons ti _ _ _ hti htail =>
            cases htail
            have htr := htrs tr List.mem_cons_self
            obtain ⟨a, as, -, hat⟩ := TokenInfo.Fresh.exists_at hti htr.pos.ne_nil
            have htf : tr.hit.tf ≠ 0 := by simpa [Hit.tf] using htr.pos.ne_nil
            have hw := harg.weight_ne d.rid d.sid
            have hfound : NearFound [t] arg.rep maxInterval d := by
              rw [hrep]
              simp [NearFound, hcut.find]
            let score : PosInfo × Nat := (⟨d.rid, d.sid, 0⟩,
              toU32 ((tr.hit.tf + tr.hit.score) * arg.weight d.rid d.sid))
            refine ⟨[ti], R.addAll r (d, [score]), none, .congr (fun k => ?_) (.pure _),
              .cons (.inl ⟨a, as, hat⟩) .nil, ⟨[(d, [score])], rfl, le_rfl, ?_, by simp⟩,
              .inl ⟨rfl, rfl, hrep⟩⟩
            · simp only [nearDoc, hw, harg.orp, hrep, hat.p, ne_eq, not_false_eq_true, true_or,
                and_self, if_true, htf]
              rfl
            · simp only [List.mem_singleton, forall_eq, true_and]
              exact ⟨⟨List.cons_ne_nil _ _, by simp [score]⟩, hfound⟩
  · have hlen := hstart.length_eq.trans hcut.length_eq.symm
    have hnetrs : trs ≠ [] := by
      rintro rfl
      exact hne (List.eq_nil_of_length_eq_zero hcut.length_eq)
    obtain ⟨s, left, hrun, hended⟩ := Near.branch_spec R arg.rep
      (arg.weight d.rid d.sid) htrs hnetrs hstart hint r
    obtain ⟨l, hl, hdoc, hnil⟩ := hended.added
    have hfound : NearFound ts arg.rep maxInterval d ↔ s.noccur ≠ 0 := by
      rw [nearFound_iff hone, ← exists_close_iff hcut, hended.found]
    let score : PosInfo × Nat := (⟨d.rid, d.sid, 0⟩, toU32 (s.noccur * arg.weight d.rid d.sid))
    let new : List (DocId × List (PosInfo × Nat)) :=
      if s.noccur = 0 then [] else [(d, if arg.rep then l else [score])]
    have hrecords : new.foldl R.addAll r = if s.noccur ≠ 0 ∧ !arg.rep then
        R.add s.records ⟨d.rid, d.sid, 0⟩ (toU32 (s.noccur * arg.weight d.rid d.sid))
        else s.records := by
      by_cases h0 : s.noccur = 0
      · obtain rfl := hnil.mpr (.inr h0)
        simp [new, h0, hl, Records.addAll]
      · cases hrep : arg.rep with
        | true => simp [new, h0, hl, hrep]
        | false =>
            obtain rfl := hnil.mpr (.inl hrep)
            simp [new, h0, hl, hrep, Records.addAll, score]
    obtain ⟨tl, htl, tr, htr, hfresh, hleft⟩ := hended.walk.leaves
    refine ⟨s.tis, new.foldl R.addAll r, left, ?_, hended.walk.tokens.forall₂,
      ⟨new, rfl, ?_, fun m hm => ?_, fun hf => ?_⟩, .inr ⟨tl, htl, tr, htr, hfresh, hleft⟩⟩
    · rw [hrecords]
      exact .congr (nearDoc_walk harg (by rwa [hlen]) · r) (hrun.map _)
    · simp only [new]
      split_ifs <;> simp
    · by_cases h0 : s.noccur = 0
      · simp [new, h0] at hm
      · simp only [new, if_neg h0, List.mem_singleton] at hm
        subst hm
        refine ⟨rfl, ⟨?_, ?_⟩, hfound.mpr h0⟩
        · cases hrep : arg.rep with
          | true => simpa [hrep, h0] using hnil
          | false => simp
        · cases hrep : arg.rep with
          | true => simpa using hdoc
          | false => simp [score]
    · simp [new, hfound.mp hf]

end Document

/-- **Near search is exact.** The loop terminates, and what it adds is about the documents that
are to be found, and about each of them. Whenever it looks at the tree, the first and the last
token are the ones with the least and the greatest position. -/
theorem selectNear_exact (R : Records ρ) {arg : SelectArg} (harg : arg.Near) {maxInterval : Int}
    (hint : 0 ≤ maxInterval) {ts : List TokenStream} (hne : ts ≠ []) (hok : ∀ t ∈ ts, t.Ok)
    (hsid : ∀ t, ts = [t] → arg.rep = false → ∀ h ∈ t.hits, h.sid + 1 < 2 ^ 32) (r : ρ) :
    (∃ (tis : List TokenInfo) (ms : List (DocId × List (PosInfo × Nat))),
      ts.mapM TokenStream.tokenInfoOpen = some tis ∧
      Settles (fun k => selectNear R arg maxInterval k tis r) (ms.foldl R.addAll r) ∧
      (ms.Pairwise fun a b => a.1 < b.1) ∧ (∀ m ∈ ms, Adds m.1 m.2) ∧
      ∀ d, (∃ l, (d, l) ∈ ms) ↔ NearFound ts arg.rep maxInterval d) ∧
    ∀ (d : DocId) (tis : List TokenInfo) (r : ρ) (s : Near ρ), tis ≠ [] →
      Near.Heads R arg.rep (arg.weight d.rid d.sid) d maxInterval tis r s →
        s.Extreme tis.length := by
  have hsid' : ts.length = 1 ∧ arg.rep = false → ∀ t ∈ ts, ∀ h ∈ t.hits, h.sid + 1 < 2 ^ 32 := by
    rintro ⟨hlen, hrep⟩ t ht
    obtain ⟨t', rfl⟩ := List.length_eq_one_iff.mp hlen
    obtain rfl := List.mem_singleton.mp ht
    exact hsid t rfl hrep
  obtain ⟨tis, ms, hopen, hrun, hlists⟩ := mainLoop_finds hne
    (inAll_nearFound ts arg.rep maxInterval) (nearDoc_ok (R := R) harg hint hne hok) hok hsid' r
  refine ⟨⟨tis, ms, hopen, hrun, hlists.sorted, fun m hm => (hlists.sound m hm).2.1,
    fun d => ⟨?_, fun hd => hlists.complete d (by simp [DocId.lt_def]) hd⟩⟩,
    fun d tis r s hne hs => hs.extreme hne⟩
  rintro ⟨l, hl⟩
  exact (hlists.sound _ hl).2.2

/-- Near search without positions, with weight 5. -/
def nearFive : SelectArg := ⟨false, true, fun _ _ => 5⟩

theorem nearFive_near : nearFive.Near := ⟨rfl, fun _ _ => (Int.ofNat_succ_pos 4).ne'⟩

/-- Two tokens that are three positions apart, with `max_interval` 2 and one of them with the
offset 1. -/
theorem selectNear_exact_two :
    ∃ (tis : List TokenInfo) (ms : List (DocId × List (PosInfo × Nat))),
      [(⟨[⟨1, 1, 0, [2, 9]⟩], 0⟩ : TokenStream), ⟨[⟨1, 1, 0, [5]⟩], 1⟩].mapM
        TokenStream.tokenInfoOpen = some tis ∧
      Settles (fun k => selectNear recordsList nearFive 2 k tis []) (ms.foldl recordsList.addAll
          []) ∧
      ∃ l, (⟨1, 1⟩, l) ∈ ms := by
  have hok : ∀ t ∈ [(⟨[⟨1, 1, 0, [2, 9]⟩], 0⟩ : TokenStream), ⟨[⟨1, 1, 0, [5]⟩], 1⟩], t.Ok := by
    simp only [List.mem_cons, List.not_mem_nil, or_false, forall_eq_or_imp, forall_eq]
    refine ⟨⟨by simp, by decide, ?_, by decide⟩, ⟨by simp, by decide, ?_, by decide⟩⟩
    · simp only [List.mem_singleton, forall_eq]
      exact ⟨by simp, by decide, by decide, by decide, by decide⟩
    · simp only [List.mem_singleton, forall_eq]
      exact ⟨by simp, by decide, by decide, by decide, by decide⟩
  obtain ⟨⟨tis, ms, hopen, hrun, -, -, hms⟩, -⟩ := selectNear_exact recordsList nearFive_near
    (show (0 : Int) ≤ 2 by decide) (List.cons_ne_nil _ _) hok (by simp) []
  refine ⟨tis, ms, hopen, hrun, (hms ⟨1, 1⟩).mpr ⟨fun i => if i = 0 then 2 else 4, ?_, ?_⟩⟩
  · intro i t ht
    rcases i with _ | _ | i
    · obtain rfl : _ = t := Option.some.inj ht
      exact ⟨_, rfl, by decide⟩
    · obtain rfl : _ = t := Option.some.inj ht
      exact ⟨_, rfl, by decide⟩
    · simp at ht
  · decide

/-- The token of the last section there can be, searched for alone. -/
theorem selectNear_lastSection (k : Nat) (r : List (PosInfo × Nat)) :
    selectNear recordsList nearFive 2 k
      [⟨[⟨⟨1, 2 ^ 32 - 1, 0, [0]⟩, 0, [], []⟩], 0, 0, ⟨⟨1, 2 ^ 32 - 1, 0, [0]⟩, 0, [], []⟩⟩] r =
        none := by
  induction k generalizing r with
  | zero => rfl
  | succ k ih =>
      rw [selectNear, mainLoop_succ]
      cases k with
      | zero => rfl
      | succ k => exact ih _

/-- A single token is found in spite of its offset, and in the last section there can be the
search does not end. -/
theorem selectNear_single_offset :
    (∃ (tis : List TokenInfo) (r : List (PosInfo × Nat)),
      [(⟨[⟨1, 1, 0, [0]⟩], 1⟩ : TokenStream)].mapM TokenStream.tokenInfoOpen = some tis ∧
      Settles (fun k => selectNear recordsList nearFive 2 k tis []) r ∧ (⟨1, 1, 0⟩, 5) ∈ r ∧
      ¬ NearOccurs [⟨[⟨1, 1, 0, [0]⟩], 1⟩] 2 ⟨1, 1⟩) ∧
    ∃ tis : List TokenInfo,
      [(⟨[⟨1, 2 ^ 32 - 1, 0, [0]⟩], 0⟩ : TokenStream)].mapM TokenStream.tokenInfoOpen = some tis ∧
      ∀ k, selectNear recordsList nearFive 2 k tis [] = none := by
  refine ⟨⟨_, [(⟨1, 1, 0⟩, 5)], rfl, ⟨4, fun k hk => ?_⟩, by simp, ?_⟩,
    _, rfl, fun k => selectNear_lastSection k []⟩
  · obtain ⟨k, rfl⟩ : ∃ m, k = m + 4 := ⟨k - 4, by omega⟩
    rfl
  · rintro ⟨p, hp, -⟩
    obtain ⟨h, hfind, hmem⟩ := hp 0 _ rfl
    obtain rfl : (⟨1, 1, 0, [0]⟩ : Hit) = h := Option.some.inj hfind
    simp at hmem

end Senna.Index
