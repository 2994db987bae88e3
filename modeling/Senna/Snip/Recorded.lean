/-
# What is recorded for a snippet

While `sen_snip_exec` fills a snippet, an occurrence is recorded only if it starts at or behind
the end of the one recorded before it. So the occurrences of each snippet stand one behind the
other, and none of them is empty. Whether they lie inside the slice that is shown is another
matter: the slice is moved after they were chosen.
-/

import Senna.Snip.Reported
import Senna.Snip.Result

namespace Senna.Snip

section

variable {t : Text} {f : SnipFlags} {width rest : Nat}

/-- The searches of all conditions. -/
def AllSought (t : Text) (conds : List TaggedCond) : Prop := ∀ c ∈ conds, c.cond.Sought t

theorem AllSought.set {conds : List TaggedCond} (h : AllSought t conds) (i : Nat) {c : TaggedCond}
    (hc : c.cond.Sought t) : AllSought t (conds.set i c) := by
  intro c' hc'
  rcases List.mem_or_eq_of_mem_set hc' with hmem | rfl
  · exact h c' hmem
  · exact hc

/-- The loop that chooses a condition ends with the least offset of those that have not stopped,
and with a condition that has it. -/
theorem nextCond_fold (conds : List TaggedCond) (k : Nat) (acc : Nat × Nat × Option Nat) :
    let r := (conds.zipIdx k).foldl (fun (minStart, maxEnd, best) (c, i) =>
      if c.cond.stopflag = .nonstop ∧ (minStart > c.cond.startOffset ∨
          (minStart = c.cond.startOffset ∧ maxEnd < c.cond.endOffset)) then
        (c.cond.startOffset, c.cond.endOffset, some i)
      else (minStart, maxEnd, best)) acc
    r.1 ≤ acc.1 ∧ (∀ c ∈ conds, c.cond.stopflag = .nonstop → r.1 ≤ c.cond.startOffset) ∧
      (r.1 = acc.1 ∧ r.2.2 = acc.2.2 ∨ ∃ j c, conds[j]? = some c ∧ c.cond.stopflag = .nonstop ∧
        r.1 = c.cond.startOffset ∧ r.2.2 = some (k + j)) := by
  induction conds generalizing k acc with
  | nil => exact ⟨le_rfl, nofun, .inl ⟨rfl, rfl⟩⟩
  | cons c conds ih =>
      obtain ⟨minStart, maxEnd, best⟩ := acc
      rw [List.zipIdx_cons, List.foldl_cons]
      dsimp only
      by_cases hcond : c.cond.stopflag = .nonstop ∧ (minStart > c.cond.startOffset ∨
          (minStart = c.cond.startOffset ∧ maxEnd < c.cond.endOffset))
      · rw [if_pos hcond]
        obtain ⟨hle, hleast, hchosen⟩ := ih (k + 1) (c.cond.startOffset, c.cond.endOffset, some k)
        have hsmaller : c.cond.startOffset ≤ minStart := by
          have := hcond.2
          omega
        refine ⟨hle.trans hsmaller, List.forall_mem_cons.mpr ⟨fun _ => hle, hleast⟩, .inr ?_⟩
        rcases hchosen with ⟨hstart, hbest⟩ | ⟨j, c', hc', hflag, hstart, hbest⟩
        · exact ⟨0, c, rfl, hcond.1, hstart, hbest⟩
        · exact ⟨j + 1, c', hc', hflag, hstart, hbest.trans (congrArg some (by omega))⟩
      · rw [if_neg hcond]
        obtain ⟨hle, hleast, hchosen⟩ := ih (k + 1) (minStart, maxEnd, best)
        have hkept : c.cond.stopflag = .nonstop → minStart ≤ c.cond.startOffset := by
          intro hflag
          have := not_or.mp fun h => hcond ⟨hflag, h⟩
          omega
        refine ⟨hle, List.forall_mem_cons.mpr ⟨fun hflag => hle.trans (hkept hflag), hleast⟩, ?_⟩
        rcases hchosen with hkeep | ⟨j, c', hc', hflag, hstart, hbest⟩
        · exact .inl hkeep
        · exact .inr ⟨j + 1, c', hc', hflag, hstart, hbest.trans (congrArg some (by omega))⟩

/-- The condition chosen is one that has not stopped, and none of these has a smaller offset. -/
theorem nextCond_least {conds : List TaggedCond} {i : Nat} (h : nextCond conds = some i) :
    ∃ c, conds[i]? = some c ∧ c.cond.stopflag = .nonstop ∧
      ∀ c' ∈ conds, c'.cond.stopflag = .nonstop → c.cond.startOffset ≤ c'.cond.startOffset := by
  obtain ⟨-, hleast, hchosen⟩ := nextCond_fold conds 0 (2 ^ 64 - 1, 0, none)
  unfold nextCond at h
  rcases hchosen with ⟨-, hbest⟩ | ⟨j, c, hc, hflag, hstart, hbest⟩
  · exact absurd (hbest.symm.trans h) nofun
  · obtain rfl : 0 + j = i := Option.some.inj (hbest.symm.trans h)
    exact ⟨c, by rwa [Nat.zero_add], hflag, fun c' hc' hflag' =>
        hstart.ge.trans (hleast c' hc' hflag')⟩

/-- If none is chosen, all have stopped. -/
theorem nextCond_none {conds : List TaggedCond} (h : nextCond conds = none) :
    ∀ c ∈ conds, c.cond.stopflag = .nonstop → 2 ^ 64 - 1 ≤ c.cond.startOffset := by
  obtain ⟨-, hleast, hchosen⟩ := nextCond_fold conds 0 (2 ^ 64 - 1, 0, none)
  unfold nextCond at h
  rcases hchosen with ⟨hstart, -⟩ | ⟨j, c, -, -, -, hbest⟩
  · exact fun c hc hflag => hstart.ge.trans (hleast c hc hflag)
  · exact absurd (h.symm.trans hbest) nofun

theorem tuneCond_sought {conds conds' : List TaggedCond} {i : Nat} (h : AllSought t conds)
    (ht : t.Sound) (htune : tuneCond t f conds i = some conds') : AllSought t conds' := by
  obtain ⟨c, hc, htune⟩ := Option.bind_eq_some_iff.mp htune
  obtain ⟨cond', hbm, rfl⟩ := Option.map_eq_some_iff.mp htune
  have hsought := h c (List.mem_of_getElem? hc)
  obtain ⟨x, hx⟩ := hsought.ready
  exact h.set i (senBmTunedbm_sought hx hsought.placed ht hbm).1

theorem Recorded.single {u : TagResult} (h : u.startOffset < u.endOffset) : Recorded [u] :=
  ⟨List.cons_ne_nil _ _, by simpa using h, List.pairwise_singleton _ _⟩

theorem Recorded.append {tags : List TagResult} (h : Recorded tags) {u : TagResult}
    (hu : u.startOffset < u.endOffset) (hlast : ∀ v ∈ tags, v.endOffset ≤ u.startOffset) :
    Recorded (tags ++ [u]) where
  ne_nil := List.append_ne_nil_of_left_ne_nil h.ne_nil _
  proper := by
    intro v hv
    rcases List.mem_append.mp hv with hv | hv
    · exact h.proper v hv
    · rw [List.mem_singleton.mp hv]
      exact hu
  apart := by
    apply List.pairwise_append.mpr
    refine ⟨h.apart, List.pairwise_singleton _ _, ?_⟩
    intro v hv w hw
    rw [List.mem_singleton.mp hw]
    exact hlast v hv

/-- The state while a snippet is filled: its occurrences are the last `tagCount` ones recorded. -/
structure Filling.Ok (t : Text) (st : Filling) : Prop where
  sought : AllSought t st.conds
  count : 0 < st.tagCount → st.first < st.tags.length
  recorded : 0 < st.tagCount → Recorded (st.tags.drop st.first)
  last : 0 < st.tagCount → ∀ u ∈ st.tags.drop st.first, u.endOffset ≤ st.lastTagEnd
  found : st.found = true → 0 < st.tagCount

/-- What one round keeps. -/
structure Filling.Keeps (t : Text) (st st' : Filling) : Prop where
  ok : st'.Ok t
  tags : st.tags <+: st'.tags

theorem Filling.Ok.with_conds {st : Filling} (h : st.Ok t) {conds : List TaggedCond}
    (hconds : AllSought t conds) : Filling.Ok t { st with conds := conds } :=
  ⟨hconds, h.count, h.recorded, h.last, h.found⟩

theorem Filling.Ok.tune {st st' : Filling} (h : st.Ok t) (ht : t.Sound) {i : Nat} {more : Bool}
    (htune : Filling.tune t f st i = some (more, st')) : st.Keeps t st' := by
  obtain ⟨conds, hconds, heq⟩ := Option.map_eq_some_iff.mp htune
  obtain rfl : { st with conds := conds } = st' := congrArg Prod.snd heq
  exact ⟨h.with_conds (tuneCond_sought h.sought ht hconds), List.prefix_rfl⟩

/-- **Recording an occurrence** that starts at or behind the end of the last one. -/
theorem Filling.Ok.tag {st st' : Filling} (h : st.Ok t) (ht : t.Sound) {i : Nat} {c : TaggedCond}
    {more : Bool} (hc : st.conds[i]? = some c) (hflag : c.cond.stopflag = .nonstop)
    (hfirst : st.tagCount = 0 → st.first = st.tags.length)
    (hlast : 0 < st.tagCount → st.lastTagEnd ≤ c.cond.startOffset)
    (htag : Filling.tag t f width st i c = some (more, st')) : st.Keeps t st' := by
  have hsought := h.sought c (List.mem_of_getElem? hc)
  have hproper := hsought.proper.resolve_left (by rw [hflag]; decide)
  unfold Filling.tag at htag
  by_cases hacross : c.cond.endOffset > (st.start + width) % 2 ^ 64
  · rw [if_pos hacross] at htag
    have hconds : AllSought t
        (st.conds.set i { c with cond := { c.cond with stopflag := .across } }) :=
      h.sought.set i (hsought.across hflag)
    obtain ⟨hok, htags⟩ := (h.with_conds hconds).tune ht htag
    exact ⟨hok, htags⟩
  · rw [if_neg hacross] at htag
    have hconds : AllSought t
        (st.conds.set i { c with cond := { c.cond with count := c.cond.count + 1 } }) :=
      h.sought.set i (hsought.counted _)
    have hfirstLe : st.first ≤ st.tags.length := by
      rcases Nat.eq_zero_or_pos st.tagCount with hzero | hpos
      · exact (hfirst hzero).le
      · exact (h.count hpos).le
    have hdrop : (st.record i c).tags.drop st.first =
        st.tags.drop st.first ++ [⟨c.cond.startOffset, c.cond.endOffset, i⟩] :=
      List.drop_append_of_le_length hfirstLe
    have hrecorded : Recorded ((st.record i c).tags.drop st.first) ∧
        ∀ u ∈ (st.record i c).tags.drop st.first, u.endOffset ≤ c.cond.endOffset := by
      rw [hdrop]
      rcases Nat.eq_zero_or_pos st.tagCount with hzero | hpos
      · rw [hfirst hzero, List.drop_length, List.nil_append]
        exact ⟨.single hproper, List.forall_mem_singleton.mpr le_rfl⟩
      · have hbefore : ∀ u ∈ st.tags.drop st.first, u.endOffset ≤ c.cond.startOffset :=
          fun u hu => (h.last hpos u hu).trans (hlast hpos)
        refine ⟨(h.recorded hpos).append hproper hbefore, ?_⟩
        intro u hu
        rcases List.mem_append.mp hu with hu | hu
        · exact (hbefore u hu).trans hproper.le
        · rw [List.mem_singleton.mp hu]
    have hok : (st.record i c).Ok t := by
      refine ⟨hconds, fun _ => ?_, fun _ => hrecorded.1, fun _ => hrecorded.2,
        fun _ => Nat.succ_pos _⟩
      show st.first < (st.tags ++ [_]).length
      rw [List.length_append, List.length_singleton]
      omega
    by_cases hfull : (st.record i c).tags.length ≥ maxSnipTagCount
    · rw [if_pos hfull] at htag
      obtain rfl : st.record i c = st' := congrArg Prod.snd (Option.some.inj htag)
      exact ⟨hok, List.prefix_append _ _⟩
    · rw [if_neg hfull] at htag
      obtain ⟨hok', htags⟩ := hok.tune ht htag
      exact ⟨hok', (List.prefix_append _ _).trans htags⟩

theorem Filling.Ok.step {st st' : Filling} (h : st.Ok t) (ht : t.Sound) {more : Bool}
    (hstep : Filling.step t f width rest st = some (more, st')) : st.Keeps t st' := by
  unfold Filling.step at hstep
  cases hnext : nextCond st.conds with
  | none =>
      simp only [hnext] at hstep
      obtain rfl : st = st' := congrArg Prod.snd (Option.some.inj hstep)
      exact ⟨h, List.prefix_rfl⟩
  | some i =>
      obtain ⟨c, hc, hflag, -⟩ := nextCond_least hnext
      simp only [hnext, hc, Option.bind_some] at hstep
      by_cases hcount : st.tagCount = 0
      · rw [if_pos hcount] at hstep
        split_ifs at hstep
        · exact h.tune ht hstep
        · have hnone : ∀ {P : Prop}, 0 < st.tagCount → P := fun hpos => absurd hcount (by omega)
          have hblank : Filling.Ok t
              { st with start := c.cond.startOffset, first := st.tags.length } :=
            ⟨h.sought, hnone, hnone, hnone, h.found⟩
          obtain ⟨hok, htags⟩ := hblank.tag ht hc hflag (fun _ => rfl) hnone hstep
          exact ⟨hok, htags⟩
      · rw [if_neg hcount] at hstep
        split_ifs at hstep with hbehind hbefore
        · obtain rfl : st = st' := congrArg Prod.snd (Option.some.inj hstep)
          exact ⟨h, List.prefix_rfl⟩
        · exact h.tune ht hstep
        · exact h.tag ht hc hflag (fun hzero => absurd hzero hcount)
            (fun _ => Nat.le_of_not_lt hbefore) hstep

/-- **Filling a snippet.** -/
theorem Filling.Ok.run {st st' : Filling} (h : st.Ok t) (ht : t.Sound) {k : Nat}
    (hrun : Filling.run t f width rest k st = some st') : st.Keeps t st' := by
  induction k generalizing st with
  | zero => exact absurd hrun nofun
  | succ k ih =>
      obtain ⟨⟨more, st₁⟩, hstep, hrun⟩ := Option.bind_eq_some_iff.mp hrun
      obtain ⟨hok, htags⟩ := h.step ht hstep
      cases more with
      | true =>
          obtain ⟨hok', htags'⟩ := ih hok hrun
          exact ⟨hok', htags.trans htags'⟩
      | false =>
          obtain rfl := Option.some.inj hrun
          exact ⟨hok, htags⟩

/-- What holds of a snippet that has been recorded among these tag results. -/
structure SnipResult.Ok (tags : List TagResult) (r : SnipResult) : Prop where
  le : r.startOffset ≤ r.endOffset
  first_lt : r.firstTagResultIdx < tags.length
  last_lt : r.lastTagResultIdx < tags.length
  recorded : Recorded ((tags.drop r.firstTagResultIdx).take
    (r.lastTagResultIdx + 1 - r.firstTagResultIdx))

/-- Later tag results change nothing. -/
theorem SnipResult.Ok.mono {tags tags' : List TagResult} {r : SnipResult} (h : r.Ok tags)
    (hmore : tags <+: tags') : r.Ok tags' := by
  obtain ⟨more, rfl⟩ := hmore
  have hfirst := h.first_lt
  have hlast := h.last_lt
  refine ⟨h.le, ?_, ?_, tags_slice_append more hfirst hlast ▸ h.recorded⟩
  · rw [List.length_append]
    omega
  · rw [List.length_append]
    omega

/-- The state between two snippets. -/
structure Snippets.Ok (t : Text) (p : Snippets) : Prop where
  sought : AllSought t p.conds
  results : ∀ r ∈ p.results, r.Ok p.tags

theorem Snippets.blank_ok {p : Snippets} (h : AllSought t p.conds) : p.blank.Ok t :=
  ⟨h, fun h => absurd h (lt_irrefl 0), fun h => absurd h (lt_irrefl 0),
    fun h => absurd h (lt_irrefl 0), fun h => absurd h Bool.false_ne_true⟩

/-- **All snippets.** -/
theorem Snippets.Ok.run {p p' : Snippets} (h : p.Ok t) (ht : t.Sound) {string : List UInt8}
    {encoding : SenEncoding} {k : Nat}
    (hrun : Snippets.run t f width string encoding k p = some p') : p'.Ok t := by
  induction k generalizing p with
  | zero =>
      obtain rfl := Option.some.inj hrun
      exact h
  | succ k ih =>
      obtain ⟨st, hfill, hrun⟩ := Option.bind_eq_some_iff.mp hrun
      obtain ⟨hok, htags⟩ := (Snippets.blank_ok h.sought).run ht hfill
      have hmono : ∀ r ∈ p.results, r.Ok st.tags := fun r hr => (h.results r hr).mono htags
      dsimp only at hrun
      by_cases hfound : st.found = true
      · rw [if_neg (by rw [hfound]; decide)] at hrun
        obtain ⟨⟨start, stop, mapped⟩, hplace, hrun⟩ := Option.bind_eq_some_iff.mp hrun
        have hcount := hok.found hfound
        have hfirst := hok.count hcount
        have hlen : st.tags.length - 1 + 1 = st.tags.length := by omega
        have hnew : SnipResult.Ok st.tags
            ⟨start, stop, st.first, st.tags.length - 1, st.tagCount⟩ := by
          refine ⟨(Filling.place_spec hplace).1, hfirst, by show _ - 1 < _; omega, ?_⟩
          show Recorded ((st.tags.drop st.first).take (st.tags.length - 1 + 1 - st.first))
          rw [hlen, ← List.length_drop, List.take_length]
          exact hok.recorded hcount
        have hresults : ∀ r ∈ p.results ++
            [⟨start, stop, st.first, st.tags.length - 1, st.tagCount⟩], r.Ok st.tags := by
          intro r hr
          rcases List.mem_append.mp hr with hr | hr
          · exact hmono r hr
          · rw [List.mem_singleton.mp hr]
            exact hnew
        dsimp only at hrun
        split_ifs at hrun
        · obtain rfl := Option.some.inj hrun
          exact ⟨hok.sought, hresults⟩
        · obtain rfl := Option.some.inj hrun
          exact ⟨hok.sought, hresults⟩
        · refine ih ⟨?_, hresults⟩ hrun
          intro c hc
          obtain ⟨c₀, hc₀, rfl⟩ := List.mem_map.mp hc
          have hsought := hok.sought c₀ hc₀
          split_ifs with hstop
          · exact hsought
          · exact hsought.reset hstop
      · rw [if_pos (by simpa using hfound)] at hrun
        obtain rfl := Option.some.inj hrun
        -- nothing was recorded since
        exact ⟨hok.sought, h.results⟩

/-- How far the searches of all conditions still have to go. -/
def ahead (t : Text) (conds : List TaggedCond) : Nat :=
  (conds.map fun c =>
    if c.cond.stopflag = .stop then 0 else t.norm.length + 1 - c.cond.found).sum

theorem ahead_lt_fillRounds (t : Text) (conds : List TaggedCond) :
    ahead t conds < fillRounds t conds := by
  unfold ahead fillRounds
  induction conds with
  | nil => exact Nat.succ_pos _
  | cons c conds ih =>
      rw [List.map_cons, List.sum_cons, List.length_cons, Nat.succ_mul]
      split_ifs <;> omega

theorem ahead_set (t : Text) {conds : List TaggedCond} {i : Nat} {c : TaggedCond}
    (c' : TaggedCond) (hc : conds[i]? = some c) :
    ahead t (conds.set i c') +
        (if c.cond.stopflag = .stop then 0 else t.norm.length + 1 - c.cond.found) =
      ahead t conds +
        (if c'.cond.stopflag = .stop then 0 else t.norm.length + 1 - c'.cond.found) := by
  unfold ahead
  induction conds generalizing i with
  | nil => exact absurd hc nofun
  | cons a conds ih =>
      cases i with
      | zero =>
          obtain rfl := Option.some.inj hc
          rw [List.set_cons_zero, List.map_cons, List.map_cons, List.sum_cons, List.sum_cons]
          omega
      | succ i =>
          have hrest := ih (i := i) hc
          rw [List.set_cons_succ, List.map_cons, List.map_cons, List.sum_cons, List.sum_cons]
          omega

/-- The search for a condition that has not stopped brings all of them forward. -/
theorem tuneCond_ahead {conds conds' : List TaggedCond} {i : Nat} {c : TaggedCond}
    (h : AllSought t conds) (ht : t.Sound) (hc : conds[i]? = some c)
    (hflag : c.cond.stopflag ≠ .stop) (htune : tuneCond t f conds i = some conds') :
    ahead t conds' < ahead t conds := by
  unfold tuneCond at htune
  rw [hc, Option.bind_some] at htune
  obtain ⟨cond', hbm, rfl⟩ := Option.map_eq_some_iff.mp htune
  have hsought := h c (List.mem_of_getElem? hc)
  obtain ⟨x, hx⟩ := hsought.ready
  have hle := hx.found_le
  obtain ⟨-, -, hmove⟩ := senBmTunedbm_sought hx hsought.placed ht hbm
  have hset := ahead_set t { c with cond := cond' } hc
  rw [if_neg hflag] at hset
  dsimp only at hset
  rcases hmove with hstop | ⟨hfound, hsame⟩
  · rw [if_pos hstop] at hset
    omega
  · rw [if_neg (hsame ▸ hflag)] at hset
    omega

/-- A search returns unless it reads outside the text. -/
def SearchReturns (t : Text) (f : SnipFlags) : Prop :=
  ∀ cond x, SnipCond.Ready cond t x → ∃ cond', senBmTunedbm cond t f.skipLeadingSpaces = some cond'

theorem searchReturns_of_not_skip (hf : f.skipLeadingSpaces = false) : SearchReturns t f := by
  intro cond x hx
  obtain ⟨r, hr, -⟩ := hx.search
  obtain ⟨cond', hbm, -⟩ := hx.tunedbm hr
  rw [hf]
  exact ⟨cond', hbm⟩

/-- A round that searches for a condition returns, goes on and brings the searches forward. -/
theorem Filling.tune_returns (st : Filling) (h : AllSought t st.conds) (ht : t.Sound)
    (hreturns : SearchReturns t f) {i : Nat} {c : TaggedCond} (hc : st.conds[i]? = some c)
    (hflag : c.cond.stopflag ≠ .stop) :
    ∃ st', Filling.tune t f st i = some (true, st') ∧ ahead t st'.conds < ahead t st.conds := by
  obtain ⟨x, hx⟩ := (h c (List.mem_of_getElem? hc)).ready
  obtain ⟨cond', hbm⟩ := hreturns c.cond x hx
  have htune : tuneCond t f st.conds i = some (st.conds.set i { c with cond := cond' }) := by
    unfold tuneCond
    rw [hc, Option.bind_some, hbm]
    rfl
  refine ⟨{ st with conds := st.conds.set i { c with cond := cond' } }, ?_,
    tuneCond_ahead h ht hc hflag htune⟩
  unfold Filling.tune
  rw [htune]
  rfl

/-- How far a condition still has to go does not depend on its other fields. -/
theorem ahead_set_of_same {conds : List TaggedCond} {i : Nat} {c c' : TaggedCond}
    (hc : conds[i]? = some c) (hflag : c.cond.stopflag ≠ .stop) (hflag' : c'.cond.stopflag ≠ .stop)
    (hfound : c'.cond.found = c.cond.found) : ahead t (conds.set i c') = ahead t conds := by
  have hset := ahead_set t c' hc
  rw [if_neg hflag, if_neg hflag', hfound] at hset
  exact Nat.add_right_cancel hset

theorem Filling.tag_returns (st : Filling) (h : AllSought t st.conds) (ht : t.Sound)
    (hreturns : SearchReturns t f) {i : Nat} {c : TaggedCond} (hc : st.conds[i]? = some c)
    (hflag : c.cond.stopflag = .nonstop) :
    ∃ more st', Filling.tag t f width st i c = some (more, st') ∧
      (more = true → ahead t st'.conds < ahead t st.conds) := by
  have hsought := h c (List.mem_of_getElem? hc)
  have hlt : i < st.conds.length := (List.getElem?_eq_some_iff.mp hc).1
  have hne : c.cond.stopflag ≠ .stop := by
    rw [hflag]
    decide
  unfold Filling.tag
  by_cases hacross : c.cond.endOffset > (st.start + width) % 2 ^ 64
  · rw [if_pos hacross]
    let c' : TaggedCond := { c with cond := { c.cond with stopflag := .across } }
    have hne' : c'.cond.stopflag ≠ .stop := by
      intro hstop
      cases hstop
    have hsame : ahead t (st.conds.set i c') = ahead t st.conds :=
      ahead_set_of_same hc hne hne' rfl
    obtain ⟨st', htune, hless⟩ := Filling.tune_returns
      { st with conds := st.conds.set i c' }
      (h.set i (hsought.across hflag)) ht hreturns (List.getElem?_set_self hlt) hne'
    exact ⟨true, st', htune, fun _ => lt_of_lt_of_eq hless hsame⟩
  · rw [if_neg hacross]
    by_cases hfull : (st.record i c).tags.length ≥ maxSnipTagCount
    · rw [if_pos hfull]
      exact ⟨false, _, rfl, nofun⟩
    · rw [if_neg hfull]
      obtain ⟨st', htune, hless⟩ := Filling.tune_returns (st.record i c)
        (h.set i (hsought.counted _)) ht hreturns (List.getElem?_set_self hlt) hne
      have hsame : ahead t (st.record i c).conds = ahead t st.conds :=
        ahead_set_of_same hc hne hne rfl
      rw [hsame] at hless
      exact ⟨true, st', htune, fun _ => hless⟩

theorem Filling.step_returns (width rest : Nat) {st : Filling} (h : AllSought t st.conds)
    (ht : t.Sound)
    (hreturns : SearchReturns t f) :
    ∃ more st', Filling.step t f width rest st = some (more, st') ∧
      (more = true → ahead t st'.conds < ahead t st.conds) := by
  unfold Filling.step
  cases hnext : nextCond st.conds with
  | none => exact ⟨false, st, rfl, nofun⟩
  | some i =>
      obtain ⟨c, hc, hflag, -⟩ := nextCond_least hnext
      have hne : c.cond.stopflag ≠ .stop := by
        rw [hflag]
        decide
      have htune : ∃ more st', Filling.tune t f st i = some (more, st') ∧
          (more = true → ahead t st'.conds < ahead t st.conds) := by
        obtain ⟨st', htune, hless⟩ := Filling.tune_returns st h ht hreturns hc hne
        exact ⟨true, st', htune, fun _ => hless⟩
      simp only [hc, Option.bind_some]
      split_ifs
      · exact htune
      · exact Filling.tag_returns { st with
          start := c.cond.startOffset, first := st.tags.length } h ht hreturns hc hflag
      · exact ⟨false, st, rfl, nofun⟩
      · exact htune
      · exact Filling.tag_returns st h ht hreturns hc hflag

/-- **The rounds are enough** to fill a snippet. -/
theorem Filling.run_returns {st : Filling} (h : st.Ok t) (ht : t.Sound)
    (hreturns : SearchReturns t f) {k : Nat} (hk : ahead t st.conds < k) :
    ∃ st', Filling.run t f width rest k st = some st' := by
  induction k generalizing st with
  | zero => exact absurd hk (Nat.not_lt_zero _)
  | succ k ih =>
      obtain ⟨more, st₁, hstep, hless⟩ :=
        Filling.step_returns width rest h.sought ht hreturns
      have hok := (h.step ht hstep).ok
      cases more with
      | true =>
          obtain ⟨st', hrun⟩ := ih hok (by have := hless rfl; omega)
          refine ⟨st', ?_⟩
          show (Filling.step t f width rest st).bind _ = _
          rw [hstep]
          exact hrun
      | false =>
          refine ⟨st₁, ?_⟩
          show (Filling.step t f width rest st).bind _ = _
          rw [hstep]
          rfl

end

section

variable {t : Text} {f : SnipFlags} {width rest : Nat}

theorem tuneAll_sought {conds conds' : List TaggedCond}
    (h : ∀ c ∈ conds, (∃ x, c.cond.Ready t x) ∧ c.cond.Placed t) (ht : t.Sound)
    (htune : tuneAll t f conds = some conds') : AllSought t conds' := by
  induction conds generalizing conds' with
  | nil =>
      obtain rfl := Option.some.inj htune
      exact nofun
  | cons c cs ih =>
      obtain ⟨⟨⟨x, hx⟩, hplaced⟩, hcs⟩ := List.forall_mem_cons.mp h
      obtain ⟨cond, hbm, htune⟩ := Option.bind_eq_some_iff.mp htune
      obtain ⟨cs', hcs', htune⟩ := Option.bind_eq_some_iff.mp htune
      obtain rfl := Option.some.inj htune
      exact List.forall_mem_cons.mpr ⟨(senBmTunedbm_sought hx hplaced ht hbm).1, ih hcs hcs'⟩

end

section

variable {keywordOpen : List UInt8 → Option (List UInt8)} {nstrOpen : List UInt8 → Option Text}

/-- The snippet objects that calls of `sen_snip_open`, `sen_snip_add_cond` and `sen_snip_exec`
make. -/
inductive SenSnip.Made (keywordOpen : List UInt8 → Option (List UInt8))
    (nstrOpen : List UInt8 → Option Text) : SenSnip → Prop
  | opened {encoding : SenEncoding} {flags : SnipFlags} {width maxResults : Nat}
      {defaultopentag defaultclosetag : List UInt8} {mapping : SnipMapping} {snip : SenSnip}
      (h : senSnipOpen encoding flags width maxResults defaultopentag defaultclosetag mapping =
        some snip) : SenSnip.Made keywordOpen nstrOpen snip
  | addCond {snip : SenSnip} (h : SenSnip.Made keywordOpen nstrOpen snip) (keyword : List UInt8)
      (opentag closetag : Option (List UInt8)) :
      SenSnip.Made keywordOpen nstrOpen
        (senSnipAddCond keywordOpen snip keyword opentag closetag).2
  | exec {snip snip' : SenSnip} (h : SenSnip.Made keywordOpen nstrOpen snip) {string : List UInt8}
      {rc : SenRc} (hexec : senSnipExec nstrOpen snip string = some (rc, snip')) :
      SenSnip.Made keywordOpen nstrOpen snip'

/-- The condition can be searched for in any text, from the start. -/
def SnipCond.Reusable (cond : SnipCond) : Prop :=
  ∀ t, ∃ x, (senSnipCondReinit cond).Ready t x

theorem SnipCond.Ready.reusable {cond : SnipCond} {t : Text} {x : List UInt8}
    (h : cond.Ready t x) : cond.Reusable :=
  fun _ => ⟨x, h.keyword, h.ne_nil, Nat.zero_le _, h.shift, h.table⟩

theorem SnipCond.Reusable.reinit {cond : SnipCond} (h : cond.Reusable) :
    (senSnipCondReinit cond).Reusable := h

/-- What an execution leaves behind. -/
theorem senSnipExec_spec {snip snip' : SenSnip} {string : List UInt8}
    (hopens : ∀ t, nstrOpen string = some t → t.Sound)
    (hconds : ∀ c ∈ snip.conds, c.cond.Reusable) {rc : SenRc}
    (h : senSnipExec nstrOpen snip string = some (rc, snip')) :
    (∀ c ∈ snip'.conds, c.cond.Reusable) ∧
      (rc = .success → snip'.text.isSome ∧ ∀ r ∈ snip'.snipResult, r.Ok snip'.tagResult) := by
  have hclean : ∀ c ∈ (execClean snip).conds, c.cond.Reusable := by
    intro c hc
    obtain ⟨c₀, hc₀, rfl⟩ := List.mem_map.mp hc
    exact (hconds c₀ hc₀).reinit
  unfold senSnipExec at h
  cases hopen : nstrOpen string with
  | none =>
      simp only [hopen] at h
      obtain ⟨rfl, rfl⟩ := Prod.ext_iff.mp (Option.some.inj h)
      exact ⟨hclean, nofun⟩
  | some t =>
      simp only [hopen] at h
      have ht := hopens t hopen
      obtain ⟨conds, htune, h⟩ := Option.bind_eq_some_iff.mp h
      obtain ⟨p, hrun, h⟩ := Option.bind_eq_some_iff.mp h
      obtain ⟨rfl, rfl⟩ := Prod.ext_iff.mp (Option.some.inj h)
      have hsought : AllSought t conds := by
        apply tuneAll_sought _ ht htune
        intro c hc
        obtain ⟨c₀, hc₀, rfl⟩ := List.mem_map.mp hc
        exact ⟨hconds c₀ hc₀ t, Nat.zero_le _, .inl rfl, Nat.zero_le _⟩
      have hok : Snippets.Ok t ⟨conds, [], [], conds.length, 0, 0, 0⟩ := ⟨hsought, nofun⟩
      have hok' := hok.run ht hrun
      refine ⟨?_, fun _ => ⟨rfl, hok'.results⟩⟩
      intro c hc
      obtain ⟨x, hx⟩ := (hok'.sought c hc).ready
      exact hx.reusable

theorem SenSnip.Made.reusable {snip : SenSnip} (h : snip.Made keywordOpen nstrOpen)
    (hopens : ∀ string t, nstrOpen string = some t → t.Sound) :
    ∀ c ∈ snip.conds, c.cond.Reusable := by
  induction h with
  | opened h =>
      unfold senSnipOpen at h
      split_ifs at h
      obtain rfl := Option.some.inj h
      exact nofun
  | @addCond snip _ keyword opentag closetag ih =>
      unfold senSnipAddCond
      split_ifs
      · exact ih
      · generalize hinit : senSnipCondInit keywordOpen keyword = given
        obtain ⟨rc, cond⟩ := given
        cases rc with
        | success =>
            have hreusable : cond.Reusable := by
              intro t
              obtain ⟨x, hx, -, -⟩ := senSnipCondInit_ready (congrArg Prod.fst hinit) t
              rw [hinit] at hx
              exact hx.reusable t
            by_cases hfits : cond.keyword.blen > snip.width
            · simp only [if_pos hfits]
              exact ih
            · simp only [if_neg hfits]
              intro c hc
              rcases List.mem_append.mp hc with hc | hc
              · exact ih c hc
              · rw [List.mem_singleton.mp hc]
                exact hreusable
        | _ => exact ih
  | exec _ hexec ih => exact (senSnipExec_spec (hopens _) ih hexec).1

/-- **The highlighted text.** Whatever keywords a snippet object has and whatever text it was
given, the result of each snippet is well formed exactly if the occurrences recorded for it fit
its slice. -/
theorem senSnipGetResult_wellFormed_iff
    (hopens : ∀ string t, nstrOpen string = some t → t.Sound) {snip snip' : SenSnip}
    (hmade : snip.Made keywordOpen nstrOpen) {string : List UInt8}
    (hexec : senSnipExec nstrOpen snip string = some (.success, snip')) {index : Nat}
    {sres : SnipResult} (hindex : snip'.snipResult[index]? = some sres) :
    (senSnipGetResult snip' index).1 = .success ∧
      (snip'.WellFormed sres (senSnipGetResult snip' index).2 ↔
        Fits sres.startOffset sres.endOffset (snip'.tagsOf sres)) := by
  obtain ⟨htext, hresults⟩ := (senSnipExec_spec (hopens _) (hmade.reusable hopens) hexec).2 rfl
  obtain ⟨t, ht⟩ := Option.isSome_iff_exists.mp htext
  have hok := hresults sres (List.mem_of_getElem? hindex)
  have hresult : senSnipGetResult snip' index = (.success, resultLoop sres.endOffset
      (snip'.tagsOf sres) (sres.endOffset - sres.startOffset) sres.startOffset
        (snip'.tagsOf sres)) := by
    unfold senSnipGetResult
    simp only [hindex, ht]
  rw [hresult]
  exact ⟨rfl, resultLoop_tagged_iff hok.recorded hok.le⟩

end

/-- `sen_fakenstr_open` on a text of less than `2 ^ 32` bytes. -/
def plainOpen (string : List UInt8) : Option Text :=
  if string.length < 2 ^ 32 then some (senFakenstrOpen .none .none string) else none

theorem plainOpen_sound (string : List UInt8) (t : Text) (h : plainOpen string = some t) :
    t.Sound := by
  unfold plainOpen at h
  split_ifs at h with hlen
  obtain rfl := Option.some.inj h
  exact senFakenstrOpen_sound hlen

/-- A snippet object for two snippets of width 5, without keywords. -/
def narrowSnip : SenSnip where
  encoding := .none
  flags := ⟨false, false, false⟩
  width := 5
  maxResults := 2
  defaultopentag := [0x5b]
  defaultclosetag := [0x5d]
  mapping := .null
  conds := []
  string := []
  text := none
  snipResult := []
  tagResult := []
  maxTaggedLen := 0

/-- The same with the keyword "aaa". -/
def tripleSnip : SenSnip :=
  (senSnipAddCond some narrowSnip [0x61, 0x61, 0x61] none none).2

theorem tripleSnip_made : tripleSnip.Made some plainOpen := by
  have hopen : senSnipOpen .none ⟨false, false, false⟩ 5 2 [0x5b] [0x5d] .null =
      some narrowSnip := rfl
  exact .addCond (.opened hopen) _ _ _

/-- In "aaaaaaaa" the first occurrence fits the slice of the first snippet. -/
theorem senSnipGetResult_wellFormed_iff_first :
    ∃ snip' sres, senSnipExec plainOpen tripleSnip (List.replicate 8 0x61) =
        some (.success, snip') ∧ snip'.snipResult[0]? = some sres ∧
      snip'.WellFormed sres (senSnipGetResult snip' 0).2 := by
  have hexec : ∃ snip', senSnipExec plainOpen tripleSnip (List.replicate 8 0x61) =
      some (.success, snip') ∧ snip'.snipResult = [⟨0, 5, 0, 0, 1⟩, ⟨5, 8, 1, 1, 1⟩] ∧
      snip'.tagResult = [⟨0, 3, 0⟩, ⟨4, 7, 0⟩] := ⟨_, rfl, rfl, rfl⟩
  obtain ⟨snip', hexec, hresult, htags⟩ := hexec
  have hindex : snip'.snipResult[0]? = some ⟨0, 5, 0, 0, 1⟩ := by rw [hresult]; rfl
  refine ⟨snip', _, hexec, hindex, ((senSnipGetResult_wellFormed_iff plainOpen_sound
    tripleSnip_made hexec hindex).2).mpr (.inl ?_)⟩
  unfold SenSnip.tagsOf
  rw [htags]
  decide

/-- The second occurrence recorded starts before the slice of the second snippet, which begins
where the first one ends: its close tag is written, its open tag is not. -/
theorem senSnipGetResult_overlap :
    ∃ snip' sres, senSnipExec plainOpen tripleSnip (List.replicate 8 0x61) =
        some (.success, snip') ∧ snip'.snipResult[1]? = some sres ∧
      (senSnipGetResult snip' 1).2 = [.byte 5, .byte 6, .closetag 0, .byte 7] ∧
      ¬snip'.WellFormed sres (senSnipGetResult snip' 1).2 := by
  have hexec : ∃ snip', senSnipExec plainOpen tripleSnip (List.replicate 8 0x61) =
      some (.success, snip') ∧ snip'.snipResult[1]? = some ⟨5, 8, 1, 1, 1⟩ ∧
      (senSnipGetResult snip' 1).2 = [.byte 5, .byte 6, .closetag 0, .byte 7] :=
    ⟨_, rfl, rfl, rfl⟩
  obtain ⟨snip', hexec, hindex, hpieces⟩ := hexec
  refine ⟨snip', _, hexec, hindex, hpieces, ?_⟩
  rw [hpieces]
  intro h
  obtain ⟨c, hc⟩ := (Tagged.tags_iff h).mpr ⟨0, by decide⟩
  simp only [List.mem_cons, List.not_mem_nil, reduceCtorEq, or_false] at hc

end Senna.Snip
