/-
# Snippets are slices of the text

A snippet first covers `width` bytes from its first occurrence on. When it is filled,
`sen_snip_exec` moves it back, so that its occurrences come to the middle, but not behind the
end of the text and not before the end of the previous snippet; then both ends go to places
where a character starts. The result lies in the text, is not longer than `width`, starts and
ends between characters, and does not overlap the other snippets.

It shows the first occurrence recorded for it unless that one starts before the end of the
previous snippet. The offsets reported by the searches have to be boundaries of the text, and
no blanks may be skipped in front of an occurrence, which moves the offsets away from it.
-/

import Senna.Snip.Chars
import Senna.Snip.Recorded

namespace Senna.Snip

/-- The offsets that a search can report: sums of the first entries of `checks`. -/
def Text.Offset (t : Text) (n : Nat) : Prop := ∃ i, n = t.upTo i

section

variable {t : Text} {f : SnipFlags} {width rest w : Nat}

/-- A search without skipping of blanks: its offsets are those of the places in the text. -/
structure SnipCond.Exact (cond : SnipCond) (t : Text) : Prop where
  start : cond.startOffset = t.upTo cond.lastFound
  stop : t.Offset cond.endOffset
  reach : cond.endOffset ≤ t.upTo (cond.found + cond.keyword.blen)

/-- **One search** keeps this and does not go back. -/
theorem senBmTunedbm_exact {cond cond' : SnipCond} {x : List UInt8} (hx : cond.Ready t x)
    (hp : cond.Placed t) (hexact : cond.Exact t) (ht : t.Sound)
    (h : senBmTunedbm cond t false = some cond') :
    cond'.Exact t ∧ cond.endOffset ≤ cond'.endOffset := by
  rw [senBmTunedbm_eq hx.keyword] at h
  obtain ⟨r, hsearch, h⟩ := Option.bind_eq_some_iff.mp h
  cases r with
  | none =>
      obtain rfl := Option.some.inj h
      exact ⟨⟨hexact.start, hexact.stop, hexact.reach⟩, le_rfl⟩
  | some found =>
      obtain ⟨r, hr, hplace⟩ := hx.search
      obtain rfl := Option.some.inj (hsearch.symm.trans hr)
      obtain ⟨hle, hend⟩ := hplace found rfl
      obtain ⟨last, offset, -, -, -, hoffset, hlastEq, hfoundEq, -, -, hskip, -, hsum⟩ :=
        hp.report_eq ht hle hend (SnipCond.search_checks hsearch) h
      have hkeyword : cond'.keyword = cond.keyword :=
        congrArg Prod.fst (SnipCond.report_fields h).1
      have hstart := hskip rfl
      have hexactStart := hexact.start
      have hreach := hexact.reach
      have hblen : cond.keyword.blen = x.length := by
        rw [hx.keyword]
        rfl
      rw [hblen] at hreach
      have hmono : t.upTo (cond.found + x.length) ≤ t.upTo (found + x.length) :=
        Text.upTo_mono (by omega)
      have hstop : cond'.endOffset = t.upTo (found + x.length) := by omega
      refine ⟨⟨?_, ⟨_, hstop⟩, ?_⟩, by omega⟩
      · rw [hlastEq]
        omega
      · rw [hstop, hkeyword, hblen, hfoundEq]
        exact Text.upTo_mono (by omega)

/-- A condition while snippets are made. `w` bounds the end of what it has reported from below:
it is 0 for the first snippet and `width` behind it. -/
structure SnipCond.Tracked (cond : SnipCond) (t : Text) (width w : Nat) : Prop where
  sought : cond.Sought t
  exact : cond.Exact t
  past : cond.stopflag = .across → width ≤ cond.endOffset
  beyond : cond.stopflag ≠ .stop → w ≤ cond.endOffset

theorem SnipCond.Tracked.tune {cond cond' : SnipCond} (h : cond.Tracked t width w) (ht : t.Sound)
    (hbm : senBmTunedbm cond t false = some cond') : cond'.Tracked t width w := by
  obtain ⟨x, hx⟩ := h.sought.ready
  obtain ⟨hsought, -, hflag⟩ := senBmTunedbm_sought hx h.sought.placed ht hbm
  obtain ⟨hexact, hle⟩ := senBmTunedbm_exact hx h.sought.placed h.exact ht hbm
  rcases hflag with hstop | ⟨-, hsame⟩
  · exact ⟨hsought, hexact, fun hacross => absurd (hstop.symm.trans hacross) nofun,
      fun hne => absurd hstop hne⟩
  · exact ⟨hsought, hexact, fun hacross => (h.past (hsame ▸ hacross)).trans hle,
      fun hne => (h.beyond (hsame ▸ hne)).trans hle⟩

theorem SnipCond.Tracked.counted {cond : SnipCond} (h : cond.Tracked t width w) (n : Nat) :
    SnipCond.Tracked { cond with count := n } t width w :=
  ⟨h.sought.counted n, ⟨h.exact.start, h.exact.stop, h.exact.reach⟩, h.past, h.beyond⟩

theorem SnipCond.Tracked.across {cond : SnipCond} (h : cond.Tracked t width w)
    (hflag : cond.stopflag = .nonstop) (hpast : width ≤ cond.endOffset) :
    SnipCond.Tracked { cond with stopflag := .across } t width w :=
  ⟨h.sought.across hflag, ⟨h.exact.start, h.exact.stop, h.exact.reach⟩, fun _ => hpast,
    fun _ => h.beyond (by rw [hflag]; decide)⟩

/-- All conditions. -/
def AllTracked (t : Text) (width w : Nat) (conds : List TaggedCond) : Prop :=
  ∀ c ∈ conds, c.cond.Tracked t width w

theorem AllTracked.set {conds : List TaggedCond} (h : AllTracked t width w conds) (i : Nat)
    {c : TaggedCond} (hc : c.cond.Tracked t width w) : AllTracked t width w (conds.set i c) := by
  intro c' hc'
  rcases List.mem_or_eq_of_mem_set hc' with hmem | rfl
  · exact h c' hmem
  · exact hc

theorem tuneCond_tracked {conds conds' : List TaggedCond} {i : Nat}
    (h : AllTracked t width w conds) (ht : t.Sound) (hf : f.skipLeadingSpaces = false)
    (htune : tuneCond t f conds i = some conds') : AllTracked t width w conds' := by
  obtain ⟨c, hc, htune⟩ := Option.bind_eq_some_iff.mp htune
  obtain ⟨cond', hbm, rfl⟩ := Option.map_eq_some_iff.mp htune
  rw [hf] at hbm
  exact h.set i ((h c (List.mem_of_getElem? hc)).tune ht hbm)

/-- The first occurrence of a snippet, which has recorded occurrences up to `lastEnd`. -/
structure TagResult.Leads (u : TagResult) (t : Text) (start lastEnd : Nat) : Prop where
  start : u.startOffset = start
  proper : u.startOffset < u.endOffset
  le : u.endOffset ≤ lastEnd
  offset : t.Offset u.startOffset
  stop : t.Offset u.endOffset

/-- A snippet while it is filled. -/
structure Filling.Tracked (t : Text) (width w : Nat) (st : Filling) : Prop where
  conds : AllTracked t width w st.conds
  first : 0 < st.tagCount → ∃ u, st.tags[st.first]? = some u ∧ u.Leads t st.start st.lastEnd
  last : 0 < st.tagCount → st.lastTagEnd = st.lastEnd ∧ st.lastEnd ≤ st.start + width ∧
    w ≤ st.lastEnd ∧ t.Offset st.lastEnd
  found : st.found = true → 0 < st.tagCount

/-- Whatever a search has found ends behind the first `width` bytes of the text. -/
def Behind (width : Nat) (conds : List TaggedCond) : Prop :=
  ∀ c ∈ conds, c.cond.stopflag ≠ .stop → width ≤ c.cond.endOffset

/-- What one round keeps. When it is the last one, there is no room for a tag left or every
search is behind the start of the text. -/
structure Filling.Follows (t : Text) (width w : Nat) (st st' : Filling) (more : Bool) :
    Prop where
  tracked : st'.Tracked t width w
  tags : st.tags <+: st'.tags
  room : more = true → st'.tags.length < maxSnipTagCount
  done : more = false → st'.tags.length = maxSnipTagCount ∨
    st'.tags.length < maxSnipTagCount ∧ Behind width st'.conds

theorem Filling.Tracked.with_conds {st : Filling} (h : st.Tracked t width w)
    {conds : List TaggedCond} (hconds : AllTracked t width w conds) :
    Filling.Tracked t width w { st with conds := conds } :=
  ⟨hconds, h.first, h.last, h.found⟩

theorem Filling.Tracked.tune {st st' : Filling} (h : st.Tracked t width w) (ht : t.Sound)
    (hf : f.skipLeadingSpaces = false) (hroom : st.tags.length < maxSnipTagCount) {i : Nat}
    {more : Bool} (htune : Filling.tune t f st i = some (more, st')) :
    st.Follows t width w st' more := by
  obtain ⟨conds, hconds, heq⟩ := Option.map_eq_some_iff.mp htune
  obtain ⟨rfl, rfl⟩ := Prod.ext_iff.mp heq
  exact ⟨h.with_conds (tuneCond_tracked h.conds ht hf hconds), List.prefix_rfl, fun _ => hroom,
    nofun⟩

/-- **Recording an occurrence.** -/
theorem Filling.Tracked.record {st : Filling} (h : st.Tracked t width w) {i : Nat}
    {c : TaggedCond} (hc : st.conds[i]? = some c) (hflag : c.cond.stopflag = .nonstop)
    (hfirst : st.tagCount = 0 → st.first = st.tags.length ∧ st.start = c.cond.startOffset)
    (hlast : 0 < st.tagCount → st.lastTagEnd ≤ c.cond.startOffset)
    (hfits : c.cond.endOffset ≤ st.start + width) :
    (st.record i c).Tracked t width w := by
  have htracked := h.conds c (List.mem_of_getElem? hc)
  have hproper := htracked.sought.proper.resolve_left (by rw [hflag]; decide)
  refine ⟨h.conds.set i (htracked.counted _), fun _ => ?_, fun _ => ?_, fun _ => Nat.succ_pos _⟩
  · show ∃ u, (st.tags ++ [⟨c.cond.startOffset, c.cond.endOffset, i⟩])[st.first]? = some u ∧ _
    rcases Nat.eq_zero_or_pos st.tagCount with hzero | hpos
    · obtain ⟨hidx, hstart⟩ := hfirst hzero
      refine ⟨⟨c.cond.startOffset, c.cond.endOffset, i⟩, ?_, hstart.symm, hproper, le_rfl,
        ⟨_, htracked.exact.start⟩, htracked.exact.stop⟩
      rw [hidx, List.getElem?_append_right le_rfl, Nat.sub_self]
      rfl
    · obtain ⟨u, hu, hleads⟩ := h.first hpos
      have hends : u.endOffset ≤ c.cond.endOffset :=
        calc u.endOffset ≤ st.lastEnd := hleads.le
          _ = st.lastTagEnd := (h.last hpos).1.symm
          _ ≤ c.cond.startOffset := hlast hpos
          _ ≤ c.cond.endOffset := hproper.le
      refine ⟨u, ?_, hleads.start, hleads.proper, hends, hleads.offset, hleads.stop⟩
      rw [List.getElem?_append_left (List.getElem?_eq_some_iff.mp hu).1, hu]
  · exact ⟨rfl, hfits, htracked.beyond (by rw [hflag]; decide), htracked.exact.stop⟩

theorem Filling.Tracked.tag {st st' : Filling} (h : st.Tracked t width w) (ht : t.Sound)
    (hf : f.skipLeadingSpaces = false) (hroom : st.tags.length < maxSnipTagCount) {i : Nat}
    {c : TaggedCond} {more : Bool} (hc : st.conds[i]? = some c)
    (hflag : c.cond.stopflag = .nonstop)
    (hfirst : st.tagCount = 0 → st.first = st.tags.length ∧ st.start = c.cond.startOffset)
    (hlast : 0 < st.tagCount → st.lastTagEnd ≤ c.cond.startOffset)
    (hsmall : st.start + width < 2 ^ 64)
    (htag : Filling.tag t f width st i c = some (more, st')) : st.Follows t width w st' more := by
  have htracked := h.conds c (List.mem_of_getElem? hc)
  unfold Filling.tag at htag
  rw [Nat.mod_eq_of_lt hsmall] at htag
  by_cases hacross : c.cond.endOffset > st.start + width
  · rw [if_pos hacross] at htag
    have hconds : AllTracked t width w
        (st.conds.set i { c with cond := { c.cond with stopflag := .across } }) :=
      h.conds.set i (htracked.across hflag (by omega))
    obtain ⟨htracked', htags, hmore, hdone⟩ := (h.with_conds hconds).tune ht hf hroom htag
    exact ⟨htracked', htags, hmore, hdone⟩
  · rw [if_neg hacross] at htag
    have hrecord := h.record hc hflag hfirst hlast (Nat.le_of_not_lt hacross)
    have hlen : (st.record i c).tags.length = st.tags.length + 1 := List.length_append
    by_cases hfull : (st.record i c).tags.length ≥ maxSnipTagCount
    · rw [if_pos hfull] at htag
      obtain ⟨rfl, rfl⟩ := Prod.ext_iff.mp (Option.some.inj htag)
      exact ⟨hrecord, List.prefix_append _ _, nofun, fun _ => .inl (by dsimp only; omega)⟩
    · rw [if_neg hfull] at htag
      obtain ⟨htracked', htags, hmore, hdone⟩ :=
        hrecord.tune ht hf (Nat.lt_of_not_le hfull) htag
      exact ⟨htracked', (List.prefix_append _ _).trans htags, hmore, hdone⟩

/-- **One round.** -/
theorem Filling.Tracked.step {st st' : Filling} (h : st.Tracked t width w) (ht : t.Sound)
    (hf : f.skipLeadingSpaces = false) (hroom : st.tags.length < maxSnipTagCount)
    (hsmall : ∀ n, t.upTo n + width < 2 ^ 64 - 1) {more : Bool}
    (hstep : Filling.step t f width rest st = some (more, st')) :
    st.Follows t width w st' more := by
  unfold Filling.step at hstep
  cases hnext : nextCond st.conds with
  | none =>
      simp only [hnext] at hstep
      obtain ⟨rfl, rfl⟩ := Prod.ext_iff.mp (Option.some.inj hstep)
      refine ⟨h, List.prefix_rfl, nofun, fun _ => .inr ⟨hroom, fun c hc hne => ?_⟩⟩
      cases hflag : c.cond.stopflag with
      | nonstop =>
          have hfar := nextCond_none hnext c hc hflag
          rw [(h.conds c hc).exact.start] at hfar
          have := hsmall c.cond.lastFound
          omega
      | stop => exact absurd hflag hne
      | across => exact (h.conds c hc).past hflag
  | some i =>
      obtain ⟨c, hc, hflag, hleast⟩ := nextCond_least hnext
      have htracked := h.conds c (List.mem_of_getElem? hc)
      have hstart : c.cond.startOffset + width < 2 ^ 64 := by
        rw [htracked.exact.start]
        exact (hsmall _).trans (by decide)
      simp only [hnext, hc, Option.bind_some] at hstep
      by_cases hcount : st.tagCount = 0
      · rw [if_pos hcount] at hstep
        split_ifs at hstep
        · exact h.tune ht hf hroom hstep
        · have hnone : ∀ {P : Prop}, 0 < st.tagCount → P := fun hpos => absurd hcount (by omega)
          have hblank : Filling.Tracked t width w
              { st with start := c.cond.startOffset, first := st.tags.length } :=
            ⟨h.conds, hnone, hnone, h.found⟩
          obtain ⟨htracked', htags, hmore, hdone⟩ :=
            hblank.tag ht hf hroom hc hflag (fun _ => ⟨rfl, rfl⟩) hnone hstart hstep
          exact ⟨htracked', htags, hmore, hdone⟩
      · rw [if_neg hcount] at hstep
        obtain ⟨u, -, hleads⟩ := h.first (Nat.pos_of_ne_zero hcount)
        have hstart' : st.start + width < 2 ^ 64 := by
          obtain ⟨n, hn⟩ := hleads.offset
          rw [← hleads.start, hn]
          exact (hsmall n).trans (by decide)
        rw [Nat.mod_eq_of_lt hstart'] at hstep
        split_ifs at hstep with hbehind hbefore
        · obtain ⟨rfl, rfl⟩ := Prod.ext_iff.mp (Option.some.inj hstep)
          refine ⟨h, List.prefix_rfl, nofun, fun _ => .inr ⟨hroom, fun c' hc' hne => ?_⟩⟩
          cases hflag' : c'.cond.stopflag with
          | nonstop =>
              have hge := hleast c' hc' hflag'
              have hproper := (h.conds c' hc').sought.proper.resolve_left hne
              omega
          | stop => exact absurd hflag' hne
          | across => exact (h.conds c' hc').past hflag'
        · exact h.tune ht hf hroom hstep
        · exact h.tag ht hf hroom hc hflag (fun hzero => absurd hzero hcount)
            (fun _ => Nat.le_of_not_lt hbefore) hstart' hstep

/-- **Filling a snippet.** -/
theorem Filling.Tracked.run {st st' : Filling} (h : st.Tracked t width w) (ht : t.Sound)
    (hf : f.skipLeadingSpaces = false) (hroom : st.tags.length < maxSnipTagCount)
    (hsmall : ∀ n, t.upTo n + width < 2 ^ 64 - 1) {k : Nat}
    (hrun : Filling.run t f width rest k st = some st') : st.Follows t width w st' false := by
  induction k generalizing st with
  | zero => exact absurd hrun nofun
  | succ k ih =>
      obtain ⟨⟨more, st₁⟩, hstep, hrun⟩ := Option.bind_eq_some_iff.mp hrun
      have hfollows := h.step ht hf hroom hsmall hstep
      cases more with
      | true =>
          obtain ⟨htracked, htags, hmore, hdone⟩ := ih hfollows.tracked (hfollows.room rfl) hrun
          exact ⟨htracked, hfollows.tags.trans htags, hmore, hdone⟩
      | false =>
          obtain rfl := Option.some.inj hrun
          exact hfollows

end

section

variable {s : List UInt8} {encoding : SenEncoding} {width last : Nat}

/-- The slice `[start, stop)` of the text `s`, which is not longer than `width`. -/
structure IsSlice (encoding : SenEncoding) (s : List UInt8) (width start stop : Nat) : Prop where
  le : start ≤ stop
  le_length : stop ≤ s.length
  width : stop - start ≤ width
  start : Boundary encoding s start
  stop : Boundary encoding s stop

/-- The place that a slice is moved to, before it goes to the start of a character. -/
theorem movedStart_spec {start lastEnd moved : Nat} (hlen : s.length < 2 ^ 32)
    (hwidth : width < 2 ^ 32) (hend : lastEnd ≤ s.length) (hlt : start < lastEnd)
    (hfits : lastEnd ≤ start + width) (hfar : last = 0 ∨ width ≤ lastEnd)
    (hlast : last ≤ s.length)
    (hmoved : (if (start + lastEnd) % 2 ^ 64 < width then 0
      else max (min (toSize (start + lastEnd - width) / 2) (toSize (s.length - width))) last) =
        moved) :
    moved ≤ s.length ∧ last ≤ moved ∧ (last ≤ start → moved ≤ start ∧ lastEnd ≤ moved + width) := by
  have hmod : (start + lastEnd) % 2 ^ 64 = start + lastEnd := Nat.mod_eq_of_lt (by omega)
  rw [hmod] at hmoved
  split_ifs at hmoved with hshort
  · omega
  · have hhalf : toSize (start + lastEnd - width) = start + lastEnd - width := by
      unfold toSize
      omega
    have hback : toSize (s.length - width) = s.length - width ∨
        s.length < width ∧ 2 ^ 63 ≤ toSize (s.length - width) := by
      unfold toSize
      omega
    rw [hhalf] at hmoved
    omega

/-- **The slice that is shown.** It starts behind the previous one; unless this moves its start
behind that of the first occurrence, all occurrences lie in it. -/
theorem Filling.place_slice (h : IsText encoding s) (hpairs : PairsOnly encoding s)
    (hlen : s.length < 2 ^ 32) (hwidth : width < 2 ^ 32) {st : Filling}
    (hlast : Boundary encoding s last) (hstart : Boundary encoding s st.start)
    (hend : Boundary encoding s st.lastEnd) (hlt : st.start < st.lastEnd)
    (hfits : st.lastEnd ≤ st.start + width) (hfar : last = 0 ∨ width ≤ st.lastEnd) :
    ∃ start stop mapped, Filling.place width s encoding last st = some (start, stop, mapped) ∧
      IsSlice encoding s width start stop ∧ last ≤ start ∧
      (last ≤ st.start → start ≤ st.start ∧ st.lastEnd ≤ stop) := by
  generalize hmoved : (if (st.start + st.lastEnd) % 2 ^ 64 < width then 0
    else max (min (toSize (st.start + st.lastEnd - width) / 2) (toSize (s.length - width))) last) =
      moved
  obtain ⟨hmovedLe, hmovedGe, hmovedFits⟩ :=
    movedStart_spec hlen hwidth hend.le hlt hfits hfar hlast.le hmoved
  obtain ⟨start, hfind, hge, hstartB, hleast⟩ :=
    senSnipFindFirstbyte_forward h hpairs (k := s.length + 2) hmovedLe (by omega)
  have hstartLe := hstartB.le
  have hmod : (start + width) % 2 ^ 64 = start + width := Nat.mod_eq_of_lt (by omega)
  obtain ⟨stop, hstop, hslice, hreach⟩ : ∃ stop,
      (if start + width < s.length then
        senSnipFindFirstbyte s encoding false (s.length + 2) (start + width)
      else some s.length) = some stop ∧ IsSlice encoding s width start stop ∧
      ∀ b, Boundary encoding s b → b ≤ start + width → b ≤ stop := by
    by_cases hcut : start + width < s.length
    · rw [if_pos hcut]
      obtain ⟨stop, hfind, hle, hstopB, hgreatest⟩ :=
        senSnipFindFirstbyte_backward h hpairs (k := s.length + 2) hcut.le (by omega)
      exact ⟨stop, hfind, ⟨hgreatest start hstartB (Nat.le_add_right _ _), hstopB.le, by omega,
        hstartB, hstopB⟩, hgreatest⟩
    · rw [if_neg hcut]
      exact ⟨s.length, rfl, ⟨hstartLe, le_rfl, by omega, hstartB, h.boundary_length⟩,
        fun b hb _ => hb.le⟩
  refine ⟨start, stop, (((s.drop start).take (stop - start)).map mappedWidth).sum, ?_, hslice,
    hmovedGe.trans hge, fun hbefore => ?_⟩
  · have hcount : countMappedChars s start stop =
        some (((s.drop start).take (stop - start)).map mappedWidth).sum :=
      if_pos ⟨hslice.le, hslice.le_length⟩
    unfold Filling.place
    simp only [Option.bind_eq_bind]
    rw [hmoved, hfind, Option.bind_some, hmod]
    split_ifs at hstop ⊢
    · rw [hstop, Option.bind_some, hcount]
      rfl
    · rw [hstop, Option.bind_some, hcount]
      rfl
  · obtain ⟨hle, hcovers⟩ := hmovedFits hbefore
    have hstart' := hleast st.start hstart hle
    exact ⟨hstart', hreach st.lastEnd hend (by omega)⟩

end

/-- The end of the last one of some snippets. -/
def lastStop (results : List SnipResult) : Nat := (results.getLast?).elim 0 fun r => r.endOffset

/-- The snippets of one execution: slices of the text, one behind the other. Each shows the first
occurrence recorded for it exactly if this starts at or behind the end of the previous one. -/
structure Slices (encoding : SenEncoding) (s : List UInt8) (width : Nat)
    (tags : List TagResult) (results : List SnipResult) : Prop where
  slice : ∀ r ∈ results, IsSlice encoding s width r.startOffset r.endOffset
  apart : results.Pairwise fun r r' => r.endOffset ≤ r'.startOffset
  first : ∀ index r, results[index]? = some r → ∃ u, tags[r.firstTagResultIdx]? = some u ∧
    (r.startOffset ≤ u.startOffset ∧ u.endOffset ≤ r.endOffset ↔
      lastStop (results.take index) ≤ u.startOffset)

section

variable {s : List UInt8} {encoding : SenEncoding} {width : Nat} {tags : List TagResult}
  {results : List SnipResult}

theorem Slices.nil : Slices encoding s width [] [] :=
  ⟨nofun, .nil, nofun⟩

theorem Slices.boundary_lastStop (h : Slices encoding s width tags results)
    (hs : IsText encoding s) : Boundary encoding s (lastStop results) := by
  unfold lastStop
  cases hlast : results.getLast? with
  | none => exact hs.boundary_zero
  | some r => exact (h.slice r (List.mem_of_getLast? hlast)).stop

theorem Slices.le_lastStop (h : Slices encoding s width tags results) :
    ∀ r ∈ results, r.endOffset ≤ lastStop results := by
  intro r hr
  obtain ⟨init, last, rfl⟩ : ∃ init last, results = init ++ [last] :=
    ⟨_, _, (List.dropLast_append_getLast (List.ne_nil_of_mem hr)).symm⟩
  have hlast : lastStop (init ++ [last]) = last.endOffset := by
    unfold lastStop
    rw [List.getLast?_append_of_ne_nil _ (List.cons_ne_nil _ _)]
    rfl
  rw [hlast]
  rcases List.mem_append.mp hr with hr | hr
  · have hle := (List.pairwise_append.mp h.apart).2.2 r hr last (List.mem_singleton.mpr rfl)
    exact hle.trans (h.slice last (by simp)).le
  · rw [List.mem_singleton.mp hr]

/-- Later tags change nothing. -/
theorem Slices.mono {tags' : List TagResult} (h : Slices encoding s width tags results)
    (hmore : tags <+: tags') : Slices encoding s width tags' results := by
  obtain ⟨more, rfl⟩ := hmore
  refine ⟨h.slice, h.apart, fun index r hr => ?_⟩
  obtain ⟨u, hu, hiff⟩ := h.first index r hr
  refine ⟨u, ?_, hiff⟩
  rw [List.getElem?_append_left (List.getElem?_eq_some_iff.mp hu).1, hu]

/-- One more snippet. -/
theorem Slices.concat (h : Slices encoding s width tags results) {r : SnipResult}
    (hslice : IsSlice encoding s width r.startOffset r.endOffset)
    (hbehind : lastStop results ≤ r.startOffset) {u : TagResult}
    (hu : tags[r.firstTagResultIdx]? = some u)
    (hfirst : lastStop results ≤ u.startOffset →
      r.startOffset ≤ u.startOffset ∧ u.endOffset ≤ r.endOffset) :
    Slices encoding s width tags (results ++ [r]) where
  slice := by
    intro r' hr'
    rcases List.mem_append.mp hr' with hr' | hr'
    · exact h.slice r' hr'
    · rw [List.mem_singleton.mp hr']
      exact hslice
  apart := by
    refine List.pairwise_append.mpr ⟨h.apart, List.pairwise_singleton _ _,
        fun r' hr' r'' hr'' => ?_⟩
    rw [List.mem_singleton.mp hr'']
    exact (h.le_lastStop r' hr').trans hbehind
  first := by
    intro index r' hr'
    rcases Nat.lt_or_ge index results.length with hlt | hge
    · rw [List.getElem?_append_left hlt] at hr'
      rw [List.take_append_of_le_length hlt.le]
      exact h.first index r' hr'
    · have hindex : index = results.length := by
        have hlt := (List.getElem?_eq_some_iff.mp hr').1
        rw [List.length_append, List.length_singleton] at hlt
        omega
      subst hindex
      rw [List.getElem?_append_right le_rfl, Nat.sub_self] at hr'
      obtain rfl := Option.some.inj hr'
      rw [List.take_left]
      exact ⟨u, hu, fun hshown => hbehind.trans hshown.1, hfirst⟩

end

section

variable {t : Text} {f : SnipFlags} {s : List UInt8} {encoding : SenEncoding} {width : Nat}

/-- The state between two snippets. -/
structure Snippets.Tracked (t : Text) (encoding : SenEncoding) (s : List UInt8) (width : Nat)
    (p : Snippets) : Prop where
  conds : AllTracked t width (if p.results = [] then 0 else width) p.conds
  room : p.tags.length < maxSnipTagCount
  slices : Slices encoding s width p.tags p.results
  last : p.lastLastEnd = lastStop p.results

/-- The text that is cut and the text that is searched fit together. -/
structure Aligned (t : Text) (encoding : SenEncoding) (s : List UInt8) : Prop where
  sound : t.Sound
  text : IsText encoding s
  pairs : PairsOnly encoding s
  length_lt : s.length < 2 ^ 32
  boundary : ∀ i, Boundary encoding s (t.upTo i)

theorem AllTracked.reset {conds : List TaggedCond} {w : Nat} (h : AllTracked t width w conds)
    (hbehind : Behind width conds) :
    AllTracked t width width (conds.map fun c =>
      if c.cond.stopflag = .stop then c
      else { c with cond := { c.cond with stopflag := .nonstop } }) := by
  intro c hc
  obtain ⟨c₀, hc₀, rfl⟩ := List.mem_map.mp hc
  obtain ⟨hsought, hexact, hpast, -⟩ := h c₀ hc₀
  split_ifs with hstop
  · exact ⟨hsought, hexact, hpast, fun hne => absurd hstop hne⟩
  · exact ⟨hsought.reset hstop, ⟨hexact.start, hexact.stop, hexact.reach⟩, nofun,
      fun _ => hbehind c₀ hc₀ hstop⟩

/-- **All snippets** are made, and they are slices of the text. -/
theorem Snippets.Tracked.run {p : Snippets} (h : p.Tracked t encoding s width)
    (ha : Aligned t encoding s) (hf : f.skipLeadingSpaces = false) (hwidth : width < 2 ^ 32)
    (k : Nat) :
    ∃ p', Snippets.run t f width s encoding k p = some p' ∧
      Slices encoding s width p'.tags p'.results := by
  induction k generalizing p with
  | zero => exact ⟨p, rfl, h.slices⟩
  | succ k ih =>
      have hblank : p.blank.Tracked t width (if p.results = [] then 0 else width) :=
        ⟨h.conds, fun hpos => absurd hpos (lt_irrefl 0), fun hpos => absurd hpos (lt_irrefl 0),
          fun hfound => absurd hfound Bool.false_ne_true⟩
      have hsmall : ∀ n, t.upTo n + width < 2 ^ 64 - 1 := by
        intro n
        have := (ha.boundary n).le
        have := ha.length_lt
        omega
      have hsought : AllSought t p.conds := fun c hc => (h.conds c hc).sought
      obtain ⟨st, hfill⟩ : ∃ st, Filling.run t f width (k + 1) (fillRounds t p.conds) p.blank =
          some st :=
        Filling.run_returns (Snippets.blank_ok hsought) ha.sound (searchReturns_of_not_skip hf)
          (ahead_lt_fillRounds t p.conds)
      obtain ⟨htracked, htags, -, hdone⟩ := hblank.run ha.sound hf h.room hsmall hfill
      by_cases hfound : st.found = true
      · have hpos := htracked.found hfound
        obtain ⟨u, hu, hleads⟩ := htracked.first hpos
        obtain ⟨-, hfits, hfar, ⟨e, he⟩⟩ := htracked.last hpos
        have hstart : Boundary encoding s st.start := by
          obtain ⟨n, hn⟩ := hleads.offset
          rw [← hleads.start, hn]
          exact ha.boundary n
        have hproper : st.start < st.lastEnd :=
          hleads.start ▸ hleads.proper.trans_le hleads.le
        have hlast : p.lastLastEnd = 0 ∨ width ≤ st.lastEnd := by
          rw [h.last]
          by_cases hnil : p.results = []
          · rw [hnil]
            exact .inl rfl
          · rw [if_neg hnil] at hfar
            exact .inr hfar
        obtain ⟨start, stop, mapped, hplace, hslice, hbehind, hcovers⟩ :=
          Filling.place_slice ha.text ha.pairs ha.length_lt hwidth
            (h.last ▸ h.slices.boundary_lastStop ha.text) hstart (he ▸ ha.boundary e) hproper
            hfits hlast
        rw [h.last] at hbehind hcovers
        have hslices : Slices encoding s width st.tags (p.results ++
            [⟨start, stop, st.first, st.tags.length - 1, st.tagCount⟩]) := by
          refine (h.slices.mono htags).concat hslice hbehind hu fun hle => ?_
          rw [hleads.start] at hle ⊢
          obtain ⟨hstart', hstop'⟩ := hcovers hle
          exact ⟨hstart', hleads.le.trans hstop'⟩
        have hmore : ¬(!st.found) = true := by
          rw [hfound]
          decide
        unfold Snippets.run
        simp only [Option.bind_eq_bind, hfill, Option.bind_some, if_neg hmore, hplace]
        split_ifs with hfull hstopped
        · exact ⟨_, rfl, hslices⟩
        · exact ⟨_, rfl, hslices⟩
        · have hroom := (hdone rfl).resolve_left fun hlen => hfull (.inr hlen)
          refine ih ⟨?_, hroom.1, hslices, ?_⟩
          · rw [if_neg (List.append_ne_nil_of_right_ne_nil _ (List.cons_ne_nil _ _))]
            exact htracked.conds.reset hroom.2
          · unfold lastStop
            rw [List.getLast?_concat]
            rfl
      · refine ⟨{ p with conds := st.conds, unfound := st.unfound, lastEnd := st.lastEnd }, ?_,
          h.slices⟩
        unfold Snippets.run
        simp only [Option.bind_eq_bind, hfill, Option.bind_some]
        rw [if_pos (by simpa using hfound)]

/-- The first search of every condition. -/
theorem tuneAll_tracked {conds : List TaggedCond} (ht : t.Sound)
    (hf : f.skipLeadingSpaces = false)
    (h : ∀ c ∈ conds, (∃ x, c.cond.Ready t x) ∧ c.cond.lastFound = 0 ∧ c.cond.startOffset = 0 ∧
      c.cond.endOffset = 0 ∧ c.cond.stopflag = .nonstop) :
    ∃ conds', tuneAll t f conds = some conds' ∧ AllTracked t width 0 conds' := by
  induction conds with
  | nil => exact ⟨[], rfl, nofun⟩
  | cons c cs ih =>
      obtain ⟨⟨⟨x, hx⟩, hlast, hstart, hend, hflag⟩, hcs⟩ := List.forall_mem_cons.mp h
      obtain ⟨cs', htune, htracked⟩ := ih hcs
      obtain ⟨cond, hbm⟩ := searchReturns_of_not_skip hf c.cond x hx
      have hplaced : c.cond.Placed t := ⟨by omega, .inl hlast, by omega⟩
      have hexact : c.cond.Exact t := ⟨by rw [hlast]; exact hstart, ⟨0, hend⟩, by omega⟩
      obtain ⟨hsought, -, hmove⟩ := senBmTunedbm_sought hx hplaced ht hbm
      rw [hf] at hbm
      obtain ⟨hexact', -⟩ := senBmTunedbm_exact hx hplaced hexact ht hbm
      refine ⟨{ c with cond := cond } :: cs', ?_, List.forall_mem_cons.mpr ⟨⟨hsought, hexact',
        fun hacross => ?_, fun _ => Nat.zero_le _⟩, htracked⟩⟩
      · unfold tuneAll
        rw [hf, hbm, htune]
        rfl
      · rcases hmove with hstop | ⟨-, hsame⟩
        · exact absurd (hstop.symm.trans hacross) nofun
        · exact absurd (hflag.symm.trans (hsame.symm.trans hacross)) nofun

/-- The snippets are slices where the offsets that are reported are boundaries of the text. -/
theorem slices_of_boundary {keywordOpen : List UInt8 → Option (List UInt8)}
    {nstrOpen : List UInt8 → Option Text}
    (hopens : ∀ string t, nstrOpen string = some t → t.Sound) {snip : SenSnip}
    (hmade : snip.Made keywordOpen nstrOpen) (hskip : snip.flags.skipLeadingSpaces = false)
    (hwidth : snip.width < 2 ^ 32) {string : List UInt8} (hlen : string.length < 2 ^ 32)
    (htext : IsText snip.encoding string) (hpairs : PairsOnly snip.encoding string)
    (hboundary : ∀ t, nstrOpen string = some t → ∀ i, Boundary snip.encoding string (t.upTo i)) :
    ∃ rc snip', senSnipExec nstrOpen snip string = some (rc, snip') ∧
      Slices snip.encoding string snip.width snip'.tagResult snip'.snipResult := by
  unfold senSnipExec
  cases hopen : nstrOpen string with
  | none => exact ⟨_, _, rfl, .nil⟩
  | some t =>
      have ha : Aligned t snip.encoding string :=
        ⟨hopens string t hopen, htext, hpairs, hlen, hboundary t hopen⟩
      obtain ⟨conds, htune, htracked⟩ :
          ∃ conds, tuneAll t snip.flags (execClean snip).conds = some conds ∧
            AllTracked t snip.width 0 conds := by
        refine tuneAll_tracked ha.sound hskip fun c hc => ?_
        obtain ⟨c₀, hc₀, rfl⟩ := List.mem_map.mp hc
        exact ⟨hmade.reusable hopens c₀ hc₀ t, rfl, rfl, rfl, rfl⟩
      have hp : Snippets.Tracked t snip.encoding string snip.width
          ⟨conds, [], [], conds.length, 0, 0, 0⟩ :=
        ⟨by rwa [if_pos rfl], Nat.zero_lt_succ _, .nil, rfl⟩
      obtain ⟨p', hrun, hslices⟩ := hp.run ha hskip hwidth snip.maxResults
      refine ⟨.success, { execClean snip with
        string := string
        text := some t
        conds := p'.conds
        tagResult := p'.tags
        snipResult := p'.results
        maxTaggedLen := p'.maxTaggedLen }, ?_, hslices⟩
      show (tuneAll t snip.flags (execClean snip).conds).bind _ = _
      rw [htune, Option.bind_some]
      show (Snippets.run t snip.flags snip.width string snip.encoding snip.maxResults _).bind _ = _
      rw [hrun]
      rfl

/-- How `sen_snip_exec` opens a text: by `sen_nstr_open`, or by `sen_fakenstr_open` where
`SEN_SNIP_NORMALIZE` is not set. `alloc` tells for which texts memory can be had, and the length of
a text is an `unsigned int`. -/
def SnipFlags.openText (f : SnipFlags) (nstrOpen : List UInt8 → Option Text)
    (alloc : List UInt8 → Bool) (unset encoding : SenEncoding) (string : List UInt8) :
    Option Text :=
  if f.normalize then nstrOpen string
  else if alloc string ∧ string.length < 2 ^ 32 then some (senFakenstrOpen unset encoding string)
  else none

/-- Without normalization a text is opened as it is. -/
theorem openText_plain {f : SnipFlags} {nstrOpen : List UInt8 → Option Text}
    {alloc : List UInt8 → Bool} {unset encoding : SenEncoding} {string : List UInt8} {t : Text}
    (hnorm : f.normalize = false)
    (h : f.openText nstrOpen alloc unset encoding string = some t) :
    t = senFakenstrOpen unset encoding string ∧ string.length < 2 ^ 32 := by
  rw [SnipFlags.openText, if_neg (by rw [hnorm]; decide), Option.ite_none_right_eq_some] at h
  exact ⟨(Option.some.inj h.2).symm, h.1.2⟩

/-- **The snippets are slices.** Whatever keywords a snippet object has, an execution returns, its
snippets lie in the text, are not longer than `width`, start and end between characters, and come
one behind the other; each one shows the first occurrence recorded for it exactly if this does not
start before the end of the previous snippet. Where texts are normalized, this is so as far as the
offsets that `sen_nstr_open` tells are boundaries of the text. -/
theorem senSnipExec_slices {keywordOpen : List UInt8 → Option (List UInt8)}
    {nstrOpen : List UInt8 → Option Text} {alloc : List UInt8 → Bool} {unset : SenEncoding}
    {snip : SenSnip}
    (hmade : snip.Made keywordOpen (snip.flags.openText nstrOpen alloc unset snip.encoding))
    (hskip : snip.flags.skipLeadingSpaces = false) (hwidth : snip.width < 2 ^ 32)
    {string : List UInt8} (hlen : string.length < 2 ^ 32) (htext : IsText snip.encoding string)
    (hpairs : PairsOnly snip.encoding string)
    (hnorm : snip.flags.normalize = true → (∀ s t, nstrOpen s = some t → t.Sound) ∧
      ∀ t, nstrOpen string = some t → ∀ i, Boundary snip.encoding string (t.upTo i)) :
    ∃ rc snip', senSnipExec (snip.flags.openText nstrOpen alloc unset snip.encoding) snip string =
        some (rc, snip') ∧
      Slices snip.encoding string snip.width snip'.tagResult snip'.snipResult := by
  cases hflag : snip.flags.normalize with
  | false =>
      refine slices_of_boundary (fun s t ht => ?_) hmade hskip hwidth hlen htext hpairs
        fun t ht i => ?_
      · obtain ⟨rfl, hshort⟩ := openText_plain hflag ht
        exact senFakenstrOpen_sound hshort
      · obtain ⟨rfl, -⟩ := openText_plain hflag ht
        exact htext.fakenstr_boundary unset i
  | true =>
      obtain ⟨hsound, hboundary⟩ := hnorm hflag
      have hopen : ∀ s, snip.flags.openText nstrOpen alloc unset snip.encoding s = nstrOpen s :=
        fun s => if_pos hflag
      exact slices_of_boundary (fun s t ht => hsound s t (hopen s ▸ ht)) hmade hskip hwidth hlen
        htext hpairs fun t ht => hboundary t (hopen string ▸ ht)

end

/-- With the encoding `none` every byte is a character. -/
theorem isText_bytes (s : List UInt8) : IsText .none s := by
  induction s with
  | nil => exact .nil
  | cons b s ih =>
      have hb : IsSingle .none b := trivial
      exact .cons (.single hb) ih

theorem openText_tripleSnip : tripleSnip.flags.openText (fun _ => none) (fun _ => true) .none
    tripleSnip.encoding = plainOpen := by
  funext string
  have hplain : tripleSnip.flags.normalize = false := rfl
  rw [SnipFlags.openText, if_neg (by rw [hplain]; decide), plainOpen]
  simp only [true_and]
  rfl

/-- The keyword "aaa" in "aaaaaaaa", with two snippets of 5 bytes. -/
theorem senSnipExec_slices_triple :
    ∃ rc snip', senSnipExec plainOpen tripleSnip (List.replicate 8 0x61) = some (rc, snip') ∧
      Slices .none (List.replicate 8 0x61) 5 snip'.tagResult snip'.snipResult := by
  have hmade : tripleSnip.Made some (tripleSnip.flags.openText (fun _ => none) (fun _ => true) .none
      tripleSnip.encoding) := by
    rw [openText_tripleSnip]
    exact tripleSnip_made
  have htext : IsText tripleSnip.encoding (List.replicate 8 0x61) := isText_bytes _
  have hslices := senSnipExec_slices hmade rfl (by decide) (by decide) htext
    (fun h => absurd h (by decide)) (fun h => absurd h (by decide))
  rwa [openText_tripleSnip] at hslices

/-- `sen_fakenstr_open` for EUC-JP on a text of less than `2 ^ 32` bytes. -/
def eucOpen (string : List UInt8) : Option Text :=
  if string.length < 2 ^ 32 then some (senFakenstrOpen .none .eucJp string) else none

/-- One snippet of 3 bytes with the keyword "a", for EUC-JP. -/
def eucSnip : SenSnip :=
  (senSnipAddCond some { narrowSnip with encoding := .eucJp, width := 3, maxResults := 1 }
    [0x61] none none).2

/-- One snippet of 3 bytes with the keyword " a", with `SEN_SNIP_SKIP_LEADING_SPACES`. -/
def blankSnip : SenSnip :=
  (senSnipAddCond some
    { narrowSnip with flags := ⟨false, false, true⟩, width := 3, maxResults := 1 }
    [0x20, 0x61] none none).2

/-- What the premises exclude. The second snippet of "aaaaaaaa" starts behind the start of its
first occurrence. A character of three bytes in EUC-JP is cut at the end of a snippet. If blanks
are skipped, an occurrence is recorded that ends behind the text "x a". -/
theorem senSnipExec_slices_fails :
    (∃ snip' r u, senSnipExec plainOpen tripleSnip (List.replicate 8 0x61) =
        some (.success, snip') ∧ snip'.snipResult[1]? = some r ∧
      snip'.tagResult[r.firstTagResultIdx]? = some u ∧ u.startOffset < r.startOffset) ∧
    (IsText .eucJp [0x61, 0x8f, 0xb0, 0xa1] ∧
      ∃ snip' r, senSnipExec eucOpen eucSnip [0x61, 0x8f, 0xb0, 0xa1] = some (.success, snip') ∧
        snip'.snipResult[0]? = some r ∧
        ¬Boundary .eucJp [0x61, 0x8f, 0xb0, 0xa1] r.endOffset) ∧
    ∃ snip' r u, senSnipExec plainOpen blankSnip [0x78, 0x20, 0x61] = some (.success, snip') ∧
      snip'.snipResult[0]? = some r ∧ snip'.tagResult[r.firstTagResultIdx]? = some u ∧
      r.endOffset < u.endOffset := by
  refine ⟨?_, ⟨?_, ?_⟩, ?_⟩
  · exact ⟨_, ⟨5, 8, 1, 1, 1⟩, ⟨4, 7, 0⟩, rfl, rfl, rfl, by decide⟩
  · exact .cons (.single (by decide))
      (.cons (.eucTriple (by decide) (by decide)) .nil)
  · refine ⟨_, ⟨0, 3, 0, 0, 1⟩, rfl, rfl, fun h => ?_⟩
    have hrest : IsText .eucJp [0xa1] := h.after
    generalize hu : ([0xa1] : List UInt8) = u at hrest
    cases hrest with
    | nil => exact absurd hu nofun
    | cons hc _ =>
        cases hc with
        | single hb =>
            obtain ⟨rfl, -⟩ := List.cons.inj hu
            exact absurd hb (by decide)
        | eucPair _ _ => exact absurd (congrArg List.length hu) (by simp)
        | eucTriple _ _ => exact absurd (congrArg List.length hu) (by simp)
  · exact ⟨_, ⟨0, 3, 0, 0, 1⟩, ⟨2, 4, 0⟩, rfl, rfl, rfl, by decide⟩

end Senna.Snip
