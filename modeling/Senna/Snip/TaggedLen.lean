/-
# The length of a tagged snippet

`sen_snip_exec` adds up, for each snippet, the tags of the occurrences that it records and the
mapped bytes of the slice; the greatest sum is what a caller allocates for
`sen_snip_get_result`. That function writes the tags between the bytes of the slice, each one
at most once, so that it never writes more than the sum, wherever the slice was moved.

The sums are compared as `size_t` and kept as `unsigned int`: the bound needs that none of
them reaches `2 ^ 32`.
-/

import Senna.Snip.Recorded

namespace Senna.Snip

/-- The length of both tags of the condition `i`. -/
def tagLen (conds : List TaggedCond) (i : Nat) : Nat :=
  (conds[i]?).elim 0 fun c => c.opentag.length + c.closetag.length

/-- The length of the tags of some occurrences. -/
def tagsLen (conds : List TaggedCond) (tags : List TagResult) : Nat :=
  (tags.map fun u => tagLen conds u.cond).sum

/-- The number of bytes that `sen_snip_exec` counts for a snippet: its tags, the mapped bytes
of its slice, and the NUL. -/
def SenSnip.taggedLen (snip : SenSnip) (sres : SnipResult) : Nat :=
  tagsLen snip.conds (snip.tagsOf sres) +
    ((((snip.string.drop sres.startOffset).take
      (sres.endOffset - sres.startOffset)).map mappedWidth).sum + 1)

/-- The same tags. -/
def SameTags (conds conds' : List TaggedCond) : Prop :=
  conds.map (fun c => (c.opentag, c.closetag)) = conds'.map fun c => (c.opentag, c.closetag)

section

variable {conds conds' : List TaggedCond} {snip : SenSnip}

theorem SameTags.tagLen (h : SameTags conds conds') (i : Nat) :
    Snip.tagLen conds i = Snip.tagLen conds' i := by
  have hget := congrArg (fun l => l[i]?) h
  simp only [List.getElem?_map] at hget
  unfold Snip.tagLen
  cases hc : conds[i]? with
  | none =>
      rw [hc, Option.map_none] at hget
      rw [Option.map_eq_none_iff.mp hget.symm]
  | some c =>
      rw [hc, Option.map_some] at hget
      obtain ⟨c', hc', heq⟩ := Option.map_eq_some_iff.mp hget.symm
      obtain ⟨hopen, hclose⟩ := Prod.mk.inj heq
      rw [hc', Option.elim_some, Option.elim_some, hopen, hclose]

theorem SameTags.tagsLen (h : SameTags conds conds') (tags : List TagResult) :
    Snip.tagsLen conds tags = Snip.tagsLen conds' tags := by
  unfold Snip.tagsLen
  simp only [h.tagLen]

@[simp]
theorem tagsLen_append (conds : List TaggedCond) (tags more : List TagResult) :
    tagsLen conds (tags ++ more) = tagsLen conds tags + tagsLen conds more := by
  rw [tagsLen, List.map_append, List.sum_append]
  rfl

theorem SameTags.set {i : Nat} {c c' : TaggedCond} (h : SameTags conds conds')
    (hc : conds'[i]? = some c) (hopen : c'.opentag = c.opentag)
    (hclose : c'.closetag = c.closetag) : SameTags conds (conds'.set i c') := by
  have hget : (conds'.map fun c => (c.opentag, c.closetag))[i]? = some (c.opentag, c.closetag) := by
    rw [List.getElem?_map, hc]
    rfl
  obtain ⟨hi, hget⟩ := List.getElem?_eq_some_iff.mp hget
  rw [SameTags, List.map_set, hopen, hclose, h, ← hget, List.set_getElem_self hi]

/-- The length of what is written for some pieces. -/
def piecesLen (snip : SenSnip) (ps : List Piece) : Nat := (ps.flatMap (Piece.bytes snip)).length

theorem piecesLen_append (snip : SenSnip) (ps qs : List Piece) :
    piecesLen snip (ps ++ qs) = piecesLen snip ps + piecesLen snip qs := by
  rw [piecesLen, List.flatMap_append, List.length_append]
  rfl

theorem piecesLen_cons (snip : SenSnip) (p : Piece) (ps : List Piece) :
    piecesLen snip (p :: ps) = (p.bytes snip).length + piecesLen snip ps := by
  rw [piecesLen, List.flatMap_cons, List.length_append]
  rfl

/-- The length of the open tag of an occurrence, and of its close tag. -/
def openLen (snip : SenSnip) (u : TagResult) : Nat := ((Piece.opentag u.cond).bytes snip).length

def closeLen (snip : SenSnip) (u : TagResult) : Nat := ((Piece.closetag u.cond).bytes snip).length

theorem tagsLen_eq (snip : SenSnip) (tags : List TagResult) :
    tagsLen snip.conds tags = (tags.map (openLen snip)).sum + (tags.map (closeLen snip)).sum := by
  rw [tagsLen, ← List.sum_map_add]
  congr 1
  refine List.map_congr_left fun u _ => ?_
  simp only [tagLen, openLen, closeLen, Piece.bytes]
  cases snip.conds[u.cond]? <;> rfl

variable (snip) in
/-- An open tag that has been written is not written again. -/
theorem openTags_len (stop i : Nat) (j : List TagResult) :
    piecesLen snip (openTags stop i j).1 + ((openTags stop i j).2.map (openLen snip)).sum ≤
      (j.map (openLen snip)).sum := by
  induction j with
  | nil => exact le_rfl
  | cons u j ih =>
      rw [openTags, List.map_cons, List.sum_cons]
      by_cases hstart : u.startOffset = i
      · rw [if_pos hstart]
        dsimp only
        split_ifs
        · omega
        · rw [piecesLen_cons, openLen]
          omega
      · rw [if_neg hstart, List.map_cons, List.sum_cons]
        exact (Nat.zero_add _).le

variable (snip) in
/-- Behind a byte only tags of occurrences that end there are closed. -/
theorem closeTags_len (stop i : Nat) (k : List TagResult) :
    piecesLen snip (closeTags stop i k) ≤
      (k.map fun u => if u.endOffset = i + 1 then closeLen snip u else 0).sum := by
  induction k with
  | nil => exact le_rfl
  | cons u k ih =>
      rw [closeTags, List.map_cons, List.sum_cons]
      split_ifs with hstop hend
      · rw [piecesLen_cons, closeLen]
        omega
      · omega
      · exact Nat.zero_le _
      · exact Nat.zero_le _

theorem mappedByte_len (mapping : SnipMapping) (b : UInt8) :
    (mappedByte mapping b).length ≤ mappedWidth b := by
  unfold mappedByte mappedWidth
  split_ifs <;> simp_all

variable (snip) in
/-- **What is written** from the byte `i` on: `n` bytes, the open tags from `j` on, and the close
tags of occurrences that end behind `i`. -/
theorem resultLoop_len (stop : Nat) (tags : List TagResult) {n i : Nat} (j : List TagResult)
    (hn : i + n ≤ snip.string.length) :
    piecesLen snip (resultLoop stop tags n i j) ≤
      (((snip.string.drop i).take n).map mappedWidth).sum + (j.map (openLen snip)).sum +
        (tags.map fun u => if i < u.endOffset then closeLen snip u else 0).sum := by
  induction n generalizing i j with
  | zero => exact Nat.zero_le _
  | succ n ih =>
      have hi : i < snip.string.length := by omega
      have hopen := openTags_len snip stop i j
      have hrest := ih (openTags stop i j).2 (i := i + 1) (by omega)
      have hbyte : ((Piece.byte i).bytes snip).length ≤ mappedWidth snip.string[i] := by
        have hget : snip.string.getD i 0 = snip.string[i] := by
          rw [List.getD_eq_getElem?_getD, List.getElem?_eq_getElem hi]
          rfl
        rw [← hget]
        exact mappedByte_len _ _
      have hbytes : (((snip.string.drop i).take (n + 1)).map mappedWidth).sum =
          mappedWidth snip.string[i] +
            (((snip.string.drop (i + 1)).take n).map mappedWidth).sum := by
        rw [List.drop_eq_getElem_cons hi, List.take_succ_cons, List.map_cons, List.sum_cons]
      -- an occurrence ends here or behind the next byte
      have hclose : piecesLen snip (closeTags stop i tags.reverse) +
          (tags.map fun u => if i + 1 < u.endOffset then closeLen snip u else 0).sum ≤
            (tags.map fun u => if i < u.endOffset then closeLen snip u else 0).sum := by
        have hhere := closeTags_len snip stop i tags.reverse
        rw [List.map_reverse, List.sum_reverse] at hhere
        refine (Nat.add_le_add_right hhere _).trans ?_
        rw [← List.sum_map_add]
        refine List.sum_le_sum fun u _ => ?_
        split_ifs <;> omega
      rw [resultLoop, piecesLen_append, piecesLen_append, piecesLen_cons]
      omega

/-- **The length of a result** does not exceed what was counted for its snippet. -/
theorem senSnipResultBytes_le {index : Nat} {sres : SnipResult}
    (hindex : snip.snipResult[index]? = some sres) (hle : sres.startOffset ≤ sres.endOffset)
    (hstop : sres.endOffset ≤ snip.string.length) :
    (senSnipResultBytes snip index).length + 1 ≤ snip.taggedLen sres := by
  unfold senSnipResultBytes senSnipGetResult
  rw [hindex]
  cases htext : snip.text with
  | none => exact Nat.le_add_left _ _
  | some t =>
      have hloop := resultLoop_len snip sres.endOffset (snip.tagsOf sres)
        (snip.tagsOf sres) (show sres.startOffset + (sres.endOffset - sres.startOffset) ≤
            _ by omega)
      have hclose : ((snip.tagsOf sres).map fun u =>
          if sres.startOffset < u.endOffset then closeLen snip u else 0).sum ≤
            ((snip.tagsOf sres).map (closeLen snip)).sum := by
        refine List.sum_le_sum fun u _ => ?_
        split_ifs
        · exact le_rfl
        · exact Nat.zero_le _
      have hlen : piecesLen snip (resultLoop sres.endOffset (snip.tagsOf sres)
          (sres.endOffset - sres.startOffset) sres.startOffset (snip.tagsOf sres)) + 1 ≤
            snip.taggedLen sres := by
        rw [SenSnip.taggedLen, tagsLen_eq]
        omega
      exact hlen

variable {t : Text} {f : SnipFlags} {width rest : Nat}

theorem tuneCond_sameTags {conds₀ : List TaggedCond} {i : Nat} (h : SameTags conds₀ conds)
    (htune : tuneCond t f conds i = some conds') : SameTags conds₀ conds' := by
  obtain ⟨c, hc, htune⟩ := Option.bind_eq_some_iff.mp htune
  obtain ⟨cond, -, rfl⟩ := Option.map_eq_some_iff.mp htune
  exact h.set hc rfl rfl

/-- The state while a snippet is filled: `taggedLen` are the tags of the occurrences recorded
for it. -/
structure Filling.Counted (conds : List TaggedCond) (st : Filling) : Prop where
  same : SameTags conds st.conds
  first : 0 < st.tagCount → st.first < st.tags.length
  len : st.taggedLen = if st.tagCount = 0 then 0 else tagsLen conds (st.tags.drop st.first)
  found : st.found = true → 0 < st.tagCount

/-- What one round keeps. -/
structure Filling.Counts (conds : List TaggedCond) (st st' : Filling) : Prop where
  counted : st'.Counted conds
  tags : st.tags <+: st'.tags

theorem Filling.Counted.tune {st st' : Filling} (h : st.Counted conds) {i : Nat} {more : Bool}
    (htune : Filling.tune t f st i = some (more, st')) : st.Counts conds st' := by
  obtain ⟨conds', hconds, heq⟩ := Option.map_eq_some_iff.mp htune
  obtain rfl : { st with conds := conds' } = st' := congrArg Prod.snd heq
  exact ⟨⟨tuneCond_sameTags h.same hconds, h.first, h.len, h.found⟩, List.prefix_rfl⟩

/-- **Recording an occurrence** counts its tags. -/
theorem Filling.Counted.record {st : Filling} (h : st.Counted conds) {i : Nat} {c : TaggedCond}
    (hc : st.conds[i]? = some c) (hfirst : st.tagCount = 0 → st.first = st.tags.length) :
    (st.record i c).Counted conds := by
  have hle : st.first ≤ st.tags.length := by
    rcases Nat.eq_zero_or_pos st.tagCount with hzero | hpos
    · exact (hfirst hzero).le
    · exact (h.first hpos).le
  have hbefore : st.taggedLen = tagsLen conds (st.tags.drop st.first) := by
    rw [h.len]
    split_ifs with hzero
    · rw [hfirst hzero, List.drop_length]
      rfl
    · rfl
  have hlen : tagLen conds i = c.opentag.length + c.closetag.length := by
    rw [h.same.tagLen, tagLen, hc]
    rfl
  refine ⟨h.same.set hc rfl rfl, fun _ => ?_, ?_, fun _ => Nat.succ_pos _⟩
  · show st.first < (st.tags ++ [_]).length
    rw [List.length_append, List.length_singleton]
    omega
  · show st.taggedLen + (c.opentag.length + c.closetag.length) = if st.tagCount + 1 = 0 then 0 else
      tagsLen conds ((st.tags ++ [_]).drop st.first)
    rw [if_neg (Nat.succ_ne_zero _), List.drop_append_of_le_length hle, tagsLen_append, hbefore,
      ← hlen]
    rfl

theorem Filling.Counted.tag {st st' : Filling} (h : st.Counted conds) {i : Nat} {c : TaggedCond}
    {more : Bool} (hc : st.conds[i]? = some c)
    (hfirst : st.tagCount = 0 → st.first = st.tags.length)
    (htag : Filling.tag t f width st i c = some (more, st')) : st.Counts conds st' := by
  unfold Filling.tag at htag
  have hrecord := h.record hc hfirst
  split_ifs at htag
  · have hacross : Filling.Counted conds { st with
        conds := st.conds.set i { c with cond := { c.cond with stopflag := .across } } } :=
      ⟨h.same.set hc rfl rfl, h.first, h.len, h.found⟩
    obtain ⟨hcounted, htags⟩ := hacross.tune htag
    exact ⟨hcounted, htags⟩
  · obtain rfl : st.record i c = st' := congrArg Prod.snd (Option.some.inj htag)
    exact ⟨hrecord, List.prefix_append _ _⟩
  · obtain ⟨hcounted, htags⟩ := hrecord.tune htag
    exact ⟨hcounted, (List.prefix_append _ _).trans htags⟩

theorem Filling.Counted.step {st st' : Filling} (h : st.Counted conds) {more : Bool}
    (hstep : Filling.step t f width rest st = some (more, st')) : st.Counts conds st' := by
  unfold Filling.step at hstep
  cases hnext : nextCond st.conds with
  | none =>
      simp only [hnext] at hstep
      obtain rfl : st = st' := congrArg Prod.snd (Option.some.inj hstep)
      exact ⟨h, List.prefix_rfl⟩
  | some i =>
      simp only [hnext] at hstep
      obtain ⟨c, hc, hstep⟩ := Option.bind_eq_some_iff.mp hstep
      by_cases hcount : st.tagCount = 0
      · rw [if_pos hcount] at hstep
        split_ifs at hstep
        · exact h.tune hstep
        · have hblank : Filling.Counted conds
              { st with start := c.cond.startOffset, first := st.tags.length } :=
            ⟨h.same, fun hpos => absurd hcount (Nat.pos_iff_ne_zero.mp hpos),
              h.len.trans ((if_pos hcount).trans (if_pos hcount).symm), h.found⟩
          obtain ⟨hcounted, htags⟩ := hblank.tag hc (fun _ => rfl) hstep
          exact ⟨hcounted, htags⟩
      · rw [if_neg hcount] at hstep
        split_ifs at hstep
        · obtain rfl : st = st' := congrArg Prod.snd (Option.some.inj hstep)
          exact ⟨h, List.prefix_rfl⟩
        · exact h.tune hstep
        · exact h.tag hc (fun hzero => absurd hzero hcount) hstep

/-- **Filling a snippet.** -/
theorem Filling.Counted.run {st st' : Filling} (h : st.Counted conds) {k : Nat}
    (hrun : Filling.run t f width rest k st = some st') : st.Counts conds st' := by
  induction k generalizing st with
  | zero => exact absurd hrun nofun
  | succ k ih =>
      obtain ⟨⟨more, st₁⟩, hstep, hrun⟩ := Option.bind_eq_some_iff.mp hrun
      obtain ⟨hcounted, htags⟩ := h.step hstep
      cases more with
      | true =>
          obtain ⟨hcounted', htags'⟩ := ih hcounted hrun
          exact ⟨hcounted', htags.trans htags'⟩
      | false =>
          obtain rfl := Option.some.inj hrun
          exact ⟨hcounted, htags⟩

/-- What is counted for a snippet that was recorded among these tag results. -/
def countedLen (conds : List TaggedCond) (string : List UInt8) (tags : List TagResult)
    (r : SnipResult) : Nat :=
  tagsLen conds ((tags.drop r.firstTagResultIdx).take
      (r.lastTagResultIdx + 1 - r.firstTagResultIdx)) +
    ((((string.drop r.startOffset).take (r.endOffset - r.startOffset)).map mappedWidth).sum + 1)

/-- The state between two snippets. -/
structure Snippets.Counted (conds : List TaggedCond) (string : List UInt8) (p : Snippets) :
    Prop where
  same : SameTags conds p.conds
  slice : ∀ r ∈ p.results, r.startOffset ≤ r.endOffset ∧ r.endOffset ≤ string.length
  idx : ∀ r ∈ p.results, r.firstTagResultIdx < p.tags.length ∧ r.lastTagResultIdx < p.tags.length
  small : p.maxTaggedLen < 2 ^ 32
  len : (∀ r ∈ p.results, countedLen conds string p.tags r < 2 ^ 32) →
    ∀ r ∈ p.results, countedLen conds string p.tags r ≤ p.maxTaggedLen

variable {string : List UInt8} {encoding : SenEncoding}

theorem Snippets.Counted.blank {p : Snippets} (h : p.Counted conds string) :
    p.blank.Counted conds :=
  ⟨h.same, fun hpos => absurd hpos (lt_irrefl 0), rfl, fun hfound => absurd hfound
    Bool.false_ne_true⟩

/-- Tag results that are recorded later change nothing. -/
theorem countedLen_of_more {tags tags' : List TagResult} {r : SnipResult}
    (hmore : tags <+: tags') (hfirst : r.firstTagResultIdx < tags.length)
    (hlast : r.lastTagResultIdx < tags.length) :
    countedLen conds string tags' r = countedLen conds string tags r := by
  obtain ⟨more, rfl⟩ := hmore
  rw [countedLen, tags_slice_append more hfirst hlast]
  rfl

/-- The state between two snippets, with more tag results. -/
theorem Snippets.Counted.more {p : Snippets} (h : p.Counted conds string) {st : Filling}
    (hst : p.blank.Counts conds st) :
    Snippets.Counted conds string { p with
      conds := st.conds, tags := st.tags, unfound := st.unfound, lastEnd := st.lastEnd } := by
  have hsame {r : SnipResult} (hr : r ∈ p.results) :
      countedLen conds string st.tags r = countedLen conds string p.tags r :=
    countedLen_of_more hst.tags (h.idx r hr).1 (h.idx r hr).2
  have hle := hst.tags.length_le
  refine ⟨hst.counted.same, h.slice, fun r hr => ?_, h.small, fun hfit r hr => ?_⟩
  · have := h.idx r hr
    exact ⟨this.1.trans_le hle, this.2.trans_le hle⟩
  · rw [hsame hr]
    exact h.len (fun r hr => hsame hr ▸ hfit r hr) r hr

/-- **One more snippet.** -/
theorem Snippets.Counted.snippet {p : Snippets} (h : p.Counted conds string) {st : Filling}
    (hst : p.blank.Counts conds st) (hfound : st.found = true) {start stop mapped : Nat}
    (hplace : Filling.place width string encoding p.lastLastEnd st = some (start, stop, mapped)) :
    Snippets.Counted conds string {
      conds := st.conds
      tags := st.tags
      results := p.results ++ [⟨start, stop, st.first, st.tags.length - 1, st.tagCount⟩]
      unfound := st.unfound
      lastEnd := st.lastEnd
      lastLastEnd := stop
      maxTaggedLen := max p.maxTaggedLen (st.taggedLen + (mapped + 1)) % 2 ^ 32 } := by
  obtain ⟨hle, hstop, hmapped⟩ := Filling.place_spec hplace
  have hcount := hst.counted.found hfound
  have hfirst := hst.counted.first hcount
  have hmore := h.more hst
  have hsmall := h.small
  have hnew : countedLen conds string st.tags
      ⟨start, stop, st.first, st.tags.length - 1, st.tagCount⟩ = st.taggedLen + (mapped + 1) := by
    have hslice : (st.tags.drop st.first).take (st.tags.length - 1 + 1 - st.first) =
        st.tags.drop st.first := by
      rw [Nat.sub_add_cancel (by omega), ← List.length_drop, List.take_length]
    rw [countedLen, hslice, hst.counted.len, if_neg hcount.ne', hmapped]
  constructor
  case same => exact hst.counted.same
  case small => exact Nat.mod_lt _ (Nat.two_pow_pos 32)
  all_goals dsimp only
  case slice =>
    rw [List.forall_mem_append]
    exact ⟨h.slice, List.forall_mem_singleton.mpr ⟨hle, hstop⟩⟩
  case idx =>
    rw [List.forall_mem_append]
    exact ⟨hmore.idx, List.forall_mem_singleton.mpr ⟨hfirst, by dsimp only; omega⟩⟩
  case len =>
    rw [List.forall_mem_append, List.forall_mem_append, List.forall_mem_singleton,
      List.forall_mem_singleton, hnew]
    intro ⟨hfit, hfit'⟩
    rw [Nat.mod_eq_of_lt (max_lt hsmall hfit')]
    exact ⟨fun r hr => (hmore.len hfit r hr).trans (le_max_left _ _), le_max_right _ _⟩

/-- **All snippets.** -/
theorem Snippets.Counted.run {p p' : Snippets} (h : p.Counted conds string) {k : Nat}
    (hrun : Snippets.run t f width string encoding k p = some p') : p'.Counted conds string := by
  induction k generalizing p with
  | zero =>
      obtain rfl := Option.some.inj hrun
      exact h
  | succ k ih =>
      obtain ⟨st, hfill, hrun⟩ := Option.bind_eq_some_iff.mp hrun
      have hst := h.blank.run hfill
      dsimp only at hrun
      by_cases hfound : st.found = true
      · rw [if_neg (by rw [hfound]; decide)] at hrun
        obtain ⟨⟨start, stop, mapped⟩, hplace, hrun⟩ := Option.bind_eq_some_iff.mp hrun
        have hnew := h.snippet hst hfound hplace
        dsimp only at hrun
        split_ifs at hrun
        · obtain rfl := Option.some.inj hrun
          exact hnew
        · obtain rfl := Option.some.inj hrun
          exact hnew
        · refine ih ?_ hrun
          refine ⟨?_, hnew.slice, hnew.idx, hnew.small, hnew.len⟩
          rw [SameTags, hnew.same, List.map_map]
          refine List.map_congr_left fun c _ => ?_
          rw [Function.comp_apply]
          split_ifs <;> rfl
      · rw [if_pos (by simpa using hfound)] at hrun
        obtain rfl := Option.some.inj hrun
        -- nothing was recorded since
        exact ⟨hst.counted.same, h.slice, h.idx, h.small, h.len⟩

/-- **The buffer is long enough.** Whatever the keywords, the tags, the width and the text are,
no result is longer than `max_tagged_len`, unless what is counted for a snippet does not fit
an `unsigned int`. -/
theorem senSnipGetResult_fits {snip' : SenSnip} {nstrOpen : List UInt8 → Option Text} {index : Nat}
    (hexec : senSnipExec nstrOpen snip string = some (.success, snip'))
    (hfit : ∀ sres ∈ snip'.snipResult, snip'.taggedLen sres < 2 ^ 32)
    (hindex : index < snip'.snipResult.length) :
    (senSnipResultBytes snip' index).length + 1 ≤ snip'.maxTaggedLen := by
  unfold senSnipExec at hexec
  dsimp only at hexec
  cases hopen : nstrOpen string with
  | none => simp [hopen] at hexec
  | some t =>
      simp only [hopen] at hexec
      obtain ⟨conds, hconds, hexec⟩ := Option.bind_eq_some_iff.mp hexec
      obtain ⟨p, hrun, hexec⟩ := Option.bind_eq_some_iff.mp hexec
      obtain rfl := congrArg Prod.snd (Option.some.inj hexec)
      have hstart : Snippets.Counted conds string ⟨conds, [], [], conds.length, 0, 0, 0⟩ :=
        ⟨rfl, nofun, nofun, Nat.two_pow_pos 32, fun _ => nofun⟩
      have hcounted := hstart.run hrun
      have hget := List.getElem?_eq_getElem hindex
      have hmem := List.getElem_mem hindex
      obtain ⟨hle, hstop⟩ := hcounted.slice _ hmem
      have hsame (r : SnipResult) : countedLen conds string p.tags r =
          countedLen p.conds string p.tags r := by
        rw [countedLen, hcounted.same.tagsLen]
        rfl
      refine (senSnipResultBytes_le hget hle hstop).trans ?_
      have hlen := hcounted.len (fun r hr => (hsame r).trans_lt (hfit r hr)) _ hmem
      exact (hsame _).symm.trans_le hlen

end

/-- The keyword "aaa" with tags of one byte, in "aaaaaaaa". -/
theorem senSnipGetResult_fits_triple :
    ∃ snip', senSnipExec plainOpen tripleSnip (List.replicate 8 0x61) = some (.success, snip') ∧
      snip'.maxTaggedLen = 8 ∧ (senSnipResultBytes snip' 0).length + 1 ≤ 8 := by
  have hexec : ∃ snip', senSnipExec plainOpen tripleSnip (List.replicate 8 0x61) =
      some (.success, snip') ∧ snip'.snipResult = [⟨0, 5, 0, 0, 1⟩, ⟨5, 8, 1, 1, 1⟩] ∧
      snip'.taggedLen ⟨0, 5, 0, 0, 1⟩ = 8 ∧ snip'.taggedLen ⟨5, 8, 1, 1, 1⟩ = 6 ∧
      snip'.maxTaggedLen = 8 := ⟨_, rfl, rfl, rfl, rfl, rfl⟩
  obtain ⟨snip', hexec, hresult, hfirst, hsecond, hmax⟩ := hexec
  refine ⟨snip', hexec, hmax, hmax ▸ senSnipGetResult_fits hexec ?_ (by rw [hresult]; decide)⟩
  rw [hresult, List.forall_mem_cons, List.forall_mem_singleton, hfirst, hsecond]
  decide

/-- A snippet object with the keyword "a" and an open tag. -/
def longTagSnip (opentag : List UInt8) : SenSnip :=
  (senSnipAddCond some narrowSnip [0x61] (some opentag) none).2

/-- With an open tag of `2 ^ 32 - 1` bytes the sum of a snippet wraps around. -/
theorem senSnipGetResult_overflow :
    ∃ snip', senSnipExec plainOpen (longTagSnip (List.replicate (2 ^ 32 - 1) 0x5b)) [0x61] =
        some (.success, snip') ∧ 0 < snip'.snipResult.length ∧
      snip'.maxTaggedLen < (senSnipResultBytes snip' 0).length + 1 := by
  have hexec (opentag : List UInt8) : ∃ snip', senSnipExec plainOpen (longTagSnip opentag) [0x61] =
      some (.success, snip') ∧ snip'.snipResult.length = 1 ∧
      snip'.maxTaggedLen = max 0 (0 + (opentag.length + 1) + 2) % 2 ^ 32 ∧
      senSnipResultBytes snip' 0 = opentag ++ [0x61, 0x5d] := ⟨_, rfl, rfl, rfl, rfl⟩
  obtain ⟨snip', hexec, hcount, hmax, hbytes⟩ := hexec (List.replicate (2 ^ 32 - 1) 0x5b)
  refine ⟨snip', hexec, hcount ▸ Nat.one_pos, ?_⟩
  rw [hmax, hbytes, List.length_append, List.length_replicate]
  decide

end Senna.Snip
