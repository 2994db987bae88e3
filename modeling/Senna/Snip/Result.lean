/-
# The text of a snippet

`sen_snip_get_result` copies the slice of a snippet byte by byte and writes the tags of its
occurrences between the bytes. The result is a list of pieces: a byte of the text, the open
tag of a keyword, its close tag.

`Tagged` says what highlighted text is: bytes and tagged regions one after the other, each
region closed by the tag of its keyword. `pieces_tagged_iff` says for which snippets the
function writes that.
-/

import Senna.Snip.Exec

namespace Senna.Snip

/-- What is written: the byte `i` of the text, or a tag of a condition. -/
inductive Piece
  | byte (i : Nat)
  | opentag (cond : Nat)
  | closetag (cond : Nat)
  deriving DecidableEq, Repr

/-- The loop that opens tags before the byte `i`; the tag results from `j` on are given and
returned. A result that ends behind the slice is passed over. -/
def openTags (stop i : Nat) : List TagResult → List Piece × List TagResult
  | [] => ([], [])
  | t :: j =>
      if t.startOffset = i then
        let (opened, j) := openTags stop i j
        (if t.endOffset > stop then opened else .opentag t.cond :: opened, j)
      else ([], t :: j)

/-- The loop that closes tags behind the byte `i`; the tag results are given from the last one
on. It ends at one that ends behind the slice. -/
def closeTags (stop i : Nat) : List TagResult → List Piece
  | [] => []
  | t :: k =>
      if t.endOffset ≤ stop then
        if t.endOffset = i + 1 then .closetag t.cond :: closeTags stop i k else closeTags stop i k
      else []

/-- The loop over the bytes from `i` on, of which there are `n`. -/
def resultLoop (stop : Nat) (tags : List TagResult) : Nat → Nat → List TagResult → List Piece
  | 0, _, _ => []
  | n + 1, i, j =>
      (openTags stop i j).1 ++ .byte i :: closeTags stop i tags.reverse ++
        resultLoop stop tags n (i + 1) (openTags stop i j).2

/-- The tag results of a snippet. -/
def SenSnip.tagsOf (snip : SenSnip) (sres : SnipResult) : List TagResult :=
  (snip.tagResult.drop sres.firstTagResultIdx).take
    (sres.lastTagResultIdx + 1 - sres.firstTagResultIdx)

/-- Tag results that are recorded later do not belong to a snippet. -/
theorem tags_slice_append {tags : List TagResult} (more : List TagResult) {first last : Nat}
    (hfirst : first < tags.length) (hlast : last < tags.length) :
    ((tags ++ more).drop first).take (last + 1 - first) =
      (tags.drop first).take (last + 1 - first) := by
  rw [List.drop_append_of_le_length hfirst.le, List.take_append_of_le_length]
  rw [List.length_drop]
  omega

/-- `sen_snip_get_result`, as pieces. -/
def senSnipGetResult (snip : SenSnip) (index : Nat) : SenRc × List Piece :=
  match snip.snipResult[index]?, snip.text with
  | some sres, some _ =>
      let tags := snip.tagsOf sres
      (.success, resultLoop sres.endOffset tags (sres.endOffset - sres.startOffset)
        sres.startOffset tags)
  | _, _ => (.invalidArgument, [])

/-- A byte of the text, as it is written. -/
def mappedByte (mapping : SnipMapping) (b : UInt8) : List UInt8 :=
  if mapping = .htmlEscape then
    if b = 0x3c then [0x26, 0x6c, 0x74, 0x3b]
    else if b = 0x3e then [0x26, 0x67, 0x74, 0x3b]
    else if b = 0x26 then [0x26, 0x61, 0x6d, 0x70, 0x3b]
    else if b = 0x22 then [0x26, 0x71, 0x75, 0x6f, 0x74, 0x3b]
    else [b]
  else [b]

/-- The bytes of a piece. -/
def Piece.bytes (snip : SenSnip) : Piece → List UInt8
  | .byte i => mappedByte snip.mapping (snip.string.getD i 0)
  | .opentag c => (snip.conds[c]?).elim [] TaggedCond.opentag
  | .closetag c => (snip.conds[c]?).elim [] TaggedCond.closetag

/-- The bytes of `result`, without the NUL behind them. -/
def senSnipResultBytes (snip : SenSnip) (index : Nat) : List UInt8 :=
  (senSnipGetResult snip index).2.flatMap (Piece.bytes snip)

/-- Well-formed pieces for the bytes from `i` to `j`: single bytes and tagged regions, each of
which is one of the occurrences. -/
inductive Tagged (occ : TagResult → Prop) : Nat → Nat → List Piece → Prop
  | nil (i : Nat) : Tagged occ i i []
  | byte {i j : Nat} {ps : List Piece} (h : Tagged occ (i + 1) j ps) :
      Tagged occ i j (.byte i :: ps)
  | tag {j : Nat} {inner rest : List Piece} (t : TagResult) (ht : occ t)
      (hinner : Tagged occ t.startOffset t.endOffset inner)
      (hrest : Tagged occ t.endOffset j rest) :
      Tagged occ t.startOffset j (.opentag t.cond :: inner ++ .closetag t.cond :: rest)

/-- The occurrences recorded for a snippet that lie inside its slice. -/
def SenSnip.Inside (snip : SenSnip) (sres : SnipResult) (t : TagResult) : Prop :=
  t ∈ snip.tagsOf sres ∧ sres.startOffset ≤ t.startOffset ∧ t.endOffset ≤ sres.endOffset

/-- The result is the slice of the snippet with well-formed tags. -/
def SenSnip.WellFormed (snip : SenSnip) (sres : SnipResult) (ps : List Piece) : Prop :=
  Tagged (snip.Inside sres) sres.startOffset sres.endOffset ps

/-- What is recorded for a snippet: occurrences one behind the other, none of them empty. -/
structure Recorded (tags : List TagResult) : Prop where
  ne_nil : tags ≠ []
  proper : ∀ t ∈ tags, t.startOffset < t.endOffset
  apart : tags.Pairwise fun a b => a.endOffset ≤ b.startOffset

/-- How the occurrences of a snippet must lie to the slice: inside, or all of them cut by its
end or behind it, or the first one starts before the slice, and either all of them end before it
or the last one ends behind it. -/
def Fits (start stop : Nat) (tags : List TagResult) : Prop :=
  (∀ t ∈ tags, start ≤ t.startOffset ∧ t.endOffset ≤ stop) ∨
    (∀ t ∈ tags, start ≤ t.startOffset ∧ stop < t.endOffset) ∨
    (∃ t ∈ tags.head?, t.startOffset < start) ∧
      ((∀ t ∈ tags, t.endOffset ≤ start) ∨ ∃ t ∈ tags.getLast?, stop < t.endOffset)

section

variable {occ : TagResult → Prop} {stop : Nat} {tags : List TagResult}

/-- Bytes only. -/
theorem Tagged.bytes (occ : TagResult → Prop) (n i : Nat) :
    Tagged occ i (i + n) ((List.range' i n).map Piece.byte) := by
  induction n generalizing i with
  | zero => exact .nil i
  | succ n ih =>
      have h := ih (i + 1)
      rw [Nat.add_right_comm] at h
      exact .byte h

/-- Bytes and then the rest. -/
theorem Tagged.bytes_append {n i j : Nat} {ps : List Piece} (h : Tagged occ (i + n) j ps) :
    Tagged occ i j ((List.range' i n).map Piece.byte ++ ps) := by
  induction n generalizing i with
  | zero => exact h
  | succ n ih =>
      have hstep : i + (n + 1) = i + 1 + n := Nat.add_right_comm i n 1
      rw [hstep] at h
      exact .byte (ih h)

/-- Well-formed pieces have a close tag if they have an open one, and conversely. -/
theorem Tagged.tags_iff {i j : Nat} {ps : List Piece} (h : Tagged occ i j ps) :
    (∃ c, Piece.opentag c ∈ ps) ↔ ∃ c, Piece.closetag c ∈ ps := by
  induction h with
  | nil => exact ⟨fun ⟨_, h⟩ => absurd h List.not_mem_nil, fun ⟨_, h⟩ => absurd h List.not_mem_nil⟩
  | byte _ ih =>
      constructor
      · intro ⟨c, hc⟩
        obtain ⟨c', hc'⟩ := ih.mp ⟨c, (List.mem_cons.mp hc).resolve_left nofun⟩
        exact ⟨c', List.mem_cons_of_mem _ hc'⟩
      · intro ⟨c, hc⟩
        obtain ⟨c', hc'⟩ := ih.mpr ⟨c, (List.mem_cons.mp hc).resolve_left nofun⟩
        exact ⟨c', List.mem_cons_of_mem _ hc'⟩
  | tag t _ _ _ _ _ =>
      constructor
      · intro _
        exact ⟨t.cond, List.mem_append_right _ List.mem_cons_self⟩
      · intro _
        exact ⟨t.cond, List.mem_append_left _ List.mem_cons_self⟩

theorem openTags_of_ne {i : Nat} {j : List TagResult}
    (h : ∀ t ∈ j.head?, t.startOffset ≠ i) : openTags stop i j = ([], j) := by
  cases j with
  | nil => rfl
  | cons t j =>
      unfold openTags
      exact if_neg (h t rfl)

theorem openTags_cons {t : TagResult} {j : List TagResult} (hstop : t.endOffset ≤ stop)
    (h : ∀ t' ∈ j.head?, t'.startOffset ≠ t.startOffset) :
    openTags stop t.startOffset (t :: j) = ([.opentag t.cond], j) := by
  unfold openTags
  rw [if_pos rfl, openTags_of_ne h]
  simp only [if_neg (Nat.not_lt.mpr hstop)]

theorem closeTags_of_ne {i : Nat} {k : List TagResult} (h : ∀ t ∈ k, t.endOffset ≠ i + 1) :
    closeTags stop i k = [] := by
  induction k with
  | nil => rfl
  | cons t k ih =>
      obtain ⟨hne, hk⟩ := List.forall_mem_cons.mp h
      unfold closeTags
      rw [if_neg hne, ih hk]
      exact ite_self _

theorem closeTags_of_gt {i : Nat} {k : List TagResult} (h : ∃ t ∈ k.head?, stop < t.endOffset) :
    closeTags stop i k = [] := by
  cases k with
  | nil => rfl
  | cons t k =>
      obtain ⟨t', ht', hgt⟩ := h
      obtain rfl := Option.some.inj ht'
      unfold closeTags
      exact if_neg (Nat.not_le.mpr hgt)

/-- One tag result ends behind the byte. -/
theorem closeTags_split {i : Nat} {t : TagResult} {post pre : List TagResult}
    (hle : ∀ u ∈ post ++ t :: pre, u.endOffset ≤ stop) (ht : t.endOffset = i + 1)
    (hpost : ∀ u ∈ post, u.endOffset ≠ i + 1) (hpre : ∀ u ∈ pre, u.endOffset ≠ i + 1) :
    closeTags stop i (post ++ t :: pre) = [.closetag t.cond] := by
  induction post with
  | nil =>
      rw [List.nil_append]
      unfold closeTags
      rw [if_pos (hle t List.mem_cons_self), if_pos ht, closeTags_of_ne hpre]
  | cons u post ih =>
      obtain ⟨hu, hpost⟩ := List.forall_mem_cons.mp hpost
      rw [List.cons_append] at hle ⊢
      obtain ⟨huLe, hle⟩ := List.forall_mem_cons.mp hle
      unfold closeTags
      rw [if_pos huLe, if_neg hu, ih hle hpost]

theorem resultLoop_succ (n i : Nat) (j : List TagResult) :
    resultLoop stop tags (n + 1) i j =
      (openTags stop i j).1 ++ .byte i :: closeTags stop i tags.reverse ++
        resultLoop stop tags n (i + 1) (openTags stop i j).2 := rfl

theorem resultLoop_open {n : Nat} (hn : 0 < n) {t : TagResult} {j : List TagResult}
    (hstop : t.endOffset ≤ stop) (h : ∀ t' ∈ j.head?, t'.startOffset ≠ t.startOffset) :
    resultLoop stop tags n t.startOffset (t :: j) =
      .opentag t.cond :: resultLoop stop tags n t.startOffset j := by
  obtain ⟨n, rfl⟩ := Nat.exists_eq_add_of_le' hn
  rw [resultLoop_succ, resultLoop_succ, openTags_cons hstop h, openTags_of_ne h]
  rfl

/-- A stretch of text in which no tag is written. -/
theorem resultLoop_bytes (stop : Nat) (tags : List TagResult) {n m i : Nat} {j : List TagResult}
    (hopen : ∀ t ∈ j.head?, t.startOffset < i ∨ i + n ≤ t.startOffset)
    (hclose : ∀ k, i ≤ k → k < i + n → closeTags stop k tags.reverse = []) :
    resultLoop stop tags (n + m) i j =
      (List.range' i n).map Piece.byte ++ resultLoop stop tags m (i + n) j := by
  induction n generalizing i with
  | zero => rw [Nat.zero_add]; rfl
  | succ n ih =>
      have hstep : openTags stop i j = ([], j) :=
        openTags_of_ne fun t ht => by
          have := hopen t ht
          omega
      have hrest := ih (i := i + 1)
        (fun t ht => by
          have := hopen t ht
          omega)
        fun k hk hlt => hclose k (by omega) (by omega)
      rw [Nat.succ_add, resultLoop_succ, hstep, hclose i le_rfl (by omega), hrest,
        Nat.add_right_comm i 1 n]
      rfl

theorem Recorded.of_append {pre post : List TagResult} {t : TagResult}
    (h : Recorded (pre ++ t :: post)) :
    (∀ u ∈ pre, u.endOffset ≤ t.startOffset) ∧ ∀ u ∈ post, t.endOffset ≤ u.startOffset := by
  obtain ⟨-, hpost, hcross⟩ := List.pairwise_append.mp h.apart
  exact ⟨fun u hu => hcross u hu t List.mem_cons_self, (List.pairwise_cons.mp hpost).1⟩

/-- Only the occurrence that ends behind a byte is closed there. -/
theorem Recorded.closeTags {pre post : List TagResult} {t : TagResult}
    (h : Recorded (pre ++ t :: post)) (hle : ∀ u ∈ pre ++ t :: post, u.endOffset ≤ stop) {i : Nat}
    (hlt : t.startOffset ≤ i) (hend : i < t.endOffset) :
    Senna.Snip.closeTags stop i (pre ++ t :: post).reverse =
      if t.endOffset = i + 1 then [.closetag t.cond] else [] := by
  obtain ⟨hpre, hpost⟩ := h.of_append
  have hpreNe : ∀ u ∈ pre.reverse, u.endOffset ≠ i + 1 := by
    intro u hu
    have := hpre u (List.mem_reverse.mp hu)
    omega
  have hpostNe : ∀ u ∈ post.reverse, u.endOffset ≠ i + 1 := by
    intro u hu
    have hu := List.mem_reverse.mp hu
    have hgt := h.proper u (List.mem_append_right _ (List.mem_cons_of_mem _ hu))
    have := hpost u hu
    omega
  have hreverse : (pre ++ t :: post).reverse = post.reverse ++ t :: pre.reverse := by
    rw [List.reverse_append, List.reverse_cons, List.append_assoc]
    rfl
  rw [hreverse]
  by_cases ht : t.endOffset = i + 1
  · rw [if_pos ht]
    refine closeTags_split (fun u hu => hle u ?_) ht hpostNe hpreNe
    rw [← List.mem_reverse, hreverse]
    exact hu
  · rw [if_neg ht]
    apply closeTags_of_ne
    intro u hu
    rcases List.mem_append.mp hu with hu | hu
    · exact hpostNe u hu
    · rcases List.mem_cons.mp hu with rfl | hu
      · exact ht
      · exact hpreNe u hu

/-- The text of an occurrence, with its close tag. -/
theorem Recorded.region {pre post : List TagResult} {t : TagResult}
    (h : Recorded (pre ++ t :: post)) (hle : ∀ u ∈ pre ++ t :: post, u.endOffset ≤ stop) (m : Nat) :
    resultLoop stop (pre ++ t :: post) (t.endOffset - t.startOffset + m) t.startOffset post =
      (List.range' t.startOffset (t.endOffset - t.startOffset)).map Piece.byte ++
        .closetag t.cond :: resultLoop stop (pre ++ t :: post) m t.endOffset post := by
  have hlt := h.proper t (List.mem_append_right _ List.mem_cons_self)
  obtain ⟨n, hn⟩ : ∃ n, t.endOffset = t.startOffset + n + 1 :=
    ⟨t.endOffset - t.startOffset - 1, by omega⟩
  have hopen : ∀ u ∈ post.head?, t.endOffset ≤ u.startOffset :=
    fun u hu => h.of_append.2 u (List.mem_of_head? hu)
  have hlen : t.endOffset - t.startOffset = n + 1 := by omega
  rw [hlen, Nat.add_assoc, resultLoop_bytes _ _
    (fun u hu => .inr (by have := hopen u hu; omega))
    fun k hk hlt => by
      rw [h.closeTags hle hk (by omega)]
      exact if_neg (by omega)]
  have hstep : openTags stop (t.startOffset + n) post = ([], post) :=
    openTags_of_ne fun u hu => by
      have := hopen u hu
      omega
  rw [Nat.add_comm 1 m, resultLoop_succ, hstep, h.closeTags hle (Nat.le_add_right _ _) (by omega),
    if_pos hn, ← hn, List.range'_concat, Nat.one_mul, List.map_append, List.append_assoc]
  simp only [List.nil_append, List.map_singleton, List.append_assoc, List.cons_append]

/-- **Inside.** From a place between the occurrences on, the pieces are well formed. -/
theorem Recorded.tagged (pre : List TagResult) {j : List TagResult} (h : Recorded (pre ++ j))
    (hle : ∀ u ∈ pre ++ j, u.endOffset ≤ stop) (hocc : ∀ u ∈ j, occ u) {i : Nat}
    (hpre : ∀ u ∈ pre, u.endOffset ≤ i) (hj : ∀ u ∈ j, i ≤ u.startOffset) (hi : i ≤ stop) :
    Tagged occ i stop (resultLoop stop (pre ++ j) (stop - i) i j) := by
  induction j generalizing pre i with
  | nil =>
      have hbytes := resultLoop_bytes stop (pre ++ []) (n := stop - i) (m := 0)
        (i := i) (j := []) nofun fun k hk hlt => by
          apply closeTags_of_ne
          intro u hu
          rw [List.append_nil, List.mem_reverse] at hu
          have := hpre u hu
          omega
      rw [Nat.add_zero] at hbytes
      rw [hbytes]
      apply Tagged.bytes_append
      rw [Nat.add_sub_cancel' hi]
      exact .nil stop
  | cons t j ih =>
      obtain ⟨hpost, hpost'⟩ := h.of_append
      have ht := List.mem_append_right pre (List.mem_cons_self (a := t) (l := j))
      have hlt := h.proper t ht
      have hstop := hle t ht
      have hit := hj t List.mem_cons_self
      -- the bytes before the occurrence
      have hlen : stop - i = (t.startOffset - i) + (stop - t.startOffset) := by omega
      rw [hlen, resultLoop_bytes]
      · apply Tagged.bytes_append
        have hnext : ∀ u ∈ j.head?, u.startOffset ≠ t.startOffset := by
          intro u hu
          have := hpost' u (List.mem_of_head? hu)
          omega
        have hsplit : stop - t.startOffset =
            (t.endOffset - t.startOffset) + (stop - t.endOffset) := by omega
        rw [Nat.add_sub_cancel' hit, resultLoop_open (by omega) hstop hnext, hsplit,
          h.region hle]
        have hbytes := Tagged.bytes occ (t.endOffset - t.startOffset) t.startOffset
        rw [Nat.add_sub_cancel' hlt.le] at hbytes
        apply Tagged.tag t (hocc t List.mem_cons_self) hbytes
        have hassoc : pre ++ t :: j = (pre ++ [t]) ++ j := List.append_cons _ _ _
        rw [hassoc] at h hle ⊢
        apply ih (pre ++ [t]) h hle (fun u hu => hocc u (List.mem_cons_of_mem _ hu)) _ hpost' hstop
        intro u hu
        rcases List.mem_append.mp hu with hu | hu
        · have := hpost u hu
          omega
        · rw [List.mem_singleton.mp hu]
      · intro u hu
        obtain rfl := Option.some.inj hu
        omega
      · intro k hk hlt'
        apply closeTags_of_ne
        intro u hu
        rcases List.mem_append.mp (List.mem_reverse.mp hu) with hu | hu
        · have := hpre u hu
          omega
        · have hge := hj u hu
          have := h.proper u (List.mem_append_right _ hu)
          rcases List.mem_cons.mp hu with rfl | hu
          · omega
          · have := hpost' u hu
            omega

/-- Nothing but bytes is written when no tag is opened and none closed. -/
theorem tagged_of_plain {start : Nat} (hle : start ≤ stop)
    (hopen : ∀ t ∈ tags.head?, t.startOffset < start ∨ stop ≤ t.startOffset)
    (hclose : ∀ k, start ≤ k → k < stop → closeTags stop k tags.reverse = []) :
    Tagged occ start stop (resultLoop stop tags (stop - start) start tags) := by
  have hbytes := resultLoop_bytes stop tags (n := stop - start) (m := 0)
    (i := start) (j := tags) (fun t ht => by have := hopen t ht; omega)
    fun k hk hlt => hclose k hk (by omega)
  rw [Nat.add_zero] at hbytes
  rw [hbytes]
  apply Tagged.bytes_append
  rw [Nat.add_sub_cancel' hle]
  exact .nil stop

theorem openTags_cut {i : Nat} {j : List TagResult} (h : ∀ t ∈ j, stop < t.endOffset) :
    (openTags stop i j).1 = [] ∧ ∀ t ∈ (openTags stop i j).2, stop < t.endOffset := by
  induction j with
  | nil => exact ⟨rfl, h⟩
  | cons t j ih =>
      obtain ⟨hgt, hj⟩ := List.forall_mem_cons.mp h
      unfold openTags
      by_cases ht : t.startOffset = i
      · rw [if_pos ht]
        simp only [if_pos hgt]
        exact ih hj
      · rw [if_neg ht]
        exact ⟨rfl, h⟩

/-- Occurrences that end behind the slice leave no tag. -/
theorem resultLoop_cut {n i : Nat} {j : List TagResult} (h : ∀ t ∈ j, stop < t.endOffset)
    (hclose : ∀ k, closeTags stop k tags.reverse = []) :
    resultLoop stop tags n i j = (List.range' i n).map Piece.byte := by
  induction n generalizing i j with
  | zero => rfl
  | succ n ih =>
      obtain ⟨hopen, hj⟩ := openTags_cut (i := i) h
      rw [resultLoop_succ, hopen, hclose i, ih hj]
      rfl

theorem closetag_not_mem_openTags (c i : Nat) (j : List TagResult) :
    Piece.closetag c ∉ (openTags stop i j).1 := by
  induction j with
  | nil => exact List.not_mem_nil
  | cons t j ih =>
      unfold openTags
      by_cases ht : t.startOffset = i
      · rw [if_pos ht]
        by_cases hstop : t.endOffset > stop
        · simp only [if_pos hstop]
          exact ih
        · simp only [if_neg hstop]
          exact List.not_mem_cons_of_ne_of_not_mem nofun ih
      · rw [if_neg ht]
        exact List.not_mem_nil

theorem opentag_not_mem_closeTags (c i : Nat) (k : List TagResult) :
    Piece.opentag c ∉ closeTags stop i k := by
  induction k with
  | nil => exact List.not_mem_nil
  | cons t k ih =>
      unfold closeTags
      split_ifs
      · exact List.not_mem_cons_of_ne_of_not_mem nofun ih
      · exact ih
      · exact List.not_mem_nil

/-- A close tag is written behind some byte. -/
theorem closetag_mem_iff {c n i : Nat} {j : List TagResult} :
    Piece.closetag c ∈ resultLoop stop tags n i j ↔
      ∃ k, i ≤ k ∧ k < i + n ∧ Piece.closetag c ∈ closeTags stop k tags.reverse := by
  induction n generalizing i j with
  | zero =>
      constructor
      · intro h
        exact absurd h List.not_mem_nil
      · rintro ⟨k, hk, hlt, -⟩
        omega
  | succ n ih =>
      rw [resultLoop_succ, List.mem_append, List.mem_append, ih]
      constructor
      · rintro ((h | h) | ⟨k, hk, hlt, h⟩)
        · exact absurd h (closetag_not_mem_openTags c i j)
        · exact ⟨i, le_rfl, by omega, (List.mem_cons.mp h).resolve_left nofun⟩
        · exact ⟨k, by omega, by omega, h⟩
      · intro ⟨k, hk, hlt, h⟩
        by_cases hik : k = i
        · exact .inl (.inr (List.mem_cons_of_mem _ (hik ▸ h)))
        · exact .inr ⟨k, by omega, by omega, h⟩

/-- The loop that opens tags stops for good at an occurrence that starts before the slice. -/
theorem opentag_not_mem_of_lt {c n i : Nat} {j : List TagResult}
    (h : ∃ t ∈ j.head?, t.startOffset < i) : Piece.opentag c ∉ resultLoop stop tags n i j := by
  obtain ⟨t, ht, hlt⟩ := h
  induction n generalizing i with
  | zero => exact List.not_mem_nil
  | succ n ih =>
      have hstep : openTags stop i j = ([], j) :=
        openTags_of_ne fun u hu => by
          obtain rfl := Option.some.inj (hu.symm.trans ht)
          omega
      rw [resultLoop_succ, hstep]
      intro hmem
      rcases List.mem_append.mp hmem with hmem | hmem
      · exact opentag_not_mem_closeTags c i _ ((List.mem_cons.mp hmem).resolve_left nofun)
      · exact ih (by omega) hmem

/-- **Well-formed results.** The pieces of a snippet are well formed exactly if its occurrences
fit its slice. -/
theorem resultLoop_tagged_iff (h : Recorded tags) {start : Nat} (hle : start ≤ stop) :
    Tagged (fun t => t ∈ tags ∧ start ≤ t.startOffset ∧ t.endOffset ≤ stop) start stop
        (resultLoop stop tags (stop - start) start tags) ↔ Fits start stop tags := by
  obtain ⟨first, later, rfl⟩ := List.exists_cons_of_ne_nil h.ne_nil
  obtain ⟨init, last, hlast⟩ : ∃ init last, first :: later = init ++ [last] :=
    ⟨_, _, (List.dropLast_append_getLast h.ne_nil).symm⟩
  have hmemLast : last ∈ first :: later := hlast ▸ List.mem_append_right _ List.mem_cons_self
  have hreverse : (first :: later).reverse.head? = some last := by
    rw [hlast, List.reverse_append]
    rfl
  have hgetLast : (first :: later).getLast? = some last := by
    rw [hlast, List.getLast?_append]
    rfl
  have hlater := (List.pairwise_cons.mp h.apart).1
  have hbefore : ∀ t ∈ init, t.endOffset ≤ last.startOffset := by
    have hpair := h.apart
    rw [hlast] at hpair
    exact fun t ht => (List.pairwise_append.mp hpair).2.2 t ht last List.mem_cons_self
  have hproper := h.proper first List.mem_cons_self
  have hproper' := h.proper last hmemLast
  have hstarts : ∀ t ∈ first :: later, first.startOffset ≤ t.startOffset := by
    intro t ht
    rcases List.mem_cons.mp ht with rfl | ht
    · exact le_rfl
    · have := hlater t ht
      omega
  have hfirstEnds : ∀ t ∈ first :: later, first.endOffset ≤ t.endOffset := by
    intro t ht
    rcases List.mem_cons.mp ht with rfl | ht'
    · exact le_rfl
    · have := hlater t ht'
      have := h.proper t ht
      omega
  have hends : ∀ t ∈ first :: later, t.endOffset ≤ last.endOffset := by
    intro t ht
    rw [hlast] at ht
    rcases List.mem_append.mp ht with ht | ht
    · have := hbefore t ht
      omega
    · rw [List.mem_singleton.mp ht]
  have hcut : stop < last.endOffset → ∀ k, closeTags stop k (first :: later).reverse = [] :=
    fun hgt k => closeTags_of_gt ⟨last, hreverse, hgt⟩
  unfold Fits
  rw [hgetLast, List.head?_cons]
  by_cases hstart : start ≤ first.startOffset
  · by_cases hstop : last.endOffset ≤ stop
    · -- all inside
      have hinside : ∀ t ∈ first :: later, start ≤ t.startOffset ∧ t.endOffset ≤ stop :=
        fun t ht => ⟨hstart.trans (hstarts t ht), (hends t ht).trans hstop⟩
      refine iff_of_true ?_ (.inl hinside)
      exact Recorded.tagged [] h (fun u hu => (hinside u hu).2)
        (fun u hu => ⟨hu, hinside u hu⟩) nofun (fun u hu => (hinside u hu).1) hle
    · by_cases hfirst : first.endOffset ≤ stop
      · -- the first one is opened, and nothing is closed
        have hcut := hcut (Nat.lt_of_not_le hstop)
        refine iff_of_false ?_ ?_
        · intro htagged
          have hopened : Piece.opentag first.cond ∈
              resultLoop stop (first :: later) (stop - start) start (first :: later) := by
            have hlen : stop - start =
                (first.startOffset - start) + (stop - first.startOffset) := by omega
            have hnext : ∀ u ∈ later.head?, u.startOffset ≠ first.startOffset := by
              intro u hu
              have := hlater u (List.mem_of_head? hu)
              omega
            rw [hlen, resultLoop_bytes _ _ (fun u hu => by
              obtain rfl := Option.some.inj hu
              omega) fun k _ _ => hcut k, Nat.add_sub_cancel' hstart,
              resultLoop_open (by omega) hfirst hnext]
            exact List.mem_append_right _ List.mem_cons_self
          obtain ⟨c, hc⟩ := htagged.tags_iff.mp ⟨first.cond, hopened⟩
          obtain ⟨k, -, -, hk⟩ := closetag_mem_iff.mp hc
          rw [hcut k] at hk
          exact List.not_mem_nil hk
        · rintro (hall | hall | ⟨⟨t, ht, hlt⟩, -⟩)
          · exact hstop (hall last hmemLast).2
          · exact Nat.not_le.mpr (hall first List.mem_cons_self).2 hfirst
          · obtain rfl := Option.some.inj ht
            omega
      · -- all of them end behind the slice
        have hgt : ∀ t ∈ first :: later, stop < t.endOffset :=
          fun t ht => (Nat.lt_of_not_le hfirst).trans_le (hfirstEnds t ht)
        refine iff_of_true ?_ (.inr (.inl fun t ht => ⟨hstart.trans (hstarts t ht), hgt t ht⟩))
        rw [resultLoop_cut hgt (hcut (hgt last hmemLast))]
        have hbytes := Tagged.bytes (fun t => t ∈ first :: later ∧ start ≤ t.startOffset ∧
          t.endOffset ≤ stop) (stop - start) start
        rwa [Nat.add_sub_cancel' hle] at hbytes
  · have hlt : first.startOffset < start := Nat.lt_of_not_le hstart
    by_cases hgt : stop < last.endOffset
    · -- nothing is opened, nothing is closed
      refine iff_of_true ?_ (.inr (.inr ⟨⟨first, rfl, hlt⟩, .inr ⟨last, rfl, hgt⟩⟩))
      apply tagged_of_plain hle _ fun k _ _ => hcut hgt k
      intro t ht
      obtain rfl := Option.some.inj ht
      exact .inl hlt
    · by_cases hout : last.endOffset ≤ start
      · refine iff_of_true ?_ (.inr (.inr ⟨⟨first, rfl, hlt⟩,
          .inl fun t ht => (hends t ht).trans hout⟩))
        apply tagged_of_plain hle
        · intro t ht
          obtain rfl := Option.some.inj ht
          exact .inl hlt
        · intro k hk _
          apply closeTags_of_ne
          intro u hu
          have := hends u (List.mem_reverse.mp hu)
          omega
      · -- the last one is closed, and nothing is opened
        refine iff_of_false ?_ ?_
        · intro htagged
          have hclosed : Piece.closetag last.cond ∈
              resultLoop stop (first :: later) (stop - start) start (first :: later) := by
            refine closetag_mem_iff.mpr ⟨last.endOffset - 1, by omega, by omega, ?_⟩
            rw [hlast, List.reverse_append]
            show _ ∈ closeTags stop _ (last :: init.reverse)
            unfold closeTags
            rw [if_pos (Nat.le_of_not_lt hgt), if_pos (by omega)]
            exact List.mem_cons_self
          obtain ⟨c, hc⟩ := htagged.tags_iff.mpr ⟨last.cond, hclosed⟩
          exact opentag_not_mem_of_lt ⟨first, rfl, hlt⟩ hc
        · rintro (hall | hall | ⟨-, hall | ⟨t, ht, hlt'⟩⟩)
          · exact hstart (hall first List.mem_cons_self).1
          · exact hstart (hall first List.mem_cons_self).1
          · exact hout (hall last hmemLast)
          · obtain rfl := Option.some.inj ht
            exact hgt hlt'

end

end Senna.Snip
