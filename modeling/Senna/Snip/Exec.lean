/-
# Making snippets

`sen_snip_exec` searches all keywords in a text and fills one snippet after the other: it
takes the occurrence that comes first, records it when it lies within the snippet, and has
its keyword look for the next one. Once no occurrence is left for a snippet, the slice of the
text that the snippet shows is moved, so that the occurrences come to its middle.

The arrays `tag_result` and `snip_result` are lists of what has been recorded. The byte
behind the text is taken to be NUL, as in a C string; any other read outside the text makes
the model's function `none`. Offsets are computed modulo `2 ^ 64`.
-/

import Senna.Snip.Open

namespace Senna.Snip

/-- The number of bytes that `sen_fakenstr_open` counts for a character with this first byte. -/
def leadWidth (encoding : SenEncoding) (c : UInt8) : Nat :=
  match encoding with
  | .eucJp => if (0xa1 ≤ c ∧ c ≤ 0xfe) ∨ c = 0x8e then 2 else if c = 0x8f then 3 else 1
  | .sjis => if 0x81 ≤ c ∧ (c ≤ 0x9f ∨ (0xe0 ≤ c ∧ c ≤ 0xfc)) then 2 else 1
  | .utf8 =>
      if c &&& 0x80 ≠ 0 then if c &&& 0x20 ≠ 0 then if c &&& 0x10 ≠ 0 then 4 else 3 else 2 else 1
  | _ => 1

/-- The loop over the bytes; `f` of them still belong to the last character. -/
def fakeChecks (encoding : SenEncoding) : Nat → List UInt8 → List Int
  | _, [] => []
  | 0, c :: s => leadWidth encoding c :: fakeChecks encoding (leadWidth encoding c - 1) s
  | f + 1, _ :: s => 0 :: fakeChecks encoding f s

theorem length_fakeChecks (encoding : SenEncoding) (f : Nat) (s : List UInt8) :
    (fakeChecks encoding f s).length = s.length := by
  induction s generalizing f with
  | nil => cases f <;> rfl
  | cons c s ih =>
      cases f with
      | zero => exact congrArg (· + 1) (ih _)
      | succ f => exact congrArg (· + 1) (ih _)

/-- `sen_fakenstr_open(str, str_len, encoding, SEN_STR_WITH_CHECKS)`. It leaves `encoding` in
the object unset: `unset` is what happens to be there. -/
def senFakenstrOpen (unset encoding : SenEncoding) (str : List UInt8) : Text where
  norm := str
  checks := fakeChecks encoding 0 str
  length_checks := length_fakeChecks encoding 0 str
  orig := str
  encoding := unset

/-- `sen_bm_check_euc` and `sen_bm_check_sjis` on the bytes before `offset`: an even number of
bytes for which `inner` holds stands there. -/
def evenBefore (inner : UInt8 → Bool) (string : List UInt8) (offset : Nat) : Option Bool :=
  if offset ≤ string.length + 1 then
    some ((((string ++ [0]).take offset).reverse.takeWhile inner).length % 2 = 0)
  else none

/-- `sen_bm_check_euc` -/
def senBmCheckEuc : List UInt8 → Nat → Option Bool := evenBefore fun b => decide (0x80 ≤ b)

/-- `sen_bm_check_sjis` -/
def senBmCheckSjis : List UInt8 → Nat → Option Bool :=
  evenBefore fun b => decide (¬(b < 0x81 ∨ (0x9f < b ∧ b < 0xe0) ∨ 0xfc < b))

/-- `offset += doffset` for `doffset` 1 and -1; `none` before the text. -/
def stepOffset (forward : Bool) (offset : Nat) : Option Nat :=
  if forward then some (offset + 1) else if offset = 0 then none else some (offset - 1)

/-- `sen_snip_find_firstbyte(string, encoding, offset, doffset)`, with at most `k` rounds. -/
def senSnipFindFirstbyte (string : List UInt8) (encoding : SenEncoding) (forward : Bool) :
    Nat → Nat → Option Nat
  | 0, _ => none
  | k + 1, offset =>
      match encoding with
      | .eucJp => do
          if ← senBmCheckEuc string offset then some offset
          else senSnipFindFirstbyte string encoding forward k (← stepOffset forward offset)
      | .sjis => do
          if ← senBmCheckSjis string offset then some offset else stepOffset forward offset
      | .utf8 => do
          let b ← (string ++ [0])[offset]?
          if 0x80 ≤ b ∧ b ≤ 0xc0 then
            senSnipFindFirstbyte string encoding forward k (← stepOffset forward offset)
          else some offset
      | _ => some offset

/-- The number of bytes that `count_mapped_chars` counts for one. -/
def mappedWidth (b : UInt8) : Nat :=
  if b = 0x3c ∨ b = 0x3e then 4 else if b = 0x26 then 5 else if b = 0x22 then 6 else 1

/-- `count_mapped_chars` on the bytes from `start` to `stop`. -/
def countMappedChars (string : List UInt8) (start stop : Nat) : Option Nat :=
  if start ≤ stop ∧ stop ≤ string.length then
    some ((((string.drop start).take (stop - start)).map mappedWidth).sum)
  else none

/-- `sen_bm_tunedbm(&snip->cond[i], snip->nstr, snip->flags)` -/
def tuneCond (t : Text) (f : SnipFlags) (conds : List TaggedCond) (i : Nat) :
    Option (List TaggedCond) :=
  (conds[i]?).bind fun c =>
    (senBmTunedbm c.cond t f.skipLeadingSpaces).map fun cond => conds.set i { c with cond := cond }

/-- The condition that is not stopped and has the smallest offset, and of these the greatest
end. -/
def nextCond (conds : List TaggedCond) : Option Nat :=
  (conds.zipIdx.foldl (fun (minStart, maxEnd, best) (c, i) =>
    if c.cond.stopflag = .nonstop ∧ (minStart > c.cond.startOffset ∨
        (minStart = c.cond.startOffset ∧ maxEnd < c.cond.endOffset)) then
      (c.cond.startOffset, c.cond.endOffset, some i)
    else (minStart, maxEnd, best)) (2 ^ 64 - 1, 0, none)).2.2

/-- The variables while a snippet is filled. `start`, `first` and `tagCount` are fields of
`*snip_result`. -/
structure Filling where
  conds : List TaggedCond
  tags : List TagResult
  unfound : Nat
  start : Nat
  first : Nat
  tagCount : Nat
  taggedLen : Nat
  lastTagEnd : Nat
  lastEnd : Nat
  found : Bool

section

variable (t : Text) (f : SnipFlags) (width maxResults : Nat)

/-- The search goes on with the condition `i`. -/
def Filling.tune (st : Filling) (i : Nat) : Option (Bool × Filling) :=
  (tuneCond t f st.conds i).map fun conds => (true, { st with conds := conds })

/-- `exclude_other_cond`: no other condition that has not been found yet ends within the
snippet that would start with the condition `i`. -/
def excludeOthers (conds : List TaggedCond) (i : Nat) (c : TaggedCond) : Bool :=
  conds.zipIdx.all fun (c', j) =>
    !(decide (j ≠ i) && decide (c'.cond.endOffset ≤ (c.cond.startOffset + width) % 2 ^ 64) &&
      decide (c'.cond.count = 0))

/-- The occurrence of the condition `i` is recorded. -/
def Filling.record (st : Filling) (i : Nat) (c : TaggedCond) : Filling :=
  { st with
    found := true
    unfound := if c.cond.count = 0 then st.unfound - 1 else st.unfound
    conds := st.conds.set i { c with cond := { c.cond with count := c.cond.count + 1 } }
    lastEnd := c.cond.endOffset
    tags := st.tags ++ [⟨c.cond.startOffset, c.cond.endOffset, i⟩]
    lastTagEnd := c.cond.endOffset
    tagCount := st.tagCount + 1
    taggedLen := st.taggedLen + (c.opentag.length + c.closetag.length) }

/-- The occurrence of the condition `i` is recorded, unless it gets across the snippet. -/
def Filling.tag (st : Filling) (i : Nat) (c : TaggedCond) : Option (Bool × Filling) :=
  if c.cond.endOffset > (st.start + width) % 2 ^ 64 then
    Filling.tune t f { st with
      conds := st.conds.set i { c with cond := { c.cond with stopflag := .across } } } i
  else if (st.record i c).tags.length ≥ maxSnipTagCount then some (false, st.record i c)
  else Filling.tune t f (st.record i c) i

/-- One round of the loop; `true` when it goes on. `rest` is `max_results - *nresults`. -/
def Filling.step (rest : Nat) (st : Filling) : Option (Bool × Filling) :=
  match nextCond st.conds with
  | none => some (false, st)
  | some i =>
      (st.conds[i]?).bind fun c =>
        if st.tagCount = 0 then
          if rest ≤ st.unfound ∧ 0 < c.cond.count ∧ excludeOthers width st.conds i c then
            Filling.tune t f st i
          else
            Filling.tag t f width
              { st with start := c.cond.startOffset, first := st.tags.length } i c
        else if c.cond.startOffset ≥ (st.start + width) % 2 ^ 64 then some (false, st)
        else if c.cond.startOffset < st.lastTagEnd then Filling.tune t f st i
        else Filling.tag t f width st i c

/-- The loop that fills a snippet. -/
def Filling.run (rest : Nat) : Nat → Filling → Option Filling
  | 0, _ => none
  | k + 1, st => do
      let (more, st) ← Filling.step t f width rest st
      if more then Filling.run rest k st else some st

/-- The slice that a snippet shows, and its length when mapped. -/
def Filling.place (string : List UInt8) (encoding : SenEncoding) (lastLastEnd : Nat)
    (st : Filling) : Option (Nat × Nat × Nat) := do
  let start :=
    if (st.start + st.lastEnd) % 2 ^ 64 < width then 0
    else max (min (toSize (st.start + st.lastEnd - width) / 2) (toSize (string.length - width)))
      lastLastEnd
  let start ← senSnipFindFirstbyte string encoding true (string.length + 2) start
  let stop := (start + width) % 2 ^ 64
  let stop ←
    if stop < string.length then
      senSnipFindFirstbyte string encoding false (string.length + 2) stop
    else some string.length
  let mapped ← countMappedChars string start stop
  some (start, stop, mapped)

/-- The variables between two snippets. -/
structure Snippets where
  conds : List TaggedCond
  tags : List TagResult
  results : List SnipResult
  unfound : Nat
  lastEnd : Nat
  lastLastEnd : Nat
  maxTaggedLen : Nat

/-- A snippet before it is filled. -/
def Snippets.blank (p : Snippets) : Filling where
  conds := p.conds
  tags := p.tags
  unfound := p.unfound
  start := 0
  first := 0
  tagCount := 0
  taggedLen := 0
  lastTagEnd := 0
  lastEnd := p.lastEnd
  found := false

/-- A bound for the rounds that fill a snippet: each one moves a condition on, or stops it. -/
def fillRounds (conds : List TaggedCond) : Nat := conds.length * (t.norm.length + 2) + 1

/-- The loop over the snippets, with room for `k` of them. `*max_tagged_len` is an
`unsigned int`, the `tagged_len` of a snippet a `size_t`. -/
def Snippets.run (string : List UInt8) (encoding : SenEncoding) : Nat → Snippets → Option Snippets
  | 0, p => some p
  | k + 1, p => do
      let st ← Filling.run t f width (k + 1) (fillRounds t p.conds) p.blank
      if !st.found then
        some { p with conds := st.conds, unfound := st.unfound, lastEnd := st.lastEnd }
      else
        let (start, stop, mapped) ← Filling.place width string encoding p.lastLastEnd st
        let p : Snippets := {
          conds := st.conds
          tags := st.tags
          results := p.results ++ [⟨start, stop, st.first, st.tags.length - 1, st.tagCount⟩]
          unfound := st.unfound
          lastEnd := st.lastEnd
          lastLastEnd := stop
          maxTaggedLen := max p.maxTaggedLen (st.taggedLen + (mapped + 1)) % 2 ^ 32 }
        if k = 0 ∨ st.tags.length = maxSnipTagCount then some p
        else if p.conds.all fun c => decide (c.cond.stopflag = .stop) then some p
        else Snippets.run string encoding k { p with
          conds := p.conds.map fun c =>
            if c.cond.stopflag = .stop then c
            else { c with cond := { c.cond with stopflag := .nonstop } } }

end

/-- `exec_clean` -/
def execClean (snip : SenSnip) : SenSnip :=
  { snip with
    text := none
    tagResult := []
    snipResult := []
    conds := snip.conds.map fun c => { c with cond := senSnipCondReinit c.cond } }

/-- The first search of every condition. -/
def tuneAll (t : Text) (f : SnipFlags) : List TaggedCond → Option (List TaggedCond)
  | [] => some []
  | c :: cs => do
      let cond ← senBmTunedbm c.cond t f.skipLeadingSpaces
      let cs ← tuneAll t f cs
      some ({ c with cond := cond } :: cs)

/-- `sen_snip_exec`. `nstrOpen` is `sen_nstr_open` or `sen_fakenstr_open`, as the flags say, on
the text; `*nresults` and `*max_tagged_len` are in the object. -/
def senSnipExec (nstrOpen : List UInt8 → Option Text) (snip : SenSnip) (string : List UInt8) :
    Option (SenRc × SenSnip) :=
  let snip := execClean snip
  match nstrOpen string with
  | none => some (.memoryExhausted, snip)
  | some t => do
      let conds ← tuneAll t snip.flags snip.conds
      let p ← Snippets.run t snip.flags snip.width string snip.encoding snip.maxResults
        ⟨conds, [], [], conds.length, 0, 0, 0⟩
      some (.success, { snip with
        string := string
        text := some t
        conds := p.conds
        tagResult := p.tags
        snipResult := p.results
        maxTaggedLen := p.maxTaggedLen })

/-- The slice of a snippet lies in the text, and its mapped bytes have been counted. -/
theorem Filling.place_spec {st : Filling} {width : Nat} {string : List UInt8}
    {encoding : SenEncoding} {lastLastEnd start stop mapped : Nat}
    (h : Filling.place width string encoding lastLastEnd st = some (start, stop, mapped)) :
    start ≤ stop ∧ stop ≤ string.length ∧
      mapped = (((string.drop start).take (stop - start)).map mappedWidth).sum := by
  obtain ⟨start', -, h⟩ := Option.bind_eq_some_iff.mp h
  have hlast : ∀ {stop'}, ((countMappedChars string start' stop').bind fun mapped' =>
      some (start', stop', mapped')) = some (start, stop, mapped) →
        countMappedChars string start stop = some mapped := by
    intro stop' h
    obtain ⟨mapped', hmapped, heq⟩ := Option.bind_eq_some_iff.mp h
    simp only [Option.some.injEq, Prod.mk.injEq] at heq
    obtain ⟨rfl, rfl, rfl⟩ := heq
    exact hmapped
  have hmapped : countMappedChars string start stop = some mapped := by
    dsimp only at h
    split_ifs at h
    · obtain ⟨stop', -, h⟩ := Option.bind_eq_some_iff.mp h
      exact hlast h
    · exact hlast h
  unfold countMappedChars at hmapped
  split_ifs at hmapped with hle
  exact ⟨hle.1, hle.2, (Option.some.inj hmapped).symm⟩

end Senna.Snip
