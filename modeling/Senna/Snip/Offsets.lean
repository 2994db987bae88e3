/-
# The offsets of an occurrence

`sen_bm_tunedbm` adds up the original lengths of the characters it passes over. It goes on from
`start_offset` at the next call, so an error would be carried into all later occurrences.

There is one: with `SEN_SNIP_SKIP_LEADING_SPACES` the start of an occurrence is moved over the
blanks in front of it, and the lengths of its characters, which have these blanks among them, are
added to the moved start. The end is then too far by the blanks, and so is everything that follows.
Without a blank there all offsets are exact.
-/

import Senna.Snip.AllMatches

namespace Senna.Snip

open Senna.Lib

/-- What `sen_nstr_open` promises of `checks`: the lengths do not add up to more than the text. -/
structure Text.Lawful (t : Text) : Prop where
  sound : t.Sound
  upTo_le : t.upTo t.norm.length ≤ t.orig.length

/-- The first place of the original character that `norm[f]` belongs to: the last one with
a length. -/
def Text.headOf (t : Text) : Nat → Nat
  | 0 => 0
  | f + 1 => if 0 < t.checks.getD (f + 1) 0 then f + 1 else t.headOf f

/-- Where the span of the original character begins. The blanks that have been removed in front of
the character belong to its span. -/
def Text.spanStart (t : Text) (f : Nat) : Nat := t.upTo (t.headOf f)

/-- Where the span ends. -/
def Text.spanEnd (t : Text) (f : Nat) : Nat := t.upTo (t.headOf f + 1)

/-- A blank stands at a place of the original text. -/
def Text.BlankAt (t : Text) (offset : Nat) : Prop :=
  offset < t.orig.length ∧ ∃ i, senIsspace t.encoding (t.orig.drop offset) = some (i + 1)

/-- Where the original character begins: with `SEN_SNIP_SKIP_LEADING_SPACES` behind the blanks of
its span, if there is something behind them. -/
def Text.charStart (t : Text) (skip : Bool) (f : Nat) : Nat :=
  match skip, skipSpaces t (t.orig.length - t.spanStart f) (t.spanStart f) with
  | true, some offset => if offset < t.spanEnd f then offset else t.spanStart f
  | _, _ => t.spanStart f

section

variable {cond : SnipCond} {t : Text} {x : List UInt8} {skip : Bool}

theorem Text.upTo_headOf (f : Nat) : t.upTo (t.headOf f + 1) = t.upTo (f + 1) := by
  induction f with
  | zero => rfl
  | succ f ih =>
      unfold Text.headOf
      split_ifs with hpos
      · rfl
      · have hstep : t.upTo (f + 1 + 1) = t.upTo (f + 1) + (t.checks.getD (f + 1) 0).toNat := rfl
        omega

/-- A place with a length is the head of all places up to the next one with a length. -/
theorem Text.headOf_eq {h f : Nat} (hle : h ≤ f) (hpos : 0 < t.checks.getD h 0)
    (hsame : t.upTo (h + 1) = t.upTo (f + 1)) : t.headOf f = h := by
  induction f, hle using Nat.le_induction with
  | base =>
      cases h with
      | zero => rfl
      | succ h => exact if_pos hpos
  | succ f hle ih =>
      have hstep : t.upTo (f + 1 + 1) = t.upTo (f + 1) + (t.checks.getD (f + 1) 0).toNat := rfl
      have hmono : t.upTo (h + 1) ≤ t.upTo (f + 1) := Text.upTo_mono (by omega)
      rw [Text.headOf, if_neg (by omega)]
      exact ih (by omega)

/-- The condition after `n` calls of `sen_bm_tunedbm`. -/
def calls (t : Text) (skip : Bool) : Nat → SnipCond → Option SnipCond
  | 0, cond => some cond
  | n + 1, cond => (calls t skip n cond).bind fun cond => senBmTunedbm cond t skip

/-- The place of the occurrence that is to be reported next, when the search goes on from `a`: the
first hit. For a keyword of one byte no other occurrence may stand before it. -/
def Text.Next (t : Text) (x : List UInt8) (a f : Nat) : Prop :=
  t.FirstHit x a (some f) ∧ (x.length = 1 → ∀ g, a ≤ g → g < f → ¬OccursAt x t.norm g)

/-- The offsets reported for an occurrence at `f` are those of its characters. -/
structure SnipCond.ExactAt (cond : SnipCond) (t : Text) (x : List UInt8) (skip : Bool) (f : Nat) :
    Prop where
  start : cond.startOffset = t.charStart skip f
  stop : cond.endOffset = t.spanEnd (f + x.length - 1)
  start_le : cond.startOffset ≤ cond.endOffset
  stop_le : cond.endOffset ≤ t.orig.length

/-- Every call that reports an occurrence reports its exact offsets. -/
def OffsetsExact (t : Text) (x : List UInt8) (skip : Bool) (cond : SnipCond) : Prop :=
  ∀ n c c' f, calls t skip n cond = some c → senBmTunedbm c t skip = some c' →
    t.Next x c.found f → c'.ExactAt t x skip f

/-- No call reports an occurrence whose first character has a blank at the beginning of its
span. -/
def NoBlankBefore (t : Text) (x : List UInt8) (skip : Bool) (cond : SnipCond) : Prop :=
  ∀ n c c' f, calls t skip n cond = some c → senBmTunedbm c t skip = some c' →
    t.Next x c.found f → ¬t.BlankAt (t.spanStart f)

theorem Text.FirstHit.unique {a : Nat} {r r' : Option Nat} (h : t.FirstHit x a r)
    (h' : t.FirstHit x a r') : r = r' := by
  cases r with
  | none =>
      cases r' with
      | none => rfl
      | some f' => exact absurd h'.2.1 (h f' h'.1)
  | some f =>
      cases r' with
      | none => exact absurd h.2.1 (h' f h.1)
      | some f' =>
          have hle : ¬ f < f' := fun hlt => h'.2.2 f h.1 hlt h.2.1
          have hge : ¬ f' < f := fun hlt => h.2.2 f' h'.1 hlt h'.2.1
          exact congrArg some (by omega)

/-- For a keyword of one byte. -/
theorem searchByte_eq {c : UInt8} {found : Nat} {r : Option Nat}
    (h : searchByte t c found = some r) (f : Nat) : r = some f ↔ t.Next [c] found f := by
  rcases searchByte_first h with ⟨rfl, hnone⟩ | ⟨f₀, hle, hocc, hbefore, rfl⟩
  · exact iff_of_false nofun fun hnext => hnone f hnext.1.1 hnext.1.2.1.1
  · constructor
    · intro heq
      split_ifs at heq with hcheck
      obtain rfl := Option.some.inj heq
      exact ⟨⟨hle, ⟨hocc, hcheck⟩, fun g hg hlt hhit => hbefore g hg hlt hhit.1⟩,
        fun _ => hbefore⟩
    · rintro ⟨⟨hle', hhit, -⟩, hfirst⟩
      have hlow : ¬ f₀ < f := fun hlt => hfirst rfl f₀ hle hlt hocc
      have hhigh : ¬ f < f₀ := fun hlt => hbefore f hle' hlt hhit.1
      obtain rfl : f₀ = f := by omega
      exact if_pos hhit.2

/-- What the search finds is the next occurrence. -/
theorem SnipCond.Armed.search_eq (h : cond.Armed t x) (f : Nat) :
    cond.search t x = some (some f) ↔ t.Next x cond.found f := by
  obtain ⟨r, hsearch, -⟩ := h.ready.search
  rw [hsearch, Option.some.injEq]
  by_cases hone : x.length = 1
  · obtain ⟨c, rfl⟩ := List.length_eq_one_iff.mp hone
    exact searchByte_eq hsearch f
  · have hfirst := SnipCond.search_first h.tables h.ready.ne_nil (fun h => absurd h hone) hsearch
    refine ⟨?_, fun hnext => hfirst.unique hnext.1⟩
    rintro rfl
    exact ⟨hfirst, fun h => absurd h hone⟩

/-- A condition whose offsets are exact so far. -/
structure SnipCond.OnCourse (cond : SnipCond) (t : Text) (x : List UInt8) : Prop where
  armed : cond.Armed t x
  placed : cond.Placed t
  start : cond.startOffset = t.upTo cond.lastFound

/-- The loop over blanks does not move where none stands. -/
theorem skipSpaces_of_not_blankAt {offset r : Nat} (hno : ¬t.BlankAt offset) {k : Nat}
    (h : skipSpaces t k offset = some r) : r = offset := by
  cases k with
  | zero => exact (Option.some.inj h).symm
  | succ k =>
      unfold skipSpaces at h
      split_ifs at h with hlt
      · obtain ⟨i, hi, h⟩ := Option.bind_eq_some_iff.mp h
        split_ifs at h with hzero
        · exact (Option.some.inj h).symm
        · obtain ⟨j, rfl⟩ := Nat.exists_eq_succ_of_ne_zero hzero
          exact absurd ⟨hlt, j, hi⟩ hno
      · exact (Option.some.inj h).symm

/-- It moves where one stands. -/
theorem skipSpaces_of_blankAt {offset r : Nat} (hblank : t.BlankAt offset)
    (h : skipSpaces t (t.orig.length - offset) offset = some r) : offset < r := by
  obtain ⟨hlt, i, hi⟩ := hblank
  obtain ⟨k, hk⟩ : ∃ k, t.orig.length - offset = k + 1 := ⟨t.orig.length - offset - 1, by omega⟩
  rw [hk, skipSpaces, if_pos hlt, hi] at h
  have hrest := (skipSpaces_spec h).1
  omega

/-- What a call reports while the offsets are exact: the start of the span, or a place behind the
blanks there, and the end, as far behind as it should be behind the start of the span. -/
theorem SnipCond.OnCourse.report {cond' : SnipCond} {f : Nat} (h : cond.OnCourse t x)
    (ht : t.Lawful) (hnext : t.Next x cond.found f)
    (hcall : senBmTunedbm cond t skip = some cond') :
    cond'.lastFound = t.headOf f ∧
      (skip = false → cond'.startOffset = t.spanStart f) ∧
      (skip = true → skipSpaces t (t.orig.length - t.spanStart f) (t.spanStart f) =
        some cond'.startOffset) ∧
      cond'.endOffset + t.spanStart f = cond'.startOffset + t.spanEnd (f + x.length - 1) ∧
      t.spanStart f < t.spanEnd (f + x.length - 1) ∧
      t.spanEnd (f + x.length - 1) ≤ t.orig.length := by
  have hsearch := (h.armed.search_eq f).mpr hnext
  obtain ⟨r, hr, hplace⟩ := h.armed.ready.search
  obtain rfl := Option.some.inj (hsearch.symm.trans hr)
  obtain ⟨hle, hend⟩ := hplace f rfl
  rw [senBmTunedbm_eq h.armed.ready.keyword, hsearch, Option.bind_some] at hcall
  obtain ⟨last, offset, hlast, hpos, hhead, hoffset, hlastEq, -, -, -, hkeep, hskip, hsum⟩ :=
    h.placed.report_eq ht.sound hle hend hnext.1.2.1.2 hcall
  have hm : 0 < x.length := List.length_pos_iff.mpr h.armed.ready.ne_nil
  have hstart := h.start
  have hheadOf : t.headOf f = last := Text.headOf_eq hlast hpos hhead
  have hspan : t.spanStart f = t.upTo last := by rw [Text.spanStart, hheadOf]
  have hspanEnd : t.spanEnd (f + x.length - 1) = t.upTo (f + x.length) := by
    rw [Text.spanEnd, Text.upTo_headOf, Nat.sub_add_cancel (by omega)]
  have hoff : offset = t.spanStart f := by omega
  have hlt : t.upTo last < t.upTo (f + x.length) := Text.upTo_lt hpos (by omega)
  have hall : t.upTo (f + x.length) ≤ t.upTo t.norm.length := Text.upTo_mono hend
  have htotal := ht.upTo_le
  rw [← hoff, hspanEnd]
  exact ⟨hlastEq.trans hheadOf.symm, hkeep, hskip, by omega, by omega, by omega⟩

/-- **One call** is exact if and only if there is no blank to skip. -/
theorem SnipCond.OnCourse.exactAt_iff {cond' : SnipCond} {f : Nat} (h : cond.OnCourse t x)
    (ht : t.Lawful) (hnext : t.Next x cond.found f)
    (hcall : senBmTunedbm cond t skip = some cond') :
    cond'.ExactAt t x skip f ↔ (skip = true → ¬t.BlankAt (t.spanStart f)) := by
  obtain ⟨-, hkeep, hskip, hsum, hlt, hle⟩ := h.report ht hnext hcall
  constructor
  · intro hexact htrue hblank
    have hmoved := skipSpaces_of_blankAt hblank (hskip htrue)
    have hstop := hexact.stop
    omega
  · intro hno
    have hstart : cond'.startOffset = t.spanStart f ∧ t.charStart skip f = t.spanStart f := by
      cases skip with
      | false => exact ⟨hkeep rfl, rfl⟩
      | true =>
          have hsame := skipSpaces_of_not_blankAt (hno rfl) (hskip rfl)
          refine ⟨hsame, ?_⟩
          simp only [Text.charStart, hskip rfl, hsame, ite_self]
    exact ⟨hstart.1.trans hstart.2.symm, by omega, by omega, by omega⟩

/-- A call keeps the offsets exact if there is no blank to skip. -/
theorem SnipCond.OnCourse.call {cond' : SnipCond} (h : cond.OnCourse t x) (ht : t.Lawful)
    (hcall : senBmTunedbm cond t skip = some cond')
    (hno : skip = true → ∀ f, t.Next x cond.found f → ¬t.BlankAt (t.spanStart f)) :
    cond'.OnCourse t x := by
  obtain ⟨hsought, hprep, -⟩ := senBmTunedbm_sought h.armed.ready h.placed ht.sound hcall
  obtain ⟨x', hready⟩ := hsought.ready
  refine ⟨h.armed.of_prepared hprep hready.found_le, hsought.placed, ?_⟩
  obtain ⟨r, hsearch, -⟩ := h.armed.ready.search
  cases r with
  | none =>
      rw [senBmTunedbm_eq h.armed.ready.keyword, hsearch] at hcall
      obtain rfl := Option.some.inj hcall
      exact h.start
  | some f =>
      have hnext := (h.armed.search_eq f).mp hsearch
      obtain ⟨hlast, hkeep, hskip, -⟩ := h.report ht hnext hcall
      rw [hlast]
      cases skip with
      | false => exact hkeep rfl
      | true => exact skipSpaces_of_not_blankAt (hno rfl f hnext) (hskip rfl)

/-- The condition after some calls is on course as long as there is no blank to skip. -/
theorem calls_onCourse {n : Nat} {c : SnipCond} (h : cond.OnCourse t x) (ht : t.Lawful)
    (hcalls : calls t skip n cond = some c)
    (hno : skip = true → ∀ k < n, ∀ c c' f, calls t skip k cond = some c →
      senBmTunedbm c t skip = some c' → t.Next x c.found f → ¬t.BlankAt (t.spanStart f)) :
    c.OnCourse t x := by
  induction n generalizing c with
  | zero =>
      obtain rfl := Option.some.inj hcalls
      exact h
  | succ n ih =>
      obtain ⟨c₀, hc₀, hcall⟩ := Option.bind_eq_some_iff.mp hcalls
      have hcourse := ih hc₀ fun hskip k hk => hno hskip k (Nat.lt_succ_of_lt hk)
      exact hcourse.call ht hcall fun hskip f hnext =>
        hno hskip n (Nat.lt_succ_self n) c₀ c f hc₀ hcall hnext

/-- **The offsets of all occurrences are exact if and only if no blanks are skipped.** -/
theorem offsetsExact_iff (hne : x ≠ []) (h : cond.Fresh x) (hstart : cond.startOffset = 0)
    (hlast : cond.lastFound = 0) (ht : t.Lawful) :
    OffsetsExact t x skip cond ↔ (skip = true → NoBlankBefore t x skip cond) := by
  obtain ⟨hready, htables⟩ := h.ready hne t
  have hcourse : cond.OnCourse t x :=
    ⟨⟨hready, htables⟩, ⟨by omega, .inl hlast, by omega⟩, by rw [hstart, hlast]; rfl⟩
  constructor
  · intro hexact hskip n
    -- the first blank that is skipped would make its own call inexact
    induction n using Nat.strong_induction_on with
    | _ n ih =>
        intro c c' f hcalls hcall hnext
        have hc := calls_onCourse hcourse ht hcalls fun _ k hk => ih k hk
        exact (hc.exactAt_iff ht hnext hcall).mp (hexact n c c' f hcalls hcall hnext) hskip
  · intro hno n c c' f hcalls hcall hnext
    have hc := calls_onCourse hcourse ht hcalls fun hskip k _ => hno hskip k
    exact (hc.exactAt_iff ht hnext hcall).mpr fun hskip => hno hskip n c c' f hcalls hcall hnext

/-- "a b" with the blank removed: the span of the last character is the blank and it. -/
def removedBlank : Text := ⟨[0x61, 0x62], [1, 2], rfl, [0x61, 0x20, 0x62], .none⟩

theorem removedBlank_lawful : removedBlank.Lawful where
  sound := {
    headed := fun i hi => by
      rcases i with _ | _ | i
      · exact absurd hi (by decide)
      · exact absurd hi (by decide)
      · exact absurd hi (lt_irrefl 0)
    entry_lt := fun i => by
      rcases i with _ | _ | i
      · decide
      · decide
      · exact show (0 : Int) < 2 ^ 15 by decide
    norm_lt := by decide
    orig_lt := by decide }
  upTo_le := by decide

/-- The keyword "a" is in front of the blank. -/
theorem offsetsExact_iff_removed :
    OffsetsExact removedBlank [0x61] true (senSnipCondInit some [0x61]).2 := by
  refine (offsetsExact_iff (List.cons_ne_nil _ _)
    (SnipCond.fresh_init rfl (List.cons_ne_nil _ _)) rfl rfl
    removedBlank_lawful).mpr fun _ n c c' f _ _ hnext hblank => ?_
  have hhit := hnext.1.2.1
  have hle : f + 1 ≤ 2 := hhit.lt_length (List.cons_ne_nil _ _)
  obtain rfl | rfl : f = 0 ∨ f = 1 := by omega
  · obtain ⟨-, i, hi⟩ := hblank
    change some 0 = some (i + 1) at hi
    cases hi
  · exact absurd hhit (by decide)

/-- The keyword "b" is found at 2. Its end is reported at 4, behind the text. -/
theorem offsetsExact_fails :
    ¬OffsetsExact removedBlank [0x62] true (senSnipCondInit some [0x62]).2 := by
  intro h
  have hfirst : removedBlank.Next [0x62] 0 1 := by
    refine ⟨⟨by decide, by decide, fun g _ hlt => ?_⟩, fun _ g _ hlt => ?_⟩ <;>
      obtain rfl : g = 0 := by omega
    · decide
    · decide
  have hexact := h 0 _ _ 1 rfl rfl hfirst
  exact absurd hexact.stop_le (by decide)

end

end Senna.Snip
