/-
# Checks of a normalized text

`sen_nstr_open` notes in `checks` how many bytes of the original a character of the normalized
text stands for, and -1 where several characters come from one. The numbers are of 16 bits. With
less than `2 ^ 15` bytes of text none of them wraps around, what is noted first for a character of
the original is positive, and a snippet can be made from the text.
-/

import Mathlib.Data.List.GetD
import Senna.Snip.Reported
import Senna.Str.Normalize

namespace Senna.Str

/-- Entries of 16 bits, those below 0 behind a positive one. -/
structure Headed (cs : List Int) : Prop where
  behind : ∀ i, cs.getD i 0 < 0 → ∃ j < i, 0 < cs.getD j 0
  lt : ∀ c ∈ cs, c < 2 ^ 15

namespace Headed

variable {cs : List Int} {c : Int}

theorem nil : Headed [] := ⟨fun _ h => absurd h (lt_irrefl 0), fun _ h => absurd h List.not_mem_nil⟩

theorem take (h : Headed cs) (n : Nat) : Headed (cs.take n) := by
  have hget {i : Nat} (hi : i < n) : (cs.take n).getD i 0 = cs.getD i 0 := by
    rw [List.getD_eq_getElem?_getD, List.getElem?_take_of_lt hi, List.getD_eq_getElem?_getD]
  refine ⟨fun i hneg => ?_, fun c hc => h.lt c (List.mem_of_mem_take hc)⟩
  have hi : i < n := by
    by_contra hle
    rw [List.getD_eq_default _ _ ((List.length_take_le n cs).trans (not_lt.mp hle))] at hneg
    exact lt_irrefl 0 hneg
  rw [hget hi] at hneg
  obtain ⟨j, hj, hpos⟩ := h.behind i hneg
  exact ⟨j, hj, by rwa [hget (hj.trans hi)]⟩

/-- A place with a positive entry is one of the list. -/
theorem lt_length {j : Nat} (hpos : 0 < cs.getD j 0) : j < cs.length := by
  by_contra hle
  rw [List.getD_eq_default _ _ (not_lt.mp hle)] at hpos
  exact lt_irrefl 0 hpos

/-- An entry and zeros are put behind others; it is positive, or one before it is. -/
theorem append (h : Headed cs) (hc : 0 < c ∨ ∃ j, 0 < cs.getD j 0) (hlt : c < 2 ^ 15) (k : Nat) :
    Headed (cs ++ c :: List.replicate k 0) := by
  have hleft {i : Nat} (hi : i < cs.length) :
      (cs ++ c :: List.replicate k 0).getD i 0 = cs.getD i 0 := List.getD_append _ _ _ _ hi
  refine ⟨fun i hneg => ?_, fun x hx => ?_⟩
  · by_cases hi : i < cs.length
    · rw [hleft hi] at hneg
      obtain ⟨j, hj, hpos⟩ := h.behind i hneg
      exact ⟨j, hj, by rwa [hleft (lt_length hpos)]⟩
    · obtain ⟨m, rfl⟩ := Nat.exists_eq_add_of_le (not_lt.mp hi)
      rw [List.getD_append_right _ _ _ _ (Nat.le_add_right _ _), Nat.add_sub_cancel_left] at hneg
      have hneg' : c < 0 := by
        cases m with
        | zero => exact hneg
        | succ m =>
            rw [List.getD_cons_succ, List.getD_eq_getElem?_getD,
              List.getElem?_getD_replicate_default_eq] at hneg
            exact absurd hneg (lt_irrefl 0)
      obtain ⟨j, hpos⟩ := hc.resolve_left (not_lt.mpr hneg'.le)
      have hj := lt_length hpos
      exact ⟨j, by omega, by rwa [hleft hj]⟩
  · rcases List.mem_append.mp hx with hx | hx
    · exact h.lt x hx
    · rcases List.mem_cons.mp hx with rfl | hx
      · exact hlt
      · rw [List.eq_of_mem_replicate hx]
        decide

end Headed

/-- The checks so far are as they should be, one for each byte put out, and their offsets lie at
or before `e`. -/
structure Gen.Checked (g : Gen) (e : Nat) : Prop where
  headed : ∀ cs, g.checks = some cs → Headed cs ∧ cs.length = g.d
  start_le : g.s_ ≤ e
  before_le : g.s__ ≤ g.s_
  put_out : g.d ≤ g.bytes.length
  last_le : ∀ d_, g.d_ = some d_ → d_ ≤ g.d

/-- Within an expansion that ends at `e`: where the last offset is `e`, something has been noted
for it. -/
structure Gen.Noted (g : Gen) (e : Nat) : Prop extends g.Checked e where
  noted : g.s_ = e → ∀ cs, g.checks = some cs → ∃ j, 0 < cs.getD j 0

namespace Gen.Noted

variable {g : Gen} {alloc : Nat → Bool} {t : Nfkc} {f : StrFlags} {e : Nat}

/-- Of the buffer only the bytes and the two places matter. -/
theorem congr {g' : Gen} (h : g.Noted e) (hchecks : g'.checks = g.checks)
    (hoffsets : g'.s_ = g.s_ ∧ g'.s__ = g.s__)
    (hnorm : g'.bytes = g.bytes ∧ g'.d = g.d ∧ g'.d_ = g.d_) : g'.Noted e := by
  obtain ⟨hbytes, hd, hlast⟩ := hnorm
  refine ⟨⟨?_, ?_, ?_, ?_, ?_⟩, ?_⟩
  · rw [hchecks, hd]
    exact h.headed
  · rw [hoffsets.1]
    exact h.start_le
  · rw [hoffsets.1, hoffsets.2]
    exact h.before_le
  · rw [hbytes, hd]
    exact h.put_out
  · rw [hlast, hd]
    exact h.last_le
  · rw [hoffsets.1, hchecks]
    exact h.noted

theorem grow (h : g.Noted e) {lp : Nat} {g' : Gen} (hrun : g.grow alloc lp = some g') :
    g'.Noted e := by
  unfold Gen.grow at hrun
  obtain ⟨norm, hgrow, hrun⟩ := Option.bind_eq_some_iff.mp hrun
  have hnorm : norm.bytes = g.bytes ∧ norm.d = g.d ∧ norm.d_ = g.d_ := by
    unfold Norm.grow at hgrow
    dsimp only at hgrow
    split_ifs at hgrow <;> obtain rfl := Option.some.inj hgrow <;> exact ⟨rfl, rfl, rfl⟩
  split_ifs at hrun <;> obtain rfl := Option.some.inj hrun
  · exact h.congr rfl ⟨rfl, rfl⟩ hnorm
  · exact h

/-- A character is put out, and its entries are noted. -/
theorem put (h : g.Noted e) (hshort : e < 2 ^ 15) {p : List UInt8}
    (hlp : senStrCharlenUtf8 p ≠ 0) (length : Nat) (ctypes : Option (List Nat)) :
    ({ g with
      toNorm := g.toNorm.write p (senStrCharlenUtf8 p)
      length := length
      ctypes := ctypes }.pushChecks e (senStrCharlenUtf8 p)).Noted e := by
  have hlen := senStrCharlenUtf8_le p
  generalize senStrCharlenUtf8 p = lp at hlp hlen ⊢
  have hput := h.put_out
  have hroom : g.d + lp ≤ (g.toNorm.write p lp).bytes.length := by
    simp only [Norm.write, List.length_append, List.length_take, List.length_drop]
    omega
  have hlast (d_ : Nat) (heq : (g.toNorm.write p lp).d_ = some d_) : d_ ≤ g.d + lp :=
    Option.some.inj heq ▸ Nat.le_add_right _ _
  have hentries {cs : List Int} {c : Int} (hcs : cs.length = g.d) :
      (cs ++ c :: List.replicate (lp - 1) 0).length = g.d + lp := by
    rw [List.length_append, List.length_cons, List.length_replicate, hcs]
    omega
  unfold Gen.pushChecks
  cases hcs : g.checks with
  | none =>
      dsimp only
      exact ⟨⟨fun cs hnone => absurd hnone.symm (Option.some_ne_none cs), h.start_le, h.before_le,
        hroom, hlast⟩, fun _ cs hnone => absurd hnone.symm (Option.some_ne_none cs)⟩
  | some cs =>
      obtain ⟨hheaded, hlength⟩ := h.headed cs hcs
      by_cases hsame : g.s_ = e
      · obtain ⟨j, hpos⟩ := h.noted hsame cs hcs
        simp only [if_pos hsame]
        refine ⟨⟨fun cs' hcs' => ?_, h.start_le, h.before_le, hroom, hlast⟩,
          fun _ cs' hcs' => ?_⟩ <;> obtain rfl := Option.some.inj hcs'
        · exact ⟨hheaded.append (.inr ⟨j, hpos⟩) (by decide) _, hentries hlength⟩
        · exact ⟨j, by rwa [List.getD_append _ _ _ _ (Headed.lt_length hpos)]⟩
      · have hle := h.start_le
        have hentry : toInt16 ((e : Int) - g.s_) = (e : Int) - g.s_ := by
          unfold toInt16
          omega
        simp only [if_neg hsame, hentry]
        refine ⟨⟨fun cs' hcs' => ?_, le_rfl, hle, hroom, hlast⟩, fun _ cs' hcs' => ?_⟩ <;>
          obtain rfl := Option.some.inj hcs'
        · exact ⟨hheaded.append (.inl (by omega)) (by omega) _, hentries hlength⟩
        · refine ⟨cs.length, ?_⟩
          rw [List.getD_append_right _ _ _ _ le_rfl, Nat.sub_self]
          show 0 < (e : Int) - g.s_
          omega

/-- The loop over an expansion. -/
theorem expand {p : List UInt8} (h : g.Noted e) (hshort : e < 2 ^ 15) {g' : Gen}
    (hrun : g.expand alloc t f e p = some g') : g'.Noted e := by
  induction hn : p.length using Nat.strong_induction_on generalizing g p with
  | _ n ih =>
    rw [Gen.expand] at hrun
    by_cases hstop : senStrCharlenUtf8 p = 0
    · rw [dif_pos hstop] at hrun
      exact Option.some.inj hrun ▸ h
    · have hlt : (p.drop (senStrCharlenUtf8 p)).length < n :=
        hn ▸ length_drop_lt hstop (senStrCharlenUtf8_le p)
      simp only [hstop, dite_false] at hrun
      split_ifs at hrun
      · refine ih _ hlt ?_ hrun rfl
        exact h.congr rfl ⟨rfl, rfl⟩ ⟨rfl, rfl, rfl⟩
      · cases hgrow : g.grow alloc (senStrCharlenUtf8 p) with
        | none =>
            rw [hgrow] at hrun
            exact absurd hrun nofun
        | some g₁ =>
            rw [hgrow] at hrun
            exact ih _ hlt ((h.grow hgrow).put hshort hstop _ _) hrun rfl

end Gen.Noted

namespace Gen.Checked

variable {g : Gen} {alloc : Nat → Bool} {t : Nfkc} {f : StrFlags} {e : Nat}

/-- Nothing has been noted for a later offset yet. -/
theorem later (h : g.Checked e) {e' : Nat} (hlt : e < e') : g.Noted e' :=
  ⟨⟨h.headed, h.start_le.trans hlt.le, h.before_le, h.put_out, h.last_le⟩,
    fun heq => absurd (heq ▸ h.start_le) (not_le.mpr hlt)⟩

/-- The roll-back goes to the offset before the last one. -/
theorem undo (h : g.Checked e) {e' : Nat} (hlt : e < e') : g.undo.Noted e' := by
  have hle := h.start_le
  have hbefore := h.before_le
  have hstart : g.undo.s_ ≤ g.s_ ∧ g.undo.s__ ≤ g.undo.s_ := by
    unfold Gen.undo
    dsimp only
    split_ifs
    · exact ⟨hbefore, le_rfl⟩
    · exact ⟨le_rfl, hbefore⟩
  have hd : g.undo.d = g.d_.getD g.d ∧ g.d_.getD g.d ≤ g.d := by
    refine ⟨rfl, ?_⟩
    cases hd_ : g.d_ with
    | none => exact le_rfl
    | some d_ => exact h.last_le d_ hd_
  refine ⟨⟨fun cs hcs => ?_, by omega, hstart.2, (hd.1 ▸ hd.2).trans h.put_out, fun d_ hd_ => ?_⟩,
    fun heq => by omega⟩
  · obtain ⟨cs₀, hcs₀, rfl⟩ := Option.map_eq_some_iff.mp hcs
    obtain ⟨hheaded, hlength⟩ := h.headed cs₀ hcs₀
    refine ⟨hheaded.take _, ?_⟩
    rw [List.length_take, hd.1]
    omega
  · have hlast : g.d_ = some d_ := hd_
    rw [hd.1, hlast]
    exact le_rfl

theorem step {s : List UInt8} {o ls : Nat} (h : g.Checked o) (hpos : 0 < ls)
    (hshort : o + ls < 2 ^ 15) {g' : Gen} (hrun : g.step alloc t f s o ls = some g') :
    g'.Checked (o + ls) := by
  have hundo {r : List UInt8} (hrun : g.undo.expand alloc t f (o + ls) r = some g') :
      g'.Checked (o + ls) := ((h.undo (by omega)).expand hshort hrun).toChecked
  have hlater {pe : List UInt8} (hrun : g.expand alloc t f (o + ls) pe = some g') :
      g'.Checked (o + ls) := ((h.later (by omega)).expand hshort hrun).toChecked
  unfold Gen.step at hrun
  cases hmap : t.map1 s with
  | none =>
      cases hcompose : g.toNorm.compose t s with
      | none =>
          simp only [hmap, hcompose] at hrun
          exact hlater hrun
      | some r =>
          simp only [hmap, hcompose] at hrun
          exact hundo hrun
  | some p =>
      cases hcompose : g.toNorm.compose t p with
      | none =>
          simp only [hmap, hcompose] at hrun
          exact hlater hrun
      | some r =>
          simp only [hmap, hcompose] at hrun
          exact hundo hrun

/-- The loop over the text. -/
theorem loop {s : List UInt8} {o : Nat} (h : g.Checked o) (hshort : o + s.length < 2 ^ 15)
    {g' : Gen} (hrun : g.loop alloc t f s o = some g') : ∃ o', g'.Checked o' := by
  induction hn : s.length using Nat.strong_induction_on generalizing g s o with
  | _ n ih =>
    rw [Gen.loop] at hrun
    by_cases hstop : senStrCharlenUtf8 s = 0
    · rw [dif_pos hstop] at hrun
      exact ⟨o, Option.some.inj hrun ▸ h⟩
    · have hle := senStrCharlenUtf8_le s
      have hlt : (s.drop (senStrCharlenUtf8 s)).length < n :=
        hn ▸ length_drop_lt hstop hle
      simp only [hstop, dite_false] at hrun
      cases hstep : g.step alloc t f s o (senStrCharlenUtf8 s) with
      | none =>
          rw [hstep] at hrun
          exact absurd hrun nofun
      | some g₁ =>
          rw [hstep] at hrun
          refine ih _ hlt (h.step (Nat.pos_of_ne_zero hstop) (by omega) hstep) ?_ hrun rfl
          rw [List.length_drop]
          omega

end Gen.Checked

/-- **The checks of a short text**: there is one for each byte of the normalized text, and they
are positive where a character of the original begins. -/
theorem normalizeUtf8_headed {alloc : Nat → Bool} {t : Nfkc} {f : StrFlags} {orig : List UInt8}
    {n : SenNstr} (hshort : orig.length < 2 ^ 15) (hrun : normalizeUtf8 alloc t f orig = some n)
    {cs : List Int} (hcs : n.checks = some cs) : Headed cs ∧ cs.length = n.norm.length := by
  unfold normalizeUtf8 at hrun
  dsimp only at hrun
  obtain ⟨-, hfail⟩ | ⟨-, hrun⟩ := ite_eq_iff.mp hrun
  · exact absurd hfail nofun
  obtain ⟨g, hloop, hn⟩ := Option.bind_eq_some_iff.mp hrun
  obtain rfl := Option.some.inj hn
  have hstart (cs : List Int) (hstart : (if f.withChecks then some [] else none) = some cs) :
      Headed cs ∧ cs.length = 0 := by
    split_ifs at hstart
    exact Option.some.inj hstart ▸ ⟨Headed.nil, rfl⟩
  obtain ⟨o, hchecked⟩ := Gen.Checked.loop (o := 0)
    ⟨hstart, le_rfl, le_rfl, Nat.zero_le _,
      fun d_ hlast => absurd (show none = some d_ from hlast) nofun⟩ (by omega) hloop
  obtain ⟨hheaded, hlength⟩ := hchecked.headed cs hcs
  refine ⟨hheaded, ?_⟩
  rw [hlength, List.length_take, Nat.min_eq_left hchecked.put_out]

end Senna.Str

namespace Senna.Snip

open Senna.Str

variable {alloc : Nat → Bool} {t : Nfkc} {flags : Nat} {string : List UInt8}

/-- `sen_nstr_open` of a text in UTF-8 with `SEN_STR_WITH_CHECKS`, for less than `2 ^ 15` bytes
of which the tables make less than `2 ^ 40`. The two lengths always agree. -/
def normalizedOpen (alloc : Nat → Bool) (t : Nfkc) (flags : Nat) (string : List UInt8) :
    Option Text := do
  let n ← senNstrOpen alloc t string flags
  let cs ← n.checks
  if h : cs.length = n.norm.length ∧ string.length < 2 ^ 15 ∧ n.norm.length < 2 ^ 40 then
    some ⟨n.norm, cs, h.1, string, .utf8⟩
  else none

theorem senNstrOpen_headed (hshort : string.length < 2 ^ 15) {n : SenNstr}
    (hopen : senNstrOpen alloc t string flags = some n) {cs : List Int}
    (hcs : n.checks = some cs) : Headed cs ∧ cs.length = n.norm.length := by
  unfold senNstrOpen at hopen
  split_ifs at hopen
  exact normalizeUtf8_headed hshort hopen hcs

/-- What `sen_nstr_open` makes of such a text is opened. -/
theorem normalizedOpen_of_open (hshort : string.length < 2 ^ 15) {n : SenNstr}
    (hopen : senNstrOpen alloc t string flags = some n) {cs : List Int}
    (hcs : n.checks = some cs) (hnorm : n.norm.length < 2 ^ 40) :
    ∃ text, normalizedOpen alloc t flags string = some text ∧ text.norm = n.norm ∧
      text.checks = cs := by
  have hlength := (senNstrOpen_headed hshort hopen hcs).2
  refine ⟨⟨n.norm, cs, hlength, string, .utf8⟩, ?_, rfl, rfl⟩
  unfold normalizedOpen
  rw [hopen, Option.bind_eq_bind, Option.bind_some, hcs, Option.bind_eq_bind, Option.bind_some,
    dif_pos ⟨hlength, hshort, hnorm⟩]

/-- **A normalized text is sound**: a snippet can be made from it. -/
theorem normalizedOpen_sound {text : Text} (h : normalizedOpen alloc t flags string = some text) :
    text.Sound := by
  obtain ⟨n, hopen, h⟩ := Option.bind_eq_some_iff.mp h
  obtain ⟨cs, hcs, h⟩ := Option.bind_eq_some_iff.mp h
  split_ifs at h with hbounds
  obtain rfl := Option.some.inj h
  obtain ⟨hheaded, -⟩ := senNstrOpen_headed hbounds.2.1 hopen hcs
  refine ⟨hheaded.behind, fun i => ?_, hbounds.2.2, hbounds.2.1.trans (by decide)⟩
  by_cases hi : i < cs.length
  · show cs.getD i 0 < _
    rw [List.getD_eq_getElem _ _ hi]
    exact hheaded.lt _ (List.getElem_mem hi)
  · show cs.getD i 0 < _
    rw [List.getD_eq_default _ _ (not_lt.mp hi)]
    decide

end Senna.Snip
