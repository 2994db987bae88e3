/-
# The matcher finds every hit of a keyword of several bytes

For a keyword of several bytes each call of `sen_bm_tunedbm` reports the first hit from the
place it goes on from, and repeated calls report all of them.

For a keyword of one byte a call looks at the first occurrence only: when that one is no
hit, the search stops. `FindsAll` therefore holds for these keywords only when no occurrence
that is not a hit stands before a hit.
-/

import Senna.Snip.Matches
import Senna.Snip.Reported

namespace Senna.Snip

open Senna.Lib

section

variable {cond : SnipCond} {t : Text} {x : List UInt8}

/-- A third of the unrolled loop passes over no hit. It jumps to `check` only when the window
ends with a byte that has no skip. -/
theorem skipRound_clear {p p' : Nat} {c : Bool} (h : cond.Tables x) (hne : x ≠ [])
    (hp : x.length ≤ p) (hrun : skipRound t cond.bmBc p = some (p', c)) :
    p ≤ p' ∧ t.Clear x p p' ∧ (c = true → ∃ b, t.norm[p' - 1]? = some b ∧ cond.bmBc b = 0) := by
  unfold skipRound at hrun
  simp only [Option.bind_eq_bind] at hrun
  obtain ⟨b, hb, hrun⟩ := Option.bind_eq_some_iff.mp hrun
  obtain ⟨b₁, hb₁, hrun⟩ := Option.bind_eq_some_iff.mp hrun
  have hjump := h.jump_clear hne hp hb
  split_ifs at hrun with hzero
  · obtain ⟨rfl, rfl⟩ := Prod.mk.inj (Option.some.inj hrun)
    exact ⟨by omega, hjump, fun _ => ⟨b₁, hb₁, hzero⟩⟩
  · obtain ⟨b₂, hb₂, hrun⟩ := Option.bind_eq_some_iff.mp hrun
    obtain ⟨rfl, rfl⟩ := Prod.mk.inj (Option.some.inj hrun)
    have hjump₁ := h.jump_clear hne (by omega) hb₁
    have hjump₂ := h.jump_clear hne (by omega) hb₂
    exact ⟨by omega, (hjump.trans hjump₁).trans hjump₂, nofun⟩

/-- The three of them together. -/
theorem skipRounds_clear {p p' : Nat} {c : Bool} (h : cond.Tables x) (hne : x ≠ [])
    (hp : x.length ≤ p) (hrun : skipRounds t cond.bmBc p = some (p', c)) :
    p ≤ p' ∧ t.Clear x p p' ∧ (c = true → ∃ b, t.norm[p' - 1]? = some b ∧ cond.bmBc b = 0) := by
  unfold skipRounds at hrun
  simp only [Option.bind_eq_bind] at hrun
  obtain ⟨⟨p₁, c₁⟩, h₁, hrun⟩ := Option.bind_eq_some_iff.mp hrun
  obtain ⟨hle₁, hclear₁, hend₁⟩ := skipRound_clear h hne hp h₁
  cases c₁ with
  | true =>
      obtain ⟨rfl, rfl⟩ := Prod.mk.inj (Option.some.inj hrun)
      exact ⟨hle₁, hclear₁, hend₁⟩
  | false =>
      obtain ⟨⟨p₂, c₂⟩, h₂, hrun⟩ := Option.bind_eq_some_iff.mp hrun
      obtain ⟨hle₂, hclear₂, hend₂⟩ := skipRound_clear h hne (hp.trans hle₁) h₂
      cases c₂ with
      | true =>
          obtain ⟨rfl, rfl⟩ := Prod.mk.inj (Option.some.inj hrun)
          exact ⟨hle₁.trans hle₂, hclear₁.trans hclear₂, hend₂⟩
      | false =>
          obtain ⟨hle₃, hclear₃, hend₃⟩ :=
            skipRound_clear h hne (hp.trans (hle₁.trans hle₂)) hrun
          exact ⟨hle₁.trans (hle₂.trans hle₃), (hclear₁.trans hclear₂).trans hclear₃, hend₃⟩

/-- A comparison at a window that ends with a byte without a skip: the first hit is there, or
the loop goes on behind `shift` and passes over no hit. -/
theorem SnipCond.Tables.compare {p : Nat} {b : UInt8} {r : Option Nat} (h : cond.Tables x)
    (hm : 2 ≤ x.length) (hp : x.length ≤ p) (hb : t.norm[p - 1]? = some b)
    (hzero : cond.bmBc b = 0) (hcmp : bmCompare t x p = some r) :
    match r with
    | some f => t.FirstHit x (p - x.length) (some f)
    | none => t.Clear x p (p + cond.shift) := by
  have hlast := (h.zero b).mp hzero
  rcases bmCompare_hit hm hp ⟨b, hlast, hb⟩ hcmp with ⟨rfl, hhit⟩ | ⟨rfl, hnone⟩
  · exact ⟨le_rfl, hhit, fun g h₁ h₂ => by omega⟩
  · intro f hend hlt
    rcases Nat.eq_or_lt_of_le hend with heq | hgt
    · rwa [show f = p - x.length by omega]
    · exact h.shift_clear hlast hp hb f hgt hlt

/-- **The loop up to the end of the text** finds the first hit. -/
theorem slowLoop_first {k p : Nat} {r : Option Nat} (h : cond.Tables x) (hm : 2 ≤ x.length)
    (hp : x.length ≤ p) (hrun : slowLoop t x cond.bmBc cond.shift k p = some r) :
    t.FirstHit x (p - x.length) r := by
  have hne : x ≠ [] := List.ne_nil_of_length_pos (by omega)
  induction k generalizing p with
  | zero => exact nomatch hrun
  | succ k ih =>
      rw [slowLoop] at hrun
      split_ifs at hrun with hpn
      · simp only [Option.bind_eq_bind] at hrun
        obtain ⟨b, hb, hrun⟩ := Option.bind_eq_some_iff.mp hrun
        split_ifs at hrun with hzero
        · obtain ⟨c, hcmp, hrun⟩ := Option.bind_eq_some_iff.mp hrun
          have hfirst := h.compare hm hp hb hzero hcmp
          cases c with
          | some f =>
              obtain rfl := Option.some.inj hrun
              exact hfirst
          | none =>
              rw [hzero, Nat.add_zero] at hrun
              exact hfirst.firstHit hp (Nat.le_add_right _ _) (ih (by omega) hrun)
        · have hjump := h.jump_clear hne hp hb
          exact hjump.firstHit hp (Nat.le_add_right _ _) (ih (by omega) hrun)
      · obtain rfl := Option.some.inj hrun
        intro g hg hhit
        have := hhit.lt_length hne
        omega

variable (t x) in
/-- How the unrolled loop leaves a window that ends at `p`: with the first hit, or having
passed over none. -/
def Text.Leaves (p : Nat) : Nat ⊕ Nat → Prop
  | .inl f => t.FirstHit x (p - x.length) (some f)
  | .inr p' => p ≤ p' ∧ t.Clear x p p'

theorem Text.Clear.leaves {p q : Nat} {r : Nat ⊕ Nat} (h : t.Clear x p q) (hp : x.length ≤ p)
    (hle : p ≤ q) (hr : t.Leaves x q r) : t.Leaves x p r := by
  cases r with
  | inl f =>
      have hfirst : t.FirstHit x (q - x.length) (some f) := hr
      exact h.firstHit hp hle hfirst
  | inr p' => exact ⟨hle.trans hr.1, h.trans hr.2⟩

/-- **The unrolled loop** finds the first hit, or passes over none. -/
theorem fastLoop_leaves {limit k p : Nat} {r : Nat ⊕ Nat} (h : cond.Tables x)
    (hm : 2 ≤ x.length) (hp : x.length ≤ p)
    (hrun : fastLoop t x cond.bmBc cond.shift limit k p = some r) : t.Leaves x p r := by
  have hne : x ≠ [] := List.ne_nil_of_length_pos (by omega)
  induction k generalizing p with
  | zero => exact nomatch hrun
  | succ k ih =>
      rw [fastLoop] at hrun
      split_ifs at hrun with hlimit
      · simp only [Option.bind_eq_bind] at hrun
        obtain ⟨⟨p₁, c⟩, hrounds, hrun⟩ := Option.bind_eq_some_iff.mp hrun
        obtain ⟨hle, hclear, hend⟩ := skipRounds_clear h hne hp hrounds
        cases c with
        | true =>
            obtain ⟨b, hb, hzero⟩ := hend rfl
            obtain ⟨c, hcmp, hrun⟩ := Option.bind_eq_some_iff.mp hrun
            have hfirst := h.compare hm (hp.trans hle) hb hzero hcmp
            cases c with
            | some f =>
                obtain rfl := Option.some.inj hrun
                exact hclear.firstHit hp hle hfirst
            | none =>
                exact (hclear.trans hfirst).leaves hp (by omega) (ih (by omega) hrun)
        | false => exact hclear.leaves hp hle (ih (hp.trans hle) hrun)
      · obtain rfl := Option.some.inj hrun
        exact ⟨le_rfl, fun f h₁ h₂ => by omega⟩

theorem occursAt_singleton {c : UInt8} {f : Nat} : OccursAt [c] t.norm f ↔ t.norm[f]? = some c := by
  rw [occursAt_iff]
  constructor
  · intro h
    exact h 0 (by simp)
  · intro h i hi
    obtain rfl : i = 0 := by simpa using hi
    exact h

/-- For a keyword of one byte, the search looks at its first occurrence only. -/
theorem searchByte_first {c : UInt8} {found : Nat} {r : Option Nat}
    (h : searchByte t c found = some r) :
    (r = none ∧ ∀ g, found ≤ g → ¬OccursAt [c] t.norm g) ∨
      ∃ f, found ≤ f ∧ OccursAt [c] t.norm f ∧ (∀ g, found ≤ g → g < f → ¬OccursAt [c] t.norm g) ∧
        r = if t.checks.getD f 0 ≠ 0 then some f else none := by
  unfold searchByte at h
  split_ifs at h with hlt
  · cases hidx : (t.norm.drop found).idxOf? c with
    | none =>
        simp only [hidx, Option.some.injEq] at h
        refine Or.inl ⟨h.symm, fun g hg hocc => ?_⟩
        obtain ⟨j, rfl⟩ := Nat.exists_eq_add_of_le hg
        rw [occursAt_singleton, ← List.getElem?_drop] at hocc
        exact List.idxOf?_eq_none_iff.mp hidx (List.mem_of_getElem? hocc)
    | some j =>
        simp only [hidx] at h
        obtain ⟨check, hcheck, h⟩ := Option.map_eq_some_iff.mp h
        obtain ⟨hj, hget, hbefore⟩ := List.idxOf?_eq_some_iff.mp hidx
        have hgetD : t.checks.getD (found + j) 0 = check := by
          rw [List.getD_eq_getElem?_getD, hcheck]
          rfl
        refine Or.inr ⟨found + j, Nat.le_add_right _ _, ?_, fun g hg hlt hocc => ?_, ?_⟩
        · rw [occursAt_singleton, ← List.getElem?_drop, List.getElem?_eq_getElem hj, hget]
        · obtain ⟨i, rfl⟩ := Nat.exists_eq_add_of_le hg
          rw [occursAt_singleton, ← List.getElem?_drop] at hocc
          obtain ⟨hi, hget⟩ := List.getElem?_eq_some_iff.mp hocc
          exact hbefore i (by omega) hget
        · rw [hgetD, h]
  · obtain rfl := Option.some.inj h
    refine Or.inl ⟨rfl, fun g hg hocc => ?_⟩
    have := hocc.le_length (List.cons_ne_nil _ _)
    rw [List.length_singleton] at this
    omega

variable (t x) in
/-- For a keyword of one byte, no occurrence that is not a hit stands before a hit. -/
def Text.HitsFirst : Prop :=
  x.length = 1 → ∀ f g, OccursAt x t.norm f → t.checks.getD f 0 = 0 → t.Hit x g → g < f

/-- **The search** finds the first hit from the place it goes on from. -/
theorem SnipCond.search_first {r : Option Nat} (h : x.length ≠ 1 → cond.Tables x) (hne : x ≠ [])
    (hfirst : t.HitsFirst x) (hrun : cond.search t x = some r) : t.FirstHit x cond.found r := by
  match x, h, hne, hfirst, hrun with
  | [c], h, hne, hfirst, hrun =>
      rcases searchByte_first hrun with ⟨rfl, hnone⟩ | ⟨f, hle, hocc, hbefore, rfl⟩
      · exact fun g hg hhit => hnone g hg hhit.1
      · by_cases hcheck : t.checks.getD f 0 = 0
        · rw [if_neg (not_not.mpr hcheck)]
          intro g hg hhit
          exact hbefore g hg (hfirst rfl f g hocc hcheck hhit) hhit.1
        · rw [if_pos hcheck]
          exact ⟨hle, ⟨hocc, hcheck⟩, fun g hg hlt hhit => hbefore g hg hlt hhit.1⟩
  | a :: b :: x', h, hne, hfirst, hrun =>
      generalize hx : a :: b :: x' = x at h hne hrun ⊢
      have hm : 2 ≤ x.length := by
        rw [← hx, List.length_cons, List.length_cons]
        omega
      have htables := h (by omega)
      have hstart : x.length + cond.found - x.length = cond.found := Nat.add_sub_cancel_left ..
      rw [← hstart]
      have hunfold : cond.search t x =
          (if toSize (t.norm.length - cond.found) > 12 * x.length then
            (fastLoop t x cond.bmBc cond.shift (t.norm.length - 11 * x.length)
              (t.norm.length + 1) (x.length + cond.found)).bind fun r =>
              match r with
              | .inl found => some (some found)
              | .inr p => slowLoop t x cond.bmBc cond.shift (t.norm.length + 1) p
          else slowLoop t x cond.bmBc cond.shift (t.norm.length + 1) (x.length + cond.found)) := by
        rw [← hx]
        rfl
      rw [hunfold] at hrun
      split_ifs at hrun with hlong
      · obtain ⟨s, hfast, hrun⟩ := Option.bind_eq_some_iff.mp hrun
        have hleaves := fastLoop_leaves htables hm (Nat.le_add_right _ _) hfast
        cases s with
        | inl f =>
            obtain rfl := Option.some.inj hrun
            exact hleaves
        | inr p =>
            obtain ⟨hle, hclear⟩ := hleaves
            exact hclear.firstHit (Nat.le_add_right _ _) hle
              (slowLoop_first htables hm (by omega) hrun)
      · exact slowLoop_first htables hm (Nat.le_add_right _ _) hrun

variable (t) in
/-- At each place of the original text `sen_isspace` can look for a blank without reading
behind the text. -/
def Text.SpacesInside : Prop :=
  ∀ offset < t.orig.length, ∃ i, senIsspace t.encoding (t.orig.drop offset) = some i

theorem skipSpaces_returns (h : t.SpacesInside) (k offset : Nat) :
    ∃ r, skipSpaces t k offset = some r := by
  induction k generalizing offset with
  | zero => exact ⟨offset, rfl⟩
  | succ k ih =>
      unfold skipSpaces
      split_ifs with hlt
      · obtain ⟨i, hi⟩ := h offset hlt
        simp only [hi, Option.bind_eq_bind, Option.bind_some]
        split_ifs
        · exact ⟨offset, rfl⟩
        · exact ih (offset + i)
      · exact ⟨offset, rfl⟩

theorem SnipCond.report_returns {skip : Bool} (h : skip = true → t.SpacesInside)
    (cond : SnipCond) (found m shift : Nat) :
    ∃ cond', cond.report t skip found m shift = some cond' := by
  unfold SnipCond.report
  cases skip with
  | false => exact ⟨_, rfl⟩
  | true =>
      dsimp only
      obtain ⟨r, hr⟩ := skipSpaces_returns (h rfl) _ _
      rw [if_pos rfl, hr]
      exact ⟨_, rfl⟩

/-- Where the last report of a condition for a keyword of `m` bytes was found. -/
def SnipCond.place (cond : SnipCond) (m : Nat) : Nat :=
  cond.found - if m = 1 then 1 else cond.shift

variable (t x) in
/-- A condition for the keyword `x` while a text is searched, with the tables of the
keyword. -/
structure SnipCond.Armed (cond : SnipCond) : Prop where
  ready : cond.Ready t x
  tables : x.length ≠ 1 → cond.Tables x

namespace SnipCond

theorem Armed.of_prepared {cond' : SnipCond} (h : cond.Armed t x)
    (hprep : cond'.prepared = cond.prepared) (hfound : cond'.found ≤ t.norm.length) :
    cond'.Armed t x := by
  refine ⟨h.ready.of_prepared hprep hfound, fun hone => ?_⟩
  simp only [prepared, Prod.mk.injEq] at hprep
  obtain ⟨-, htable, hshift⟩ := hprep
  obtain ⟨hskip, hzero, hlast⟩ := h.tables hone
  exact ⟨by rwa [htable], by rwa [htable], by rwa [hshift]⟩

/-- How far a call moves on behind the place it reports. -/
theorem Armed.step (h : cond.Armed t x) :
    0 < (if x.length = 1 then 1 else cond.shift) ∧
      (if x.length = 1 then 1 else cond.shift) ≤ x.length := by
  have hpos := List.length_pos_iff.mpr h.ready.ne_nil
  split_ifs with hone
  · omega
  · exact h.ready.shift hone

/-- **One call** either stops or reports what the search has found. -/
theorem Armed.call (h : cond.Armed t x) {skip : Bool} (hskip : skip = true → t.SpacesInside) :
    (cond.search t x = some none ∧
      senBmTunedbm cond t skip = some { cond with stopflag := .stop }) ∨
    ∃ f cond', cond.search t x = some (some f) ∧ senBmTunedbm cond t skip = some cond' ∧
      cond'.Armed t x ∧ cond'.place x.length = f ∧ cond'.stopflag = cond.stopflag ∧
      cond'.found = f + if x.length = 1 then 1 else cond.shift := by
  obtain ⟨r, hsearch, hinside⟩ := h.ready.search
  have heq := senBmTunedbm_eq h.ready.keyword t skip
  rw [hsearch, Option.bind_some] at heq
  cases r with
  | none => exact Or.inl ⟨hsearch, heq⟩
  | some f =>
      obtain ⟨cond', hreport⟩ := report_returns hskip cond f x.length
        (if x.length = 1 then 1 else cond.shift)
      obtain ⟨hprep, hfound, hflag⟩ := report_fields hreport
      obtain ⟨-, hend⟩ := hinside f rfl
      obtain ⟨-, hstep⟩ := h.step
      have hshift : cond'.shift = cond.shift := congrArg (fun p => p.2.2) hprep
      refine Or.inr ⟨f, cond', hsearch, heq.trans hreport, h.of_prepared hprep ?_, ?_, hflag,
          hfound⟩
      · omega
      · rw [place, hfound, hshift]
        exact Nat.add_sub_cancel _ _

end SnipCond

end

end Senna.Snip
