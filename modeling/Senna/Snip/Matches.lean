/-
# The matcher's windows

An occurrence of the keyword in the text is a hit when `checks` has an entry for its first
byte. The tables that `sen_snip_cond_init` prepares hold safe skips, whatever byte stands at
the end of the window, so that no step of `sen_bm_tunedbm` passes over a hit
(`Text.Clear`).
-/

import Senna.Lib.Fuel
import Senna.Lib.Occurrence
import Senna.Snip.Tunedbm

namespace Senna.Snip

open Senna.Lib

/-- The keyword `x` occurs at `f`, which is not inside the bytes of one original character. -/
def Text.Hit (t : Text) (x : List UInt8) (f : Nat) : Prop :=
  OccursAt x t.norm f ∧ t.checks.getD f 0 ≠ 0

instance (t : Text) (x : List UInt8) : DecidablePred (t.Hit x) := fun _ =>
  inferInstanceAs (Decidable (_ ∧ _))

/-- The first hit from the place `a` on is `r`. -/
def Text.FirstHit (t : Text) (x : List UInt8) (a : Nat) : Option Nat → Prop
  | some f => a ≤ f ∧ t.Hit x f ∧ ∀ g, a ≤ g → g < f → ¬t.Hit x g
  | none => ∀ g, a ≤ g → ¬t.Hit x g

section

variable {t : Text} {x : List UInt8} {a b : Nat} {r : Option Nat}

theorem Text.Hit.lt_length {f : Nat} (h : t.Hit x f) (hne : x ≠ []) :
    f + x.length ≤ t.norm.length :=
  h.1.le_length hne

/-- Without a hit before it, the search can start later. -/
theorem Text.FirstHit.of_later (h : t.FirstHit x b r) (hle : a ≤ b)
    (hnone : ∀ g, a ≤ g → g < b → ¬t.Hit x g) : t.FirstHit x a r := by
  cases r with
  | some f =>
      obtain ⟨hb, hhit, hbefore⟩ := h
      refine ⟨hle.trans hb, hhit, fun g ha hg => ?_⟩
      by_cases hgb : g < b
      · exact hnone g ha hgb
      · exact hbefore g (not_lt.mp hgb) hg
  | none =>
      intro g ha
      by_cases hgb : g < b
      · exact hnone g ha hgb
      · exact h g (not_lt.mp hgb)

end

/-- The tables of a condition are those of the keyword `x`: every skip is safe, and exactly
the last byte of the keyword has none. -/
structure SnipCond.Tables (cond : SnipCond) (x : List UInt8) : Prop where
  skip : ∀ b, b ∉ x.getLast? → Skip x b (cond.bmBc b)
  zero : ∀ b, cond.bmBc b = 0 ↔ b ∈ x.getLast?
  shift : ∀ z ∈ x.getLast?, Skip x z cond.shift

/-- Every entry of `sen_bm_preBmBc` is a safe skip. -/
theorem preBmBc_skip {x : List UInt8} (hne : x ≠ []) (b : UInt8) :
    Skip x b (preBmBc x x.length b) := by
  have hpos := List.length_pos_iff.mpr hne
  refine ⟨(preBmBc_bounds hpos b).2, ?_⟩
  -- after the places before `n`, the entry is no longer than the way from each of them
  have hloop (n : Nat) : ∀ i < n, x[i]? = some b →
      i + 1 + (List.range n).foldl
        (fun t i => Function.update t (x.getD i 0) (x.length - (i + 1))) (fun _ => x.length) b ≤
        max x.length (i + 1) := by
    induction n with
    | zero => exact fun i hi => absurd hi (Nat.not_lt_zero i)
    | succ n ih =>
        intro i hi hib
        rw [List.range_succ, List.foldl_append, List.foldl_cons, List.foldl_nil]
        by_cases hbn : b = x.getD n 0
        · rw [hbn, Function.update_self]
          omega
        · rw [Function.update_of_ne hbn]
          refine ih i (lt_of_le_of_ne (Nat.le_of_lt_succ hi) ?_) hib
          rintro rfl
          rw [List.getD_eq_getElem?_getD, hib] at hbn
          exact hbn rfl
  intro i hi hib
  have hle := hloop (x.length - 1) i (by omega) hib
  rw [max_eq_left hi.le] at hle
  exact hle

/-- A condition as `sen_snip_cond_init` prepares it for the normalised keyword `x`, at the
beginning of a search. -/
structure SnipCond.Fresh (cond : SnipCond) (x : List UInt8) : Prop where
  prepared : cond.prepared = (senSnipCondInit (fun _ => some x) x).2.prepared
  found : cond.found = 0
  stopflag : cond.stopflag = .nonstop

theorem SnipCond.fresh_init {nstrOpen : List UInt8 → Option (List UInt8)}
    {keyword x : List UInt8} (hopen : nstrOpen keyword = some x) (hne : x ≠ []) :
    (senSnipCondInit nstrOpen keyword).2.Fresh x := by
  have heq : senSnipCondInit nstrOpen keyword = senSnipCondInit (fun _ => some x) x := by
    rw [senSnipCondInit, hopen]
    rfl
  rw [heq]
  have hlast : x.getLast? = some (x.getLast hne) := List.getLast?_eq_getLast_of_ne_nil hne
  refine ⟨rfl, ?_, ?_⟩
  · unfold senSnipCondInit
    simp only [hlast]
    split_ifs <;> rfl
  · unfold senSnipCondInit
    simp only [hlast]
    split_ifs <;> rfl

section

variable {cond : SnipCond} {t : Text} {x : List UInt8}

/-- What `sen_snip_cond_init` prepares. -/
theorem SnipCond.Fresh.ready (h : cond.Fresh x) (hne : x ≠ []) (t : Text) :
    cond.Ready t x ∧ (x.length ≠ 1 → cond.Tables x) := by
  have hlast : x.getLast? = some (x.getLast hne) := List.getLast?_eq_getLast_of_ne_nil hne
  have hpos := List.length_pos_iff.mpr hne
  have hprep := h.prepared
  unfold senSnipCondInit at hprep
  simp only [hlast] at hprep
  by_cases hone : x.length = 1
  · simp only [if_pos hone] at hprep
    have hkeyword : cond.keyword = .opened x := congrArg Prod.fst hprep
    refine ⟨⟨hkeyword, hne, h.found ▸ Nat.zero_le _, fun h => absurd hone h,
      fun h => absurd hone h⟩, fun h => absurd hone h⟩
  · simp only [if_neg hone] at hprep
    have hkeyword : cond.keyword = .opened x := congrArg Prod.fst hprep
    have htable : cond.bmBc = Function.update (preBmBc x x.length) (x.getLast hne) 0 :=
      congrArg (fun p => p.2.1) hprep
    have hshift : cond.shift = preBmBc x x.length (x.getLast hne) :=
      congrArg (fun p => p.2.2) hprep
    have hentry (b : UInt8) : cond.bmBc b =
        if b = x.getLast hne then 0 else preBmBc x x.length b := by
      rw [htable, Function.update_apply]
    refine ⟨⟨hkeyword, hne, h.found ▸ Nat.zero_le _, fun _ => hshift ▸ preBmBc_bounds hpos _,
      fun _ b => ?_⟩, fun _ => ⟨fun b hb => ?_, fun b => ?_, fun z hz => ?_⟩⟩
    · rw [hentry]
      split_ifs
      · exact Nat.zero_le _
      · exact (preBmBc_bounds hpos b).2
    · rw [hentry, if_neg fun heq => hb (by rw [heq, hlast]; exact rfl)]
      exact preBmBc_skip hne b
    · rw [hentry, hlast, Option.mem_some_iff]
      have hbound : 1 ≤ preBmBc x x.length b := (preBmBc_bounds hpos b).1
      split_ifs with hb
      · exact iff_of_true rfl hb.symm
      · exact iff_of_false (by omega) fun heq => hb heq.symm
    · rw [hlast, Option.mem_some_iff] at hz
      rw [hshift, hz]
      exact preBmBc_skip hne z

/-- The last `k` of the comparisons are those of the first `k` bytes of the keyword. -/
theorem tailsAgree_iff {y : List UInt8} {p k : Nat} {b : Bool} (hp : x.length ≤ p)
    (hk : k ≤ x.length) (h : tailsAgree y x p k = some b) :
    b = true ↔ ∀ j < k, y[p - x.length + j]? = x[j]? := by
  induction k with
  | zero =>
      obtain rfl := Option.some.inj h
      exact iff_of_true rfl fun j hj => absurd hj (Nat.not_lt_zero j)
  | succ k ih =>
      have hy : p - (x.length - k) = p - x.length + k := by omega
      have hx : x.length - (x.length - k) = k := by omega
      rw [tailsAgree] at h
      simp only [hy, hx, Option.bind_eq_bind] at h
      obtain ⟨c, hc, h⟩ := Option.bind_eq_some_iff.mp h
      obtain ⟨c', hc', h⟩ := Option.bind_eq_some_iff.mp h
      have hlast : (∀ j < k + 1, y[p - x.length + j]? = x[j]?) ↔
          c = c' ∧ ∀ j < k, y[p - x.length + j]? = x[j]? := by
        rw [Nat.forall_lt_succ_right, hc, hc', Option.some_inj, and_comm]
      rw [hlast]
      split_ifs at h with heq
      · rw [ih (Nat.le_of_succ_le hk) h]
        exact (and_iff_right heq).symm
      · obtain rfl := Option.some.inj h
        exact iff_of_false Bool.false_ne_true fun hand => heq hand.1

/-- **The comparison** at a window that ends with the last byte of the keyword. -/
theorem bmCompare_hit {p : Nat} {r : Option Nat} (hm : 2 ≤ x.length) (hp : x.length ≤ p)
    (hz : ∃ z ∈ x.getLast?, t.norm[p - 1]? = some z) (h : bmCompare t x p = some r) :
    (r = some (p - x.length) ∧ t.Hit x (p - x.length)) ∨
      (r = none ∧ ¬t.Hit x (p - x.length)) := by
  obtain ⟨z, hlast, hz⟩ := hz
  -- an occurrence is agreement in the first bytes, the last but one and the last
  have hocc : OccursAt x t.norm (p - x.length) ↔
      t.norm[p - 2]? = x[x.length - 2]? ∧
        ∀ j < x.length - 2, t.norm[p - x.length + j]? = x[j]? := by
    have hend : t.norm[p - x.length + (x.length - 1)]? = x[x.length - 1]? := by
      rw [← List.getLast?_eq_getElem?, hlast, ← hz]
      congr 1
      omega
    have hsecond : p - x.length + (x.length - 2) = p - 2 := by omega
    rw [occursAt_iff]
    constructor
    · intro h
      refine ⟨?_, fun j hj => h j (by omega)⟩
      rw [← h (x.length - 2) (by omega), hsecond]
    · intro ⟨h₁, h₂⟩ j hj
      rcases lt_trichotomy j (x.length - 2) with hlt | heq | hgt
      · exact h₂ j hlt
      · rw [heq, hsecond, h₁]
      · rw [show j = x.length - 1 by omega, hend]
  unfold bmCompare at h
  simp only [Option.bind_eq_bind] at h
  obtain ⟨c, hc, h⟩ := Option.bind_eq_some_iff.mp h
  obtain ⟨c', hc', h⟩ := Option.bind_eq_some_iff.mp h
  rw [Text.Hit, hocc, hc, hc', Option.some_inj]
  split_ifs at h with heq
  · obtain ⟨agree, hagree, h⟩ := Option.bind_eq_some_iff.mp h
    have htails := tailsAgree_iff hp (Nat.sub_le _ _) hagree
    split_ifs at h with htrue
    · obtain ⟨check, hcheck, h⟩ := Option.bind_eq_some_iff.mp h
      have hget : t.checks.getD (p - x.length) 0 = check := by
        rw [List.getD_eq_getElem?_getD, hcheck]
        rfl
      obtain rfl := Option.some.inj h
      rw [hget]
      split_ifs with hzero
      · exact Or.inl ⟨rfl, ⟨heq, htails.mp htrue⟩, hzero⟩
      · exact Or.inr ⟨rfl, fun hhit => hzero hhit.2⟩
    · obtain rfl := Option.some.inj h
      exact Or.inr ⟨rfl, fun hhit => htrue (htails.mpr hhit.1.2)⟩
  · obtain rfl := Option.some.inj h
    exact Or.inr ⟨rfl, fun hhit => heq hhit.1.1⟩

variable (t x) in
/-- No hit ends at `p` or behind it and before `q`. -/
def Text.Clear (p q : Nat) : Prop := ∀ f, p ≤ f + x.length → f + x.length < q → ¬t.Hit x f

theorem Text.Clear.trans {p q r : Nat} (h₁ : t.Clear x p q) (h₂ : t.Clear x q r) :
    t.Clear x p r := fun f hp hr => by
  by_cases hq : f + x.length < q
  · exact h₁ f hp hq
  · exact h₂ f (not_lt.mp hq) hr

/-- What is found from the end of a clear stretch on is found from its beginning on. -/
theorem Text.Clear.firstHit {p q : Nat} {r : Option Nat} (h : t.Clear x p q)
    (hp : x.length ≤ p) (hle : p ≤ q) (hr : t.FirstHit x (q - x.length) r) :
    t.FirstHit x (p - x.length) r :=
  hr.of_later (by omega) fun g h₁ h₂ => h g (by omega) (by omega)

/-- **One jump** by the entry of the window's last byte. -/
theorem SnipCond.Tables.jump_clear {p : Nat} {b : UInt8} (h : cond.Tables x) (hne : x ≠ [])
    (hp : x.length ≤ p) (hb : t.norm[p - 1]? = some b) : t.Clear x p (p + cond.bmBc b) := by
  intro f hend hlt hhit
  by_cases hz : cond.bmBc b = 0
  · omega
  · have hlast : b ∉ x.getLast? := fun hmem => hz ((h.zero b).mpr hmem)
    rcases Nat.eq_or_lt_of_le hend with heq | hgt
    · exact hlast (hhit.1.last_eq hne heq.symm hb)
    · have := (h.skip b hlast).misses_nothing hp hb hhit.1 hgt
      omega

/-- **The jump behind a comparison**, by `shift`. -/
theorem SnipCond.Tables.shift_clear {p : Nat} {z : UInt8} (h : cond.Tables x)
    (hz : z ∈ x.getLast?) (hp : x.length ≤ p) (hb : t.norm[p - 1]? = some z) :
    t.Clear x (p + 1) (p + cond.shift) := by
  intro f hend hlt hhit
  have := (h.shift z hz).misses_nothing hp hb hhit.1 hend
  omega

end

end Senna.Snip
