/-
# The two UTF-8 normalizers

`normalize_utf8` and `fast_normalize_utf8` turn a string into its normal form with
the generated tables `sen_nfkc_map1` (expansion of one character) and
`sen_nfkc_map2` (composition of the last character put out with the next one). The
fast one serves callers that pass no flag. The output buffer is modelled with the
bytes that stay in it beyond the current end, since the tables may look at them.

`Sim` relates a state of the general loop to one of the fast loop. One character of
the input keeps it (`Sim.step`), hence so does the whole string.
-/

import Senna.Base

namespace Senna.Str

/-- The continuation bytes that `sen_str_charlen_utf8` insists on. -/
def contBytes : Nat → List UInt8 → Bool
  | 0, _ => true
  | _ + 1, [] => false
  | w + 1, b :: p => b != 0 && b &&& 0xc0 == 0x80 && contBytes w p

/-- `for (b = 0x40, w = 0; b && (*p & b); b >>= 1, w++);` -/
def leadingOnes (p : UInt8) : Nat :=
  ([0x40, 0x20, 0x10, 0x08, 0x04, 0x02, 0x01].takeWhile fun b => p &&& b != 0).length

/-- `sen_str_charlen_utf8(str, end)` on the bytes from `str` to `end`. -/
def senStrCharlenUtf8 : List UInt8 → Nat
  | [] => 0
  | b :: p =>
      if b = 0 then 0
      else if b &&& 0x80 ≠ 0 then
        let w := leadingOnes b
        if w = 0 then 0 else if contBytes w p then w + 1 else 0
      else 1

/-- `fast_sen_str_charlen_utf8(s, e)` on the bytes from `s` to `e`. -/
def fastSenStrCharlenUtf8 : List UInt8 → Nat
  | [] => 0
  | b :: _ =>
      if b &&& 0x80 = 0 then 1
      else if b &&& 0xe0 = 0xc0 then 2
      else if b &&& 0xf0 = 0xe0 then 3
      else if b &&& 0xf8 = 0xf0 then 4
      else if b &&& 0xfc = 0xf8 then 5
      else if b &&& 0xfe = 0xfc then 6
      else 1

/-- Every character is accepted by `sen_str_charlen_utf8`, from a lead byte up to `0xfd`. -/
inductive WellFormed : List UInt8 → Prop
  | nil : WellFormed []
  | cons {b : UInt8} {p : List UInt8} (accepted : senStrCharlenUtf8 (b :: p) ≠ 0)
      (lead : b ≤ 0xfd) (tail : WellFormed ((b :: p).drop (senStrCharlenUtf8 (b :: p)))) :
      WellFormed (b :: p)

theorem senStrCharlenUtf8_le (p : List UInt8) : senStrCharlenUtf8 p ≤ p.length := by
  have hcont : ∀ w (q : List UInt8), contBytes w q = true → w ≤ q.length := by
    intro w
    induction w with
    | zero => exact fun _ _ => Nat.zero_le _
    | succ w ih =>
        rintro (_ | ⟨b, q⟩) h
        · simp [contBytes] at h
        · simp only [contBytes, Bool.and_eq_true] at h
          simpa using ih q h.2
  cases p with
  | nil => exact le_rfl
  | cons b p =>
      simp only [senStrCharlenUtf8, List.length_cons]
      split_ifs with h₁ h₂ h₃ h₄
      · exact Nat.zero_le _
      · exact Nat.zero_le _
      · exact Nat.succ_le_succ (hcont _ _ h₄)
      · exact Nat.zero_le _
      · omega

theorem length_drop_lt {p : List UInt8} {n : Nat} (hn : n ≠ 0) (hle : n ≤ p.length) :
    (p.drop n).length < p.length := by
  rw [List.length_drop]
  omega

/-- The generated tables. An argument is the bytes from the pointer on, a result the
bytes before its terminating NUL. -/
structure Nfkc where
  map1 : List UInt8 → Option (List UInt8)
  map2 : List UInt8 → List UInt8 → Option (List UInt8)
  ctype : List UInt8 → Nat

/-- The results of the tables are well-formed and hold no control character. -/
structure Nfkc.Ok (t : Nfkc) : Prop where
  map1 : ∀ s r, t.map1 s = some r → WellFormed r ∧ ∀ b ∈ r, 0x20 ≤ b
  map2 : ∀ d s r, t.map2 d s = some r → WellFormed r ∧ ∀ b ∈ r, 0x20 ≤ b

/-- `nstr->norm` while it is written: its size without the terminating NUL, the bytes
written so far, and the pointers `d` and `d_` into it. -/
structure Norm where
  ds : Nat
  bytes : List UInt8
  d : Nat
  d_ : Option Nat
  deriving DecidableEq, Repr

/-- The buffer right after `SEN_MALLOC(ds + 1)`. -/
def Norm.start (ds : Nat) : Norm := ⟨ds, [], 0, none⟩

/-- `if (de <= d + lp) { ds += (ds >> 1) + lp; … }` -/
def Norm.grow (alloc : Nat → Bool) (n : Norm) (lp : Nat) : Option Norm :=
  if n.ds ≤ n.d + lp then
    let ds := n.ds + ((n.ds >>> 1) + lp)
    if alloc (ds + 1) then some { n with ds := ds } else none
  else some n

/-- `memcpy(d, p, lp); d_ = d; d += lp;` -/
def Norm.write (n : Norm) (p : List UInt8) (lp : Nat) : Norm :=
  { n with
    bytes := n.bytes.take n.d ++ p.take lp ++ n.bytes.drop (n.d + lp)
    d := n.d + lp
    d_ := some n.d }

/-- `sen_nfkc_map2(d_, p)`, when there is a `d_`. -/
def Norm.compose (t : Nfkc) (n : Norm) (p : List UInt8) : Option (List UInt8) :=
  match n.d_ with
  | none => none
  | some d_ => t.map2 (n.bytes.drop d_) p

/-- `d = d_;` -/
def Norm.undo (n : Norm) : Norm := { n with d := n.d_.getD n.d }

/-- `sen_nstr` as the normalizers leave it; the fast one does not set `length`. -/
structure SenNstr where
  norm : List UInt8
  normBlen : Nat
  length : Option Nat
  ctypes : Option (List Nat)
  checks : Option (List Int)
  deriving DecidableEq, Repr

/-- The bits of `nstr->flags`. -/
structure StrFlags where
  removeBlank : Bool
  withCtypes : Bool
  withChecks : Bool
  deriving DecidableEq, Repr

/-- The state of `normalize_utf8`. `checks` and `ctypes` are what was written below `ch`
and `cp`; `s_` and `s__` are offsets into the original string. -/
structure Gen extends Norm where
  length : Nat
  ctypes : Option (List Nat)
  checks : Option (List Int)
  s_ : Nat
  s__ : Nat
  deriving DecidableEq, Repr

/-- The conversion to `int16_t`. -/
def toInt16 (n : Int) : Int := (n + 2 ^ 15) % 2 ^ 16 - 2 ^ 15

/-- `if (cp > nstr->ctypes) { *(cp - 1) |= SEN_NSTR_BLANK; }` -/
def markBlank (ctypes : Option (List Nat)) : Option (List Nat) :=
  ctypes.map fun cs =>
    match cs.getLast? with
    | none => cs
    | some c => cs.dropLast ++ [c ||| 0x80]

/-- The entries of `checks` for one character put out: the bytes of the original it
stands for, then zeros. `e` is the offset `s + ls`. -/
def Gen.pushChecks (g : Gen) (e lp : Nat) : Gen :=
  match g.checks with
  | none => g
  | some cs =>
      let zeros := List.replicate (lp - 1) 0
      if g.s_ = e then { g with checks := some (cs ++ -1 :: zeros) }
      else { g with
        checks := some (cs ++ toInt16 (e - g.s_) :: zeros)
        s__ := g.s_
        s_ := e }

/-- Growing the buffer, and `checks` and `ctypes` with it. -/
def Gen.grow (alloc : Nat → Bool) (g : Gen) (lp : Nat) : Option Gen := do
  let norm ← g.toNorm.grow alloc lp
  if g.ds ≤ g.d + lp then
    if g.checks.isSome ∧ !alloc (norm.ds * 2 + 1) then none
    else if g.ctypes.isSome ∧ !alloc (norm.ds + 1) then none
    else some { g with toNorm := norm }
  else some g

/-- The loop `for (; ; p += lp)` over the characters of an expansion. -/
def Gen.expand (alloc : Nat → Bool) (t : Nfkc) (f : StrFlags) (e : Nat) (g : Gen)
    (p : List UInt8) : Option Gen :=
  if _h : senStrCharlenUtf8 p = 0 then some g
  else
    let lp := senStrCharlenUtf8 p
    let b := p.headD 0
    if (b = 0x20 ∧ f.removeBlank) ∨ b < 0x20 then
      Gen.expand alloc t f e { g with ctypes := markBlank g.ctypes } (p.drop lp)
    else
      match g.grow alloc lp with
      | none => none
      | some g =>
          let g := { g with
            toNorm := g.toNorm.write p lp
            length := g.length + 1
            ctypes := g.ctypes.map (· ++ [t.ctype p]) }
          Gen.expand alloc t f e (g.pushChecks e lp) (p.drop lp)
termination_by p.length
decreasing_by all_goals exact length_drop_lt _h (senStrCharlenUtf8_le p)

/-- The roll-back of `normalize_utf8` when `sen_nfkc_map2` finds a composition. -/
def Gen.undo (g : Gen) : Gen :=
  { g with
    toNorm := g.toNorm.undo
    length := g.length - 1
    ctypes := g.ctypes.map List.dropLast
    checks := g.checks.map fun cs => cs.take (cs.length - (g.d - g.d_.getD g.d))
    s_ := if g.checks.isSome then g.s__ else g.s_ }

/-- One round of the loop over the original string: `s` is the bytes from the pointer on,
`o` its offset and `ls` the length of the character there. -/
def Gen.step (alloc : Nat → Bool) (t : Nfkc) (f : StrFlags) (g : Gen) (s : List UInt8)
    (o ls : Nat) : Option Gen :=
  let (p, pe) := match t.map1 s with
    | some r => (r, r)
    | none => (s, s.take ls)
  match g.toNorm.compose t p with
  | some r => g.undo.expand alloc t f (o + ls) r
  | none => g.expand alloc t f (o + ls) pe

/-- The loop of `normalize_utf8`. -/
def Gen.loop (alloc : Nat → Bool) (t : Nfkc) (f : StrFlags) (g : Gen) (s : List UInt8)
    (o : Nat) : Option Gen :=
  if _h : senStrCharlenUtf8 s = 0 then some g
  else
    let ls := senStrCharlenUtf8 s
    match g.step alloc t f s o ls with
    | none => none
    | some g => Gen.loop alloc t f g (s.drop ls) (o + ls)
termination_by s.length
decreasing_by exact length_drop_lt _h (senStrCharlenUtf8_le s)

/-- `normalize_utf8`, `none` when an allocation fails. -/
def normalizeUtf8 (alloc : Nat → Bool) (t : Nfkc) (f : StrFlags) (orig : List UInt8) :
    Option SenNstr := do
  let ds := orig.length * 3
  if !alloc (ds + 1) || (f.withChecks && !alloc (ds * 2 + 1)) || (f.withCtypes && !alloc (ds + 1))
  then none
  else
    let g : Gen := {
      toNorm := .start ds
      length := 0
      ctypes := if f.withCtypes then some [] else none
      checks := if f.withChecks then some [] else none
      s_ := 0
      s__ := 0 }
    let g ← g.loop alloc t f orig 0
    some ⟨g.bytes.take g.d, g.d, some g.length, g.ctypes.map (· ++ [0]), g.checks⟩

/-- The inner loop of `fast_normalize_utf8`. -/
def Norm.fastExpand (alloc : Nat → Bool) (n : Norm) (p : List UInt8) : Option Norm :=
  match p with
  | [] => some n
  | b :: q =>
      let lp := fastSenStrCharlenUtf8 (b :: q)
      match n.grow alloc lp with
      | none => none
      | some n => Norm.fastExpand alloc (n.write (b :: q) lp) (q.drop (lp - 1))
termination_by p.length
decreasing_by simp only [List.length_drop, List.length_cons]; omega

/-- One round of the loop of `fast_normalize_utf8`. -/
def Norm.fastStep (alloc : Nat → Bool) (t : Nfkc) (n : Norm) (s : List UInt8) (ls : Nat) :
    Option Norm :=
  let (p, pe, normed) := match t.map1 s with
    | some r => (r, r, true)
    | none => (s, s.take ls, false)
  let (n, p, pe, normed) := match n.compose t p with
    | some r => (n.undo, r, r, true)
    | none => (n, p, pe, normed)
  if p.headD 0 < 0x20 then some n
  else if normed then n.fastExpand alloc pe
  else (n.grow alloc ls).map fun n => n.write p ls

/-- The loop of `fast_normalize_utf8`. -/
def Norm.fastLoop (alloc : Nat → Bool) (t : Nfkc) (n : Norm) (s : List UInt8) : Option Norm :=
  match s with
  | [] => some n
  | b :: q =>
      let ls := fastSenStrCharlenUtf8 (b :: q)
      match n.fastStep alloc t (b :: q) ls with
      | none => none
      | some n => Norm.fastLoop alloc t n (q.drop (ls - 1))
termination_by s.length
decreasing_by simp only [List.length_drop, List.length_cons]; omega

/-- `fast_normalize_utf8`, `none` when an allocation fails. -/
def fastNormalizeUtf8 (alloc : Nat → Bool) (t : Nfkc) (orig : List UInt8) : Option SenNstr := do
  let ds := orig.length * 3
  if !alloc (ds + 1) then none
  else
    let n ← (Norm.start ds).fastLoop alloc t orig
    some ⟨n.bytes.take n.d, n.d, none, none, none⟩

/-- On an accepted character the two length functions agree. -/
theorem fastSenStrCharlenUtf8_eq {b : UInt8} {p : List UInt8}
    (haccepted : senStrCharlenUtf8 (b :: p) ≠ 0) (hlead : b ≤ 0xfd) :
    fastSenStrCharlenUtf8 (b :: p) = senStrCharlenUtf8 (b :: p) := by
  have hbytes : ∀ n < 256, UInt8.ofNat n ≤ 0xfd → UInt8.ofNat n &&& 0x80 ≠ 0 →
      leadingOnes (UInt8.ofNat n) ≠ 0 →
      fastSenStrCharlenUtf8 [UInt8.ofNat n] = leadingOnes (UInt8.ofNat n) + 1 := by
    decide +kernel
  have hb := hbytes b.toNat b.toNat_lt
  rw [UInt8.ofNat_toNat] at hb
  by_cases h₁ : b &&& 0x80 = 0
  · simp only [senStrCharlenUtf8, fastSenStrCharlenUtf8, h₁, ne_eq, not_true_eq_false,
      if_true, if_false] at haccepted ⊢
    split_ifs at haccepted ⊢ with h₂
    · exact absurd rfl haccepted
    · rfl
  · simp only [senStrCharlenUtf8, ne_eq, h₁, not_false_eq_true, if_true] at haccepted ⊢
    split_ifs at haccepted ⊢ with h₂ h₃ h₄
    · exact absurd rfl haccepted
    · exact absurd rfl haccepted
    · exact hb hlead h₁ h₃
    · exact absurd rfl haccepted

/-- A character stays one when the bytes behind it are cut off. -/
theorem senStrCharlenUtf8_take (b : UInt8) (q : List UInt8) :
    senStrCharlenUtf8 ((b :: q).take (senStrCharlenUtf8 (b :: q))) =
      senStrCharlenUtf8 (b :: q) := by
  have hcont : ∀ w (q : List UInt8), contBytes w (q.take w) = contBytes w q := by
    intro w
    induction w with
    | zero => exact fun _ => rfl
    | succ w ih =>
        rintro (_ | ⟨c, q⟩)
        · rfl
        · simp only [List.take_succ_cons, contBytes, ih]
  generalize hn : senStrCharlenUtf8 (b :: q) = n
  cases n with
  | zero => rfl
  | succ n =>
      simp only [senStrCharlenUtf8] at hn
      rw [List.take_succ_cons]
      simp only [senStrCharlenUtf8]
      split_ifs at hn ⊢ with h₁ h₂ h₃ h₄ h₅ <;> grind

/-- What `sen_nfkc_map2` puts in place of the last character is fit for output. -/
theorem Nfkc.Ok.compose {t : Nfkc} (ht : t.Ok) {n : Norm} {p r : List UInt8}
    (h : n.compose t p = some r) : WellFormed r ∧ ∀ b ∈ r, 0x20 ≤ b := by
  unfold Norm.compose at h
  cases hd : n.d_ with
  | none => simp [hd] at h
  | some d_ => exact ht.map2 _ _ _ (by simpa only [hd] using h)

namespace Gen

/-- No flag is set, so `checks` and `ctypes` are `NULL`. -/
structure Bare (g : Gen) : Prop where
  ctypes : g.ctypes = none
  checks : g.checks = none

/-- The outcomes of the two normalizers hold the same buffer, or both failed. -/
def Sim (a : Option Gen) (b : Option Norm) : Prop :=
  a.map Gen.toNorm = b ∧ ∀ g, a = some g → g.Bare

/-- `nstr->flags` is zero. -/
abbrev noFlags : StrFlags := ⟨false, false, false⟩

variable {alloc : Nat → Bool} {t : Nfkc} {g : Gen}

theorem Bare.grow (hg : g.Bare) (lp : Nat) :
    g.grow alloc lp = (g.toNorm.grow alloc lp).map fun n => { g with toNorm := n } := by
  unfold Gen.grow
  cases hn : g.toNorm.grow alloc lp with
  | none => rfl
  | some n =>
      by_cases hle : g.ds ≤ g.d + lp
      · simp [hg.checks, hg.ctypes, hle]
      · have hn' : n = g.toNorm := by simpa [Norm.grow, hle] using hn.symm
        simp [hle, hn']

/-- An expansion without control characters is written the same way by both. -/
theorem Bare.expand {p : List UInt8} (hp : WellFormed p) (hctl : ∀ b ∈ p, 0x20 ≤ b)
    (hg : g.Bare) (e : Nat) :
    Sim (g.expand alloc t noFlags e p) (g.toNorm.fastExpand alloc p) := by
  induction hp generalizing g with
  | nil =>
      rw [Gen.expand, Norm.fastExpand]
      simp only [senStrCharlenUtf8]
      exact ⟨rfl, fun _ h => Option.some.inj h ▸ hg⟩
  | @cons b q accepted lead _ ih =>
      have hb : ¬ b < 0x20 := UInt8.not_lt.mpr (hctl b List.mem_cons_self)
      have hdrop : (b :: q).drop (senStrCharlenUtf8 (b :: q)) =
          q.drop (senStrCharlenUtf8 (b :: q) - 1) := by
        obtain ⟨n, hn⟩ := Nat.exists_eq_succ_of_ne_zero accepted
        rw [hn]
        rfl
      rw [Gen.expand, Norm.fastExpand]
      simp only [accepted, dite_false, List.headD_cons, hb, Bool.false_eq_true, and_false,
        or_self, if_false, fastSenStrCharlenUtf8_eq accepted lead, hg.grow]
      cases hn : g.toNorm.grow alloc (senStrCharlenUtf8 (b :: q)) with
      | none => exact ⟨rfl, fun _ h => by simp at h⟩
      | some n =>
          rw [← hdrop]
          have hq : ∀ x ∈ (b :: q).drop (senStrCharlenUtf8 (b :: q)), 0x20 ≤ x :=
            fun x hx => hctl x (List.mem_of_mem_drop hx)
          have hrec := ih (g := { g with
            toNorm := n.write (b :: q) (senStrCharlenUtf8 (b :: q))
            length := g.length + 1
            ctypes := none }) hq ⟨rfl, hg.checks⟩
          simpa only [Option.map_some, hg.ctypes, hg.checks, Option.map_none, pushChecks] using hrec

/-- The test for a control character only stops the fast loop at an empty expansion. -/
theorem fastExpand_of_table {n : Norm} {p : List UInt8} (hctl : ∀ b ∈ p, 0x20 ≤ b) :
    (if p.headD 0 < 0x20 then some n else n.fastExpand alloc p) = n.fastExpand alloc p := by
  cases p with
  | nil => rw [Norm.fastExpand]; rfl
  | cons b q => rw [List.headD_cons, if_neg (UInt8.not_lt.mpr (hctl b List.mem_cons_self))]

/-- A character that no table touches is copied or skipped by both. -/
theorem Bare.expand_single {b : UInt8} {q : List UInt8}
    (haccepted : senStrCharlenUtf8 (b :: q) ≠ 0) (hg : g.Bare) (e : Nat) :
    Sim (g.expand alloc t noFlags e ((b :: q).take (senStrCharlenUtf8 (b :: q))))
      (if b < 0x20 then some g.toNorm
        else (g.toNorm.grow alloc (senStrCharlenUtf8 (b :: q))).map fun n =>
          n.write (b :: q) (senStrCharlenUtf8 (b :: q))) := by
  have htake := senStrCharlenUtf8_take b q
  obtain ⟨ls, hls⟩ := Nat.exists_eq_succ_of_ne_zero haccepted
  rw [hls, List.take_succ_cons] at htake ⊢
  have hend : ∀ g' : Gen, g'.expand alloc t noFlags e ((b :: q.take ls).drop (ls + 1)) =
      some g' := by
    intro g'
    rw [Gen.expand]
    simp [senStrCharlenUtf8]
  have hwrite : ∀ n : Norm, n.write (b :: q.take ls) (ls + 1) = n.write (b :: q) (ls + 1) := by
    intro n
    simp [Norm.write]
  rw [Gen.expand]
  simp only [htake, Nat.succ_ne_zero, dite_false, List.headD_cons, Bool.false_eq_true, and_false,
    false_or, hg.grow]
  by_cases hb : b < 0x20
  · simp only [hb, if_true, hend]
    refine ⟨rfl, fun g' h => ?_⟩
    rw [← Option.some.inj h]
    exact ⟨by simp [hg.ctypes, markBlank], hg.checks⟩
  · simp only [hb, if_false]
    cases hn : g.toNorm.grow alloc (ls + 1) with
    | none => exact ⟨rfl, fun _ h => by simp at h⟩
    | some n =>
        simp only [Option.map_some, pushChecks, hg.checks, hend, hwrite]
        refine ⟨rfl, fun g' h => ?_⟩
        rw [← Option.some.inj h]
        exact ⟨by simp [hg.ctypes], rfl⟩

/-- **One character of the input.** -/
theorem Bare.step (alloc : Nat → Bool) (ht : t.Ok) {b : UInt8} {q : List UInt8}
    (haccepted : senStrCharlenUtf8 (b :: q) ≠ 0) (hg : g.Bare) (o : Nat) :
    Sim (g.step alloc t noFlags (b :: q) o (senStrCharlenUtf8 (b :: q)))
      (g.toNorm.fastStep alloc t (b :: q) (senStrCharlenUtf8 (b :: q))) := by
  have hundo : g.undo.Bare := ⟨by simp [undo, hg.ctypes], by simp [undo, hg.checks]⟩
  unfold Gen.step Norm.fastStep
  cases hmap : t.map1 (b :: q) with
  | some r =>
      simp only
      cases hcomp : g.toNorm.compose t r with
      | some r' =>
          obtain ⟨hwf, hctl⟩ := ht.compose hcomp
          simp only [if_true, fastExpand_of_table hctl]
          exact hundo.expand hwf hctl _
      | none =>
          obtain ⟨hwf, hctl⟩ := ht.map1 _ _ hmap
          simp only [if_true, fastExpand_of_table hctl]
          exact hg.expand hwf hctl _
  | none =>
      simp only
      cases hcomp : g.toNorm.compose t (b :: q) with
      | some r' =>
          obtain ⟨hwf, hctl⟩ := ht.compose hcomp
          simp only [if_true, fastExpand_of_table hctl]
          exact hundo.expand hwf hctl _
      | none =>
          simpa only [Bool.false_eq_true, if_false, List.headD_cons] using
            hg.expand_single haccepted _

/-- **The whole input.** -/
theorem Bare.loop (alloc : Nat → Bool) (ht : t.Ok) {s : List UInt8} (hs : WellFormed s)
    (hg : g.Bare) (o : Nat) :
    Sim (g.loop alloc t noFlags s o) (g.toNorm.fastLoop alloc t s) := by
  induction hs generalizing g o with
  | nil =>
      rw [Gen.loop, Norm.fastLoop]
      simp only [senStrCharlenUtf8]
      exact ⟨rfl, fun _ h => Option.some.inj h ▸ hg⟩
  | @cons b q accepted lead _ ih =>
      have hdrop : (b :: q).drop (senStrCharlenUtf8 (b :: q)) =
          q.drop (senStrCharlenUtf8 (b :: q) - 1) := by
        obtain ⟨n, hn⟩ := Nat.exists_eq_succ_of_ne_zero accepted
        rw [hn]
        rfl
      obtain ⟨hsim, hbare⟩ := hg.step alloc ht accepted o
      rw [Gen.loop, Norm.fastLoop]
      simp only [accepted, dite_false, fastSenStrCharlenUtf8_eq accepted lead]
      rw [← hsim]
      cases hstep : g.step alloc t noFlags (b :: q) o (senStrCharlenUtf8 (b :: q)) with
      | none => exact ⟨rfl, fun _ h => by simp at h⟩
      | some g' => simpa only [Option.map_some, ← hdrop] using ih (hbare g' hstep) _

end Gen

/-- What both ways of opening a `sen_nstr` set: the bytes and their number. -/
def SenNstr.view (n : SenNstr) : List UInt8 × Nat := (n.norm, n.normBlen)

/-- The two normalizers agree, also in running out of memory. -/
theorem fastNormalizeUtf8_eq {alloc : Nat → Bool} {t : Nfkc} (ht : t.Ok) {orig : List UInt8}
    (horig : WellFormed orig) :
    (fastNormalizeUtf8 alloc t orig).map SenNstr.view =
      (normalizeUtf8 alloc t Gen.noFlags orig).map SenNstr.view := by
  have hbare : ({
      toNorm := .start (orig.length * 3)
      length := 0
      ctypes := none
      checks := none
      s_ := 0
      s__ := 0 } : Gen).Bare := ⟨rfl, rfl⟩
  obtain ⟨hsim, -⟩ := Gen.Bare.loop alloc ht horig hbare 0
  unfold fastNormalizeUtf8 normalizeUtf8
  simp only [Bool.false_and, Bool.or_false, Bool.false_eq_true, if_false]
  split_ifs
  · rfl
  · simp only [← hsim, Option.bind_eq_bind, Option.map_bind, Option.bind_map]
    rfl

/-- The bits `SEN_STR_REMOVEBLANK`, `SEN_STR_WITH_CTYPES` and `SEN_STR_WITH_CHECKS`. -/
def StrFlags.ofNat (flags : Nat) : StrFlags :=
  ⟨flags.testBit 0, flags.testBit 1, flags.testBit 2⟩

/-- `sizeof(sen_nstr)`. -/
def sizeofSenNstr : Nat := 80

/-- `sen_nstr_open(str, str_len, sen_enc_utf8, flags)`. -/
def senNstrOpen (alloc : Nat → Bool) (t : Nfkc) (str : List UInt8) (flags : Nat) :
    Option SenNstr :=
  if alloc sizeofSenNstr then normalizeUtf8 alloc t (.ofNat flags) str else none

/-- `fast_sen_nstr_open(str, str_len)`. -/
def fastSenNstrOpen (alloc : Nat → Bool) (t : Nfkc) (str : List UInt8) : Option SenNstr :=
  if alloc sizeofSenNstr then fastNormalizeUtf8 alloc t str else none

/-- **The fast normalizer equals the general one.** On a well-formed string, with any
tables whose results are well-formed and free of control characters, both produce the
same bytes and the same length, or both run out of memory. -/
theorem fast_nstr_open_eq (alloc : Nat → Bool) (t : Nfkc) (ht : t.Ok) (str : List UInt8)
    (hstr : WellFormed str) :
    (fastSenNstrOpen alloc t str).map SenNstr.view =
      (senNstrOpen alloc t str 0).map SenNstr.view := by
  have hflags : StrFlags.ofNat 0 = Gen.noFlags := rfl
  unfold fastSenNstrOpen senNstrOpen
  split_ifs
  · rw [hflags, fastNormalizeUtf8_eq ht hstr]
  · rfl

/-- Tables that lower one letter and compose one accent. -/
def sampleNfkc : Nfkc where
  map1 s := if s.head? = some 0x45 then some [0x65] else none
  map2 d s := if d.head? = some 0x65 ∧ s.take 2 = [0xcc, 0x81] then some [0xc3, 0xa9] else none
  ctype _ := 0

/-- A capital E, a control character and a combining accent. -/
theorem fast_nstr_open_eq_accent :
    (fastSenNstrOpen (fun _ => true) sampleNfkc [0x45, 0x01, 0xcc, 0x81]).map SenNstr.view =
      (senNstrOpen (fun _ => true) sampleNfkc [0x45, 0x01, 0xcc, 0x81] 0).map SenNstr.view := by
  refine fast_nstr_open_eq _ _ ⟨fun s r h => ?_, fun d s r h => ?_⟩ _ ?_
  · simp only [sampleNfkc] at h
    split_ifs at h
    obtain rfl := Option.some.inj h
    refine ⟨.cons (by decide) (by decide) .nil, ?_⟩
    simp only [List.mem_singleton, forall_eq]
    decide
  · simp only [sampleNfkc] at h
    split_ifs at h
    obtain rfl := Option.some.inj h
    refine ⟨.cons (by decide) (by decide) .nil, ?_⟩
    simp only [List.mem_cons, List.not_mem_nil, or_false, forall_eq_or_imp, forall_eq]
    decide
  · exact .cons (by decide) (by decide) (.cons (by decide) (by decide)
      (.cons (by decide) (by decide) .nil))

end Senna.Str
