/-
# What a normalizer reads

`sen_nstr_open` is given a length, and its callers pass pieces of larger buffers. Here
the normalizers run over memory, the bytes of the string with whatever follows them. All
but two of them are bounded by the length. `normalize_latin1` and `normalize_koi8r` run
up to the next NUL, so that what they produce depends on what stands behind the string.
-/

import Mathlib.Data.List.TakeWhile
import Senna.Str.Bytewise

namespace Senna.Str

/-- The tables look at one character: on an accepted character they do not depend on the
bytes behind it. -/
structure Nfkc.Local (t : Nfkc) : Prop where
  map1 : ∀ s r, senStrCharlenUtf8 s ≠ 0 → t.map1 (s ++ r) = t.map1 s
  map2 : ∀ d s r, senStrCharlenUtf8 s ≠ 0 → t.map2 d (s ++ r) = t.map2 d s
  ctype : ∀ s r, senStrCharlenUtf8 s ≠ 0 → t.ctype (s ++ r) = t.ctype s

/-- `Gen.expand` where memory goes on with `after` behind the expansion `p`. -/
def Gen.expandIn (alloc : Nat → Bool) (t : Nfkc) (f : StrFlags) (e : Nat) (g : Gen)
    (p after : List UInt8) : Option Gen :=
  if _h : senStrCharlenUtf8 p = 0 then some g
  else
    let lp := senStrCharlenUtf8 p
    let b := p.headD 0
    if (b = 0x20 ∧ f.removeBlank) ∨ b < 0x20 then
      Gen.expandIn alloc t f e { g with ctypes := markBlank g.ctypes } (p.drop lp) after
    else
      match g.grow alloc lp with
      | none => none
      | some g =>
          let g := { g with
            toNorm := g.toNorm.write p lp
            length := g.length + 1
            ctypes := g.ctypes.map (· ++ [t.ctype (p ++ after)]) }
          Gen.expandIn alloc t f e (g.pushChecks e lp) (p.drop lp) after
termination_by p.length
decreasing_by all_goals exact length_drop_lt _h (senStrCharlenUtf8_le p)

/-- `Gen.step` where memory goes on with `rest` behind the string. -/
def Gen.stepIn (alloc : Nat → Bool) (t : Nfkc) (f : StrFlags) (g : Gen) (s rest : List UInt8)
    (o ls : Nat) : Option Gen :=
  let (p, after) := match t.map1 (s ++ rest) with
    | some r => (r, [])
    | none => (s.take ls, s.drop ls ++ rest)
  match g.toNorm.compose t (p ++ after) with
  | some r => g.undo.expandIn alloc t f (o + ls) r []
  | none => g.expandIn alloc t f (o + ls) p after

/-- `Gen.loop` where memory goes on with `rest` behind the string. -/
def Gen.loopIn (alloc : Nat → Bool) (t : Nfkc) (f : StrFlags) (g : Gen) (s rest : List UInt8)
    (o : Nat) : Option Gen :=
  if _h : senStrCharlenUtf8 s = 0 then some g
  else
    let ls := senStrCharlenUtf8 s
    match g.stepIn alloc t f s rest o ls with
    | none => none
    | some g => Gen.loopIn alloc t f g (s.drop ls) rest (o + ls)
termination_by s.length
decreasing_by exact length_drop_lt _h (senStrCharlenUtf8_le s)

/-- `normalize_utf8` on the first `blen` bytes of memory. -/
def normalizeUtf8In (alloc : Nat → Bool) (t : Nfkc) (f : StrFlags) (mem : List UInt8)
    (blen : Nat) : Option SenNstr := do
  let ds := blen * 3
  if !alloc (ds + 1) || (f.withChecks && !alloc (ds * 2 + 1)) || (f.withCtypes && !alloc (ds + 1))
  then none
  else
    let g : Gen := {
      toNorm := .start ds
      length := 0
      ctypes := if f.withCtypes then some [] else none
      checks := if f.withChecks then some [] else none
      s_ := 0
      s__ := 0 }
    let g ← g.loopIn alloc t f (mem.take blen) (mem.drop blen) 0
    some ⟨g.bytes.take g.d, g.d, some g.length, g.ctypes.map (· ++ [0]), g.checks⟩

section Utf8

variable {alloc : Nat → Bool} {t : Nfkc} {f : StrFlags}

theorem Gen.expandIn_eq (ht : t.Local) (e : Nat) (g : Gen) (p after : List UInt8) :
    g.expandIn alloc t f e p after = g.expand alloc t f e p := by
  induction hn : p.length using Nat.strong_induction_on generalizing g p with
  | _ n ih =>
    rw [Gen.expandIn, Gen.expand]
    by_cases h : senStrCharlenUtf8 p = 0
    · rw [dif_pos h, dif_pos h]
    · have hlt : (p.drop (senStrCharlenUtf8 p)).length < n :=
        hn ▸ length_drop_lt h (senStrCharlenUtf8_le p)
      simp only [h, dite_false, ht.ctype p after h]
      split_ifs
      · exact ih _ hlt _ _ rfl
      · cases grow alloc g (senStrCharlenUtf8 p) with
        | none => rfl
        | some g => exact ih _ hlt _ _ rfl

theorem Gen.stepIn_eq (ht : t.Local) (g : Gen) (s rest : List UInt8) (o : Nat)
    (hs : senStrCharlenUtf8 s ≠ 0) :
    g.stepIn alloc t f s rest o (senStrCharlenUtf8 s) =
      g.step alloc t f s o (senStrCharlenUtf8 s) := by
  have hcompose : g.toNorm.compose t (s ++ rest) = g.toNorm.compose t s := by
    unfold Norm.compose
    cases g.d_ with
    | none => rfl
    | some d_ => exact ht.map2 _ s rest hs
  unfold Gen.stepIn Gen.step
  rw [ht.map1 s rest hs]
  cases t.map1 s with
  | some r =>
      dsimp only
      rw [List.append_nil]
      cases g.toNorm.compose t r with
      | none => exact Gen.expandIn_eq ht ..
      | some r' => exact Gen.expandIn_eq ht ..
  | none =>
      dsimp only
      rw [← List.append_assoc, List.take_append_drop, hcompose]
      cases g.toNorm.compose t s with
      | none => exact Gen.expandIn_eq ht ..
      | some r' => exact Gen.expandIn_eq ht ..

theorem Gen.loopIn_eq (ht : t.Local) (g : Gen) (s rest : List UInt8) (o : Nat) :
    g.loopIn alloc t f s rest o = g.loop alloc t f s o := by
  induction hn : s.length using Nat.strong_induction_on generalizing g s o with
  | _ n ih =>
    rw [Gen.loopIn, Gen.loop]
    by_cases h : senStrCharlenUtf8 s = 0
    · rw [dif_pos h, dif_pos h]
    · have hlt : (s.drop (senStrCharlenUtf8 s)).length < n :=
        hn ▸ length_drop_lt h (senStrCharlenUtf8_le s)
      simp only [h, dite_false, Gen.stepIn_eq ht g s rest o h]
      cases g.step alloc t f s o (senStrCharlenUtf8 s) with
      | none => rfl
      | some g => exact ih _ hlt _ _ _ rfl

/-- With tables that look at one character, `normalize_utf8` sees the string alone. -/
theorem normalizeUtf8In_eq (ht : t.Local) (str rest : List UInt8) :
    normalizeUtf8In alloc t f (str ++ rest) str.length = normalizeUtf8 alloc t f str := by
  unfold normalizeUtf8In normalizeUtf8
  rw [List.take_left, List.drop_left]
  simp only [Gen.loopIn_eq ht]

end Utf8

/-- A round stays below the end of the string and does not look behind it. -/
def Round.Local (round : Round) : Prop :=
  ∀ norm p rest, p ≠ [] →
    (round norm p p.length).1 < p.length ∧
      round norm (p ++ rest) p.length = round norm p p.length

theorem Out.loop_append {round : Round} (hround : round.Local) (o : Out)
    (p rest : List UInt8) (s : Nat) :
    o.loop round (p ++ rest) s p.length = o.loop round p s p.length := by
  induction hn : p.length using Nat.strong_induction_on generalizing o p s with
  | _ n ih =>
    subst hn
    rw [Out.loop]
    conv_rhs => rw [Out.loop]
    by_cases hp : p = []
    · subst hp
      rfl
    · obtain ⟨hlt, heq⟩ := hround o.norm p rest hp
      have hpos : p.length ≠ 0 := fun h => hp (List.eq_nil_of_length_eq_zero h)
      rw [if_neg hpos, if_neg hpos, heq]
      have hlen : (p.drop ((round o.norm p p.length).1 + 1)).length =
          p.length - ((round o.norm p p.length).1 + 1) := List.length_drop
      have hdrop : (p ++ rest).drop ((round o.norm p p.length).1 + 1) =
          p.drop ((round o.norm p p.length).1 + 1) ++ rest :=
        List.drop_append_of_le_length hlt
      have hrec := ih (p.drop ((round o.norm p p.length).1 + 1)).length
        (by rw [hlen]; omega)
        (o.put s ((round o.norm p p.length).1 + 1) (round o.norm p p.length).2)
        (p.drop ((round o.norm p p.length).1 + 1))
        (s + ((round o.norm p p.length).1 + 1)) rfl
      simp only [hdrop]
      rwa [hlen] at hrec

theorem bytewise_append {round : Round} (hround : round.Local) (alloc : Nat → Bool)
    (f : StrFlags) (wide : Nat) (str rest : List UInt8) :
    bytewise alloc f wide round (str ++ rest) str.length =
      bytewise alloc f wide round str str.length := by
  unfold bytewise
  rw [Out.loop_append hround]

/-- A round that looks at the byte under `s` only. -/
theorem Round.local_single (put : UInt8 → Put) :
    (Round.single put).Local := by
  intro norm p rest hp
  cases p with
  | nil => exact absurd rfl hp
  | cons c p => exact ⟨Nat.succ_pos _, rfl⟩

theorem noneRound_local (removeblank : Bool) : (noneRound removeblank).Local :=
  Round.local_single (asciiPut removeblank)

/-- A round that looks at the next byte only after `(s + 1) < e`. -/
theorem Round.local_pair {round : Round} (one : List UInt8 → UInt8 → Put)
    (two : List UInt8 → UInt8 → UInt8 → Nat × Put)
    (hone : ∀ norm c rest, round norm (c :: rest) 1 = (0, one norm c))
    (htwo : ∀ norm c d p n, round norm (c :: d :: p) (n + 2) = two norm c d)
    (hle : ∀ norm c d, (two norm c d).1 ≤ 1) : round.Local := by
  intro norm p rest hp
  match p with
  | [] => exact absurd rfl hp
  | [c] =>
      have h := hone norm c
      exact ⟨by rw [List.length_singleton, h]; exact Nat.one_pos,
        by rw [List.length_singleton, List.singleton_append, h, h]⟩
  | c :: d :: p =>
      have h := htwo norm c d
      refine ⟨?_, ?_⟩
      · show (round norm (c :: d :: p) (p.length + 2)).1 < p.length + 2
        have := hle norm c d
        rw [h]
        omega
      · show round norm (c :: d :: (p ++ rest)) (p.length + 2) =
          round norm (c :: d :: p) (p.length + 2)
        rw [h, h]

theorem eucRound_local (removeblank : Bool) : (eucRound removeblank).Local := by
  apply Round.local_pair
    (fun _ c => if c &&& 0x80 ≠ 0 then .skip false else asciiPut removeblank c)
    (fun norm c d => eucRound removeblank norm [c, d] 2)
  · intro norm c rest
    simp only [eucRound, List.headD_cons, Nat.lt_irrefl, false_and, if_false]
    split_ifs <;> rfl
  · intro norm c d p n
    simp only [eucRound, List.headD_cons, List.getD_cons_succ, List.getD_cons_zero,
      show 1 < n + 2 by omega, show 1 < 2 by decide, true_and]
  · intro norm c d
    simp only [eucRound]
    split_ifs <;> simp

theorem sjisRound_local (removeblank : Bool) : (sjisRound removeblank).Local := by
  apply Round.local_pair
    (fun norm c =>
      if c &&& 0x80 ≠ 0 then
        if 0xa0 ≤ c ∧ c ≤ 0xdf then Sjis.kana norm c else .skip false
      else asciiPut removeblank c)
    (fun norm c d => sjisRound removeblank norm [c, d] 2)
  · intro norm c rest
    simp only [sjisRound, List.headD_cons, Nat.lt_irrefl, false_and, if_false]
    split_ifs <;> rfl
  · intro norm c d p n
    simp only [sjisRound, List.headD_cons, List.getD_cons_succ, List.getD_cons_zero,
      show 1 < n + 2 by omega, show 1 < 2 by decide, true_and]
  · intro norm c d
    simp only [sjisRound]
    split_ifs <;> simp

/-- `sen_encoding` -/
inductive SenEncoding where
  | default | none | eucJp | utf8 | sjis | latin1 | koi8r
  deriving DecidableEq, Repr

/-- `sen_nstr_open(str, str_len, encoding, flags)`. `mem` is memory from `str` on, up to
a NUL behind the string. -/
def senNstrOpenIn (alloc : Nat → Bool) (t : Nfkc) (mem : List UInt8) (strLen : Nat)
    (encoding : SenEncoding) (flags : Nat) : Option SenNstr :=
  if alloc sizeofSenNstr then
    let f := StrFlags.ofNat flags
    match encoding with
    | .eucJp => normalizeEuc alloc f mem strLen
    | .utf8 => normalizeUtf8In alloc t f mem strLen
    | .sjis => normalizeSjis alloc f mem strLen
    | .latin1 => normalizeLatin1 alloc f mem
    | .koi8r => normalizeKoi8r alloc f mem
    | _ => normalizeNone alloc f mem strLen
  else none

/-- For UTF-8 this is `senNstrOpen` on the string alone. -/
theorem senNstrOpenIn_utf8 {t : Nfkc} (ht : t.Local) (alloc : Nat → Bool)
    (str rest : List UInt8) (flags : Nat) :
    senNstrOpenIn alloc t (str ++ rest) str.length .utf8 flags =
      senNstrOpen alloc t str flags := by
  unfold senNstrOpenIn senNstrOpen
  simp only [normalizeUtf8In_eq ht]

/-- What `sen_nstr_open` produces for `str` does not depend on the bytes behind it. -/
def DependsOnlyOn (str : List UInt8) (encoding : SenEncoding) (flags : Nat) : Prop :=
  ∀ (alloc : Nat → Bool) (t : Nfkc), t.Local → ∀ rest rest' : List UInt8,
    senNstrOpenIn alloc t (str ++ rest) str.length encoding flags =
      senNstrOpenIn alloc t (str ++ rest') str.length encoding flags

/-- The two encodings whose normalizers take `strlen(nstr->orig)`. -/
def SenEncoding.runsToNul : SenEncoding → Prop
  | .latin1 => True
  | .koi8r => True
  | _ => False

instance : DecidablePred SenEncoding.runsToNul := fun e => by
  cases e <;> unfold SenEncoding.runsToNul <;> infer_instance

/-- A normalizer bounded by the length sees the string alone. -/
theorem senNstrOpenIn_append {encoding : SenEncoding} (hbound : ¬ encoding.runsToNul)
    (alloc : Nat → Bool) {t : Nfkc} (ht : t.Local) (str rest : List UInt8) (flags : Nat) :
    senNstrOpenIn alloc t (str ++ rest) str.length encoding flags =
      senNstrOpenIn alloc t str str.length encoding flags := by
  have hnone := fun f : StrFlags =>
    bytewise_append (noneRound_local f.removeBlank) alloc f 1 str rest
  have heuc := fun f : StrFlags =>
    bytewise_append (eucRound_local f.removeBlank) alloc f 2 str rest
  have hsjis := fun f : StrFlags =>
    bytewise_append (sjisRound_local f.removeBlank) alloc f 2 str rest
  have hutf8 : ∀ f, normalizeUtf8In alloc t f (str ++ rest) str.length =
      normalizeUtf8In alloc t f str str.length := by
    intro f
    rw [normalizeUtf8In_eq ht, ← normalizeUtf8In_eq ht str [], List.append_nil]
  unfold senNstrOpenIn
  cases encoding with
  | default => simp only [normalizeNone, hnone]
  | none => simp only [normalizeNone, hnone]
  | eucJp => simp only [normalizeEuc, heuc]
  | utf8 => simp only [hutf8]
  | sjis => simp only [normalizeSjis, hsjis]
  | latin1 => exact absurd trivial hbound
  | koi8r => exact absurd trivial hbound

theorem strlen_of_not_mem {mem : List UInt8} (h : (0 : UInt8) ∉ mem) :
    strlen mem = mem.length := by
  unfold strlen
  rw [List.takeWhile_eq_self_iff.mpr]
  intro b hb
  exact decide_eq_true fun h₀ => h (h₀ ▸ hb)

/-- One byte more is one round more. -/
theorem Out.loop_snoc (put : UInt8 → Put) (o : Out) (p : List UInt8) (c : UInt8) (s : Nat) :
    o.loop (.single put) (p ++ [c]) s (p.length + 1) =
      (o.loop (.single put) p s p.length).put (s + p.length) 1 (put c) := by
  induction p generalizing o s with
  | nil => simp only [List.nil_append, List.length_nil, Out.loop_single_cons, Out.loop_zero,
      Nat.add_zero]
  | cons b p ih =>
      rw [List.cons_append, List.length_cons, Out.loop_single_cons, Out.loop_single_cons, ih,
        Nat.add_assoc, Nat.add_comm 1]

/-- A normalizer that runs to the NUL takes a letter behind the string for its own. -/
theorem bytewise_reads_on (put : UInt8 → Put) (f : StrFlags) {c : UInt8}
    {bytes : List UInt8} {ctype : Nat} (hput : put c = .char bytes ctype) (hc : c ≠ 0)
    {str : List UInt8} (hstr : (0 : UInt8) ∉ str) :
    bytewise (fun _ => true) f 1 (.single put) (str ++ [c])
        (strlen (str ++ [c])) ≠
      bytewise (fun _ => true) f 1 (.single put) str (strlen str) := by
  have hlen : strlen (str ++ [c]) = str.length + 1 := by
    rw [strlen_of_not_mem, List.length_append, List.length_singleton]
    intro hmem
    rcases List.mem_append.mp hmem with h | h
    · exact hstr h
    · exact hc (List.mem_singleton.mp h).symm
  rw [hlen, strlen_of_not_mem hstr]
  intro heq
  have hlength := congrArg (fun n => n.bind SenNstr.length) heq
  simp only [bytewise, Bool.not_true, Bool.and_false, Bool.or_false, Bool.false_eq_true, if_false,
    Out.loop_snoc, hput, Out.put, Option.bind_some, Option.some.injEq] at hlength
  omega

/-- No expansion and no composition. -/
def plainNfkc : Nfkc := ⟨fun _ => none, fun _ _ => none, fun _ => 0⟩

theorem plainNfkc_local : plainNfkc.Local :=
  ⟨fun _ _ _ => rfl, fun _ _ _ _ => rfl, fun _ _ _ => rfl⟩

/-- **Normalization depends on the given bytes for the encodings bounded by the length,
and for these alone.** -/
theorem dependsOnlyOn_iff (str : List UInt8) (encoding : SenEncoding) (flags : Nat)
    (hstr : (0 : UInt8) ∉ str) :
    DependsOnlyOn str encoding flags ↔ ¬ encoding.runsToNul := by
  constructor
  · intro h hruns
    have heq := h (fun _ => true) plainNfkc plainNfkc_local [0x61] []
    rw [List.append_nil] at heq
    cases encoding with
    | latin1 => exact bytewise_reads_on (latin1Put _) _ rfl (by decide) hstr heq
    | koi8r => exact bytewise_reads_on (koi8rPut _) _ rfl (by decide) hstr heq
    | _ => exact hruns
  · intro hbound alloc t ht rest rest'
    rw [senNstrOpenIn_append hbound alloc ht, senNstrOpenIn_append hbound alloc ht]

/-- The letter `a` in EUC-JP. -/
theorem dependsOnlyOn_iff_euc :
    DependsOnlyOn [0x61] .eucJp 0 ↔ ¬ SenEncoding.eucJp.runsToNul :=
  dependsOnlyOn_iff [0x61] .eucJp 0 (by decide)

/-- The keyword `a` of the query text `ab` is normalized to `ab`. -/
theorem latin1_reads_on :
    senNstrOpenIn (fun _ => true) plainNfkc [0x61, 0x62] 1 .latin1 0 ≠
      senNstrOpenIn (fun _ => true) plainNfkc [0x61] 1 .latin1 0 :=
  bytewise_reads_on (latin1Put false) (.ofNat 0) (c := 0x62) rfl (by decide)
    (show (0 : UInt8) ∉ [0x61] by decide)

end Senna.Str
