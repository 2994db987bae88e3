/-
# Where characters start

`sen_snip_find_firstbyte` moves an offset to a place where a character starts. For EUC-JP and
Shift_JIS it counts the bytes before the offset that could belong to a character of two bytes,
for UTF-8 it looks at the byte itself. In a text that consists of whole characters this is the
next boundary in the given direction.

The count is right only if no character has three bytes, so that characters of JIS X 0212 in
EUC-JP, which start with `0x8f`, have to be left out.
-/

import Senna.Snip.Reported

namespace Senna.Snip

/-- The bytes that are a character by themselves. -/
def IsSingle : SenEncoding → UInt8 → Prop
  | .eucJp, b => b < 0x80
  | .sjis, b => b < 0x81 ∨ (0x9f < b ∧ b < 0xe0) ∨ 0xfc < b
  | .utf8, b => b < 0x80
  | _, _ => True

instance (encoding : SenEncoding) : DecidablePred (IsSingle encoding) := fun b =>
  match encoding with
  | .eucJp => inferInstanceAs (Decidable (b < 0x80))
  | .sjis => inferInstanceAs (Decidable (b < 0x81 ∨ (0x9f < b ∧ b < 0xe0) ∨ 0xfc < b))
  | .utf8 => inferInstanceAs (Decidable (b < 0x80))
  | .none | .latin1 | .koi8r => inferInstanceAs (Decidable True)

/-- The bytes behind the first one of a character in EUC-JP. -/
def IsEucTail (b : UInt8) : Prop := 0xa1 ≤ b ∧ b ≤ 0xfe
  deriving Decidable

/-- The bytes behind the first one of a character in UTF-8. -/
def IsUtf8Tail (b : UInt8) : Prop := 0x80 ≤ b ∧ b ≤ 0xbf
  deriving Decidable

/-- The characters of an encoding. -/
inductive IsChar : SenEncoding → List UInt8 → Prop
  | single {encoding : SenEncoding} {b : UInt8} (hb : IsSingle encoding b) : IsChar encoding [b]
  | eucPair {b c : UInt8} (hb : b = 0x8e ∨ IsEucTail b) (hc : IsEucTail c) : IsChar .eucJp [b, c]
  | eucTriple {c d : UInt8} (hc : IsEucTail c) (hd : IsEucTail d) : IsChar .eucJp [0x8f, c, d]
  | sjisPair {b c : UInt8} (hb : ¬IsSingle .sjis b) : IsChar .sjis [b, c]
  | utf8Pair {b c : UInt8} (hb : 0xc2 ≤ b ∧ b ≤ 0xdf) (hc : IsUtf8Tail c) : IsChar .utf8 [b, c]
  | utf8Triple {b c d : UInt8} (hb : 0xe0 ≤ b ∧ b ≤ 0xef) (hc : IsUtf8Tail c)
      (hd : IsUtf8Tail d) : IsChar .utf8 [b, c, d]
  | utf8Quad {b c d e : UInt8} (hb : 0xf0 ≤ b ∧ b ≤ 0xf7) (hc : IsUtf8Tail c)
      (hd : IsUtf8Tail d) (he : IsUtf8Tail e) : IsChar .utf8 [b, c, d, e]

/-- The well-formed texts of an encoding. -/
inductive IsText (encoding : SenEncoding) : List UInt8 → Prop
  | nil : IsText encoding []
  | cons {c s : List UInt8} (hc : IsChar encoding c) (hs : IsText encoding s) :
      IsText encoding (c ++ s)

/-- A place between two characters of a text, or at one of its ends. -/
structure Boundary (encoding : SenEncoding) (s : List UInt8) (n : Nat) : Prop where
  le : n ≤ s.length
  before : IsText encoding (s.take n)
  after : IsText encoding (s.drop n)

/-- No character of JIS X 0212. -/
def PairsOnly (encoding : SenEncoding) (s : List UInt8) : Prop :=
  encoding = .eucJp → (0x8f : UInt8) ∉ s

section

variable {encoding : SenEncoding} {s : List UInt8} {n : Nat}

theorem IsText.append {a b : List UInt8} (ha : IsText encoding a) (hb : IsText encoding b) :
    IsText encoding (a ++ b) := by
  induction ha with
  | nil => exact hb
  | cons hc hs ih =>
      rw [List.append_assoc]
      exact .cons hc ih

theorem IsText.boundary_zero (h : IsText encoding s) : Boundary encoding s 0 :=
  ⟨Nat.zero_le _, .nil, h⟩

theorem IsText.boundary_length (h : IsText encoding s) : Boundary encoding s s.length :=
  ⟨le_rfl, by rwa [List.take_length], by rw [List.drop_length]; exact .nil⟩

theorem Boundary.of_append {a b : List UInt8} (ha : IsText encoding a) (hb : IsText encoding b) :
    Boundary encoding (a ++ b) a.length where
  le := by
    rw [List.length_append]
    exact Nat.le_add_right _ _
  before := by rwa [List.take_left]
  after := by rwa [List.drop_left]

theorem Boundary.cons {c : List UInt8} (hc : IsChar encoding c) (h : Boundary encoding s n) :
    Boundary encoding (c ++ s) (c.length + n) where
  le := by
    rw [List.length_append]
    exact Nat.add_le_add_left h.le _
  before := by
    rw [List.take_length_add_append]
    exact .cons hc h.before
  after := by
    rw [List.drop_length_add_append]
    exact h.after

/-- Every place of a text is a boundary or inside a character. -/
theorem IsText.boundary_or_inside (h : IsText encoding s) (hn : n ≤ s.length) :
    Boundary encoding s n ∨ ∃ a c b, s = a ++ (c ++ b) ∧ IsText encoding a ∧ IsChar encoding c ∧
      IsText encoding b ∧ a.length < n ∧ n < a.length + c.length := by
  induction h generalizing n with
  | nil =>
      obtain rfl : n = 0 := Nat.le_zero.mp hn
      exact .inl IsText.nil.boundary_zero
  | @cons c s hc hs ih =>
      rcases Nat.lt_or_ge n c.length with hlt | hge
      · rcases Nat.eq_zero_or_pos n with rfl | hpos
        · exact .inl (IsText.cons hc hs).boundary_zero
        · exact .inr ⟨[], c, s, rfl, .nil, hc, hs, hpos, by simpa using hlt⟩
      · obtain ⟨m, rfl⟩ := Nat.exists_eq_add_of_le hge
        rw [List.length_append] at hn
        rcases ih (n := m) (by omega) with hb | ⟨a, c', b, rfl, ha, hc', hb, hlt, hgt⟩
        · exact .inl (hb.cons hc)
        · refine .inr ⟨c ++ a, c', b, by rw [List.append_assoc], .cons hc ha, hc', hb, ?_, ?_⟩
          · rw [List.length_append]
            omega
          · rw [List.length_append]
            omega

/-- The number of bytes at the end of a text for which `inner` holds. -/
def tailRun (inner : UInt8 → Bool) (s : List UInt8) : Nat := (s.reverse.takeWhile inner).length

theorem tailRun_concat (inner : UInt8 → Bool) (s : List UInt8) (b : UInt8) :
    tailRun inner (s ++ [b]) = if inner b then tailRun inner s + 1 else 0 := by
  unfold tailRun
  rw [List.reverse_append, List.reverse_singleton, List.singleton_append, List.takeWhile_cons]
  split_ifs <;> rfl

theorem tailRun_concat_two (inner : UInt8 → Bool) (s : List UInt8) (b c : UInt8) :
    tailRun inner (s ++ [b, c]) =
      if inner c then (if inner b then tailRun inner s + 1 else 0) + 1 else 0 := by
  rw [← tailRun_concat, ← tailRun_concat, List.append_assoc]
  rfl

theorem evenBefore_eq {inner : UInt8 → Bool} (hn : n ≤ s.length) :
    evenBefore inner s n = some (decide (tailRun inner (s.take n) % 2 = 0)) := by
  unfold evenBefore tailRun
  rw [if_pos (by omega), List.take_append_of_le_length hn]

/-- `inner` counts the characters of two bytes right: it holds of both bytes, or of the first one
only, and not of a character of one byte. -/
structure CountsPairs (inner : UInt8 → Bool) (c : List UInt8) : Prop where
  short : c.length ≤ 2
  even : ∀ a, tailRun inner a % 2 = 0 → tailRun inner (a ++ c) % 2 = 0
  odd : ∀ a, tailRun inner a % 2 = 0 → c.length = 2 → tailRun inner (a ++ c.take 1) % 2 = 1

theorem CountsPairs.single {inner : UInt8 → Bool} {b : UInt8} (hb : inner b = false) :
    CountsPairs inner [b] where
  short := by simp
  even a _ := by rw [tailRun_concat, hb]; rfl
  odd a _ h := absurd h (by simp)

theorem CountsPairs.pair {inner : UInt8 → Bool} {b c : UInt8} (hb : inner b = true) :
    CountsPairs inner [b, c] where
  short := le_rfl
  even a ha := by
    rw [tailRun_concat_two, hb, if_pos rfl]
    split_ifs
    · omega
    · rfl
  odd a ha _ := by
    show tailRun inner (a ++ [b]) % 2 = 1
    rw [tailRun_concat, hb, if_pos rfl]
    omega

/-- Where every character is counted right, the count is even at the boundaries only. -/
theorem IsText.even_iff {inner : UInt8 → Bool} (h : IsText encoding s)
    (hcounts : ∀ c, IsChar encoding c → c <:+: s → CountsPairs inner c) (hn : n ≤ s.length) :
    tailRun inner (s.take n) % 2 = 0 ↔ Boundary encoding s n := by
  have heven : ∀ u, IsText encoding u → (∀ c, IsChar encoding c → c <:+: u → CountsPairs inner c) →
      ∀ a, tailRun inner a % 2 = 0 → tailRun inner (a ++ u) % 2 = 0 := by
    intro u hu
    induction hu with
    | nil =>
        intro _ a ha
        rwa [List.append_nil]
    | cons hc hs ih =>
        intro hcounts a ha
        rw [← List.append_assoc]
        refine ih (fun c hc hsub => hcounts c hc (hsub.trans (List.suffix_append _ _).isInfix)) _ ?_
        exact (hcounts _ hc (List.prefix_append _ _).isInfix).even a ha
  constructor
  · intro hrun
    refine (h.boundary_or_inside hn).resolve_right ?_
    rintro ⟨a, c, b, rfl, ha, hc, hb, hlt, hgt⟩
    have hsub : c <:+: a ++ (c ++ b) := ⟨a, b, by rw [List.append_assoc]⟩
    have hpair := hcounts c hc hsub
    have hshort := hpair.short
    have htake : (a ++ (c ++ b)).take n = a ++ c.take 1 := by
      obtain rfl : n = a.length + 1 := by omega
      rw [List.take_length_add_append, List.take_append_of_le_length (by omega)]
    rw [htake, hpair.odd a _ (by omega)] at hrun
    · exact absurd hrun (by decide)
    · refine heven a ha (fun c' hc' hsub' => hcounts c' hc' (hsub'.trans ?_)) [] rfl
      exact (List.prefix_append _ _).isInfix
  · intro hb
    refine heven _ hb.before (fun c hc hsub => hcounts c hc (hsub.trans ?_)) [] rfl
    exact (List.take_prefix _ _).isInfix

end

/-- The test of `sen_snip_find_firstbyte` at an offset. -/
def headAt (string : List UInt8) (encoding : SenEncoding) (offset : Nat) : Option Bool :=
  match encoding with
  | .eucJp => senBmCheckEuc string offset
  | .sjis => senBmCheckSjis string offset
  | .utf8 => ((string ++ [0])[offset]?).map fun b => !decide (0x80 ≤ b ∧ b ≤ 0xc0)
  | _ => some true

theorem IsEucTail.high {b : UInt8} (h : IsEucTail b) : 0x80 ≤ b :=
  UInt8.le_trans (by decide) h.1

theorem countsPairs_euc {c : List UInt8} (h : IsChar .eucJp c) (hc : (0x8f : UInt8) ∉ c) :
    CountsPairs (fun b => decide (0x80 ≤ b)) c := by
  cases h with
  | single hb => exact .single (decide_eq_false (UInt8.not_le.mpr hb))
  | eucPair hb hc' =>
      refine .pair (decide_eq_true ?_)
      rcases hb with rfl | hb
      · decide
      · exact hb.high
  | eucTriple _ _ => exact absurd List.mem_cons_self hc

theorem countsPairs_sjis {c : List UInt8} (h : IsChar .sjis c) :
    CountsPairs (fun b => decide (¬(b < 0x81 ∨ (0x9f < b ∧ b < 0xe0) ∨ 0xfc < b))) c := by
  cases h with
  | single hb => exact .single (decide_eq_false (not_not_intro hb))
  | sjisPair hb => exact .pair (decide_eq_true hb)

section

variable {encoding : SenEncoding} {s : List UInt8} {n : Nat}

/-- A character of an encoding that has no longer ones. -/
theorem IsChar.length_one {c : List UInt8} (h : IsChar encoding c) (heuc : encoding ≠ .eucJp)
    (hsjis : encoding ≠ .sjis) (hutf8 : encoding ≠ .utf8) : c.length = 1 := by
  cases h with
  | single _ => rfl
  | _ => contradiction

/-- In UTF-8 the first byte of a character is not one that may stand inside of one. -/
theorem IsChar.utf8_head {c : List UInt8} (h : IsChar .utf8 c) :
    ∃ b rest, c = b :: rest ∧ ¬(0x80 ≤ b ∧ b ≤ 0xc0) ∧ ∀ d ∈ rest, IsUtf8Tail d := by
  have hlead : ∀ {b lo : UInt8}, 0xc0 < lo → lo ≤ b → ¬(0x80 ≤ b ∧ b ≤ 0xc0) := fun hlo hb hin =>
    absurd (UInt8.lt_of_lt_of_le hlo (UInt8.le_trans hb hin.2)) (by decide)
  cases h with
  | single hb => exact ⟨_, _, rfl, fun hin => absurd hb (UInt8.not_lt.mpr hin.1), by simp⟩
  | utf8Pair hb hc => exact ⟨_, _, rfl, hlead (by decide) hb.1, by simpa using hc⟩
  | utf8Triple hb hc hd => exact ⟨_, _, rfl, hlead (by decide) hb.1, by simpa using ⟨hc, hd⟩⟩
  | utf8Quad hb hc hd he =>
      exact ⟨_, _, rfl, hlead (by decide) hb.1, by simpa using ⟨hc, hd, he⟩⟩

theorem headAt_utf8 (h : IsText .utf8 s) (hn : n ≤ s.length) :
    ∃ r, headAt s .utf8 n = some r ∧ (r = true ↔ Boundary .utf8 s n) := by
  have hfirst : (s ++ [0])[n]? = (s.drop n ++ [0])[0]? := by
    rw [← List.drop_append_of_le_length hn, List.getElem?_drop, Nat.add_zero]
  obtain ⟨b, hb⟩ : ∃ b, (s ++ [0])[n]? = some b :=
    ⟨_, List.getElem?_eq_getElem (by rw [List.length_append]; exact Nat.lt_succ_of_le hn)⟩
  refine ⟨!decide (0x80 ≤ b ∧ b ≤ 0xc0), ?_, ?_⟩
  · unfold headAt
    rw [hb]
    rfl
  rw [Bool.not_eq_true', decide_eq_false_iff_not]
  constructor
  · intro hhead
    refine (h.boundary_or_inside hn).resolve_right ?_
    rintro ⟨a, c, d, rfl, -, hc, -, hgt, hin⟩
    obtain ⟨lead, rest, rfl, -, htail⟩ := hc.utf8_head
    obtain ⟨k, rfl⟩ := Nat.exists_eq_add_of_lt hgt
    rw [List.length_cons] at hin
    have hk : k < rest.length := by omega
    have hget : (a ++ (lead :: rest ++ d) ++ [0])[a.length + k + 1]? = some rest[k] := by
      rw [List.append_assoc, Nat.add_assoc, List.getElem?_append_right (Nat.le_add_right _ _),
        Nat.add_sub_cancel_left, List.cons_append, List.cons_append, List.getElem?_cons_succ,
        List.append_assoc, List.getElem?_append_left hk, List.getElem?_eq_getElem hk]
    obtain rfl := Option.some.inj (hget.symm.trans hb)
    have hmem := htail _ (List.getElem_mem hk)
    exact hhead ⟨hmem.1, UInt8.le_trans hmem.2 (by decide)⟩
  · intro hboundary
    rw [hfirst] at hb
    generalize hu : s.drop n = u at hb
    have hafter : IsText .utf8 u := hu ▸ hboundary.after
    cases hafter with
    | nil =>
        obtain rfl := Option.some.inj hb
        decide
    | cons hc _ =>
        obtain ⟨lead, rest, rfl, hlead, -⟩ := hc.utf8_head
        obtain rfl := Option.some.inj hb
        exact hlead

/-- **The test** tells the boundaries of a text from the other places. -/
theorem IsText.headAt_iff (h : IsText encoding s) (hpairs : PairsOnly encoding s)
    (hn : n ≤ s.length) : ∃ r, headAt s encoding n = some r ∧
        (r = true ↔ Boundary encoding s n) := by
  have hplain : encoding ≠ .eucJp → encoding ≠ .sjis → encoding ≠ .utf8 →
      Boundary encoding s n := by
    intro heuc hsjis hutf8
    refine (h.boundary_or_inside hn).resolve_right ?_
    rintro ⟨a, c, b, rfl, -, hc, -, hlt, hgt⟩
    have := hc.length_one heuc hsjis hutf8
    omega
  cases encoding with
  | eucJp =>
      refine ⟨_, evenBefore_eq hn, decide_eq_true_iff.trans (h.even_iff ?_ hn)⟩
      exact fun c hc hsub => countsPairs_euc hc fun hmem => hpairs rfl (hsub.subset hmem)
  | sjis =>
      refine ⟨_, evenBefore_eq hn, decide_eq_true_iff.trans (h.even_iff ?_ hn)⟩
      exact fun c hc _ => countsPairs_sjis hc
  | utf8 => exact headAt_utf8 h hn
  | none => exact ⟨true, rfl, fun _ => hplain nofun nofun nofun, fun _ => rfl⟩
  | latin1 => exact ⟨true, rfl, fun _ => hplain nofun nofun nofun, fun _ => rfl⟩
  | koi8r => exact ⟨true, rfl, fun _ => hplain nofun nofun nofun, fun _ => rfl⟩

/-- The loop of the encodings other than Shift_JIS. -/
theorem senSnipFindFirstbyte_succ (hsjis : encoding ≠ .sjis) (forward : Bool) (k n : Nat) :
    senSnipFindFirstbyte s encoding forward (k + 1) n =
      (headAt s encoding n).bind fun head =>
        if head then some n
        else (stepOffset forward n).bind (senSnipFindFirstbyte s encoding forward k) := by
  cases encoding with
  | eucJp => rfl
  | sjis => exact absurd rfl hsjis
  | utf8 =>
      unfold headAt
      rw [Option.bind_map]
      show ((s ++ [0])[n]?).bind _ = _
      congr 1
      funext b
      by_cases hb : 0x80 ≤ b ∧ b ≤ 0xc0
      · simp only [Function.comp_apply, if_pos hb, decide_eq_true hb]
        rfl
      · simp only [Function.comp_apply, if_neg hb, decide_eq_false hb]
        rfl
  | none => rfl
  | latin1 => rfl
  | koi8r => rfl

theorem senSnipFindFirstbyte_sjis (forward : Bool) (k n : Nat) :
    senSnipFindFirstbyte s .sjis forward (k + 1) n =
      (headAt s .sjis n).bind fun head => if head then some n else stepOffset forward n := rfl

/-- Inside a character of two bytes the places next to it are boundaries. -/
theorem IsText.sjis_inside (h : IsText .sjis s) (hn : n ≤ s.length)
    (hinside : ¬Boundary .sjis s n) :
    0 < n ∧ Boundary .sjis s (n - 1) ∧ Boundary .sjis s (n + 1) := by
  obtain ⟨a, c, b, rfl, ha, hc, hb, hlt, hgt⟩ := (h.boundary_or_inside hn).resolve_left hinside
  have hshort := (countsPairs_sjis hc).short
  have hstart := Boundary.of_append ha (IsText.cons hc hb)
  have hstop := Boundary.of_append (ha.append (IsText.cons hc .nil)) hb
  rw [List.append_nil, List.append_assoc, List.length_append] at hstop
  refine ⟨by omega, ?_, ?_⟩
  · rwa [show n - 1 = a.length by omega]
  · rwa [show n + 1 = a.length + c.length by omega]

/-- **Forward**: the first boundary from `n` on. -/
theorem senSnipFindFirstbyte_forward (h : IsText encoding s) (hpairs : PairsOnly encoding s)
    {k : Nat} (hn : n ≤ s.length) (hk : s.length < n + k) :
    ∃ r, senSnipFindFirstbyte s encoding true k n = some r ∧ n ≤ r ∧ Boundary encoding s r ∧
      ∀ b, Boundary encoding s b → n ≤ b → r ≤ b := by
  induction k generalizing n with
  | zero => omega
  | succ k ih =>
      obtain ⟨head, hhead, hiff⟩ := h.headAt_iff hpairs hn
      have hnext : ∀ {b}, ¬Boundary encoding s n → Boundary encoding s b → n ≤ b → n + 1 ≤ b :=
        fun hinside hb hle => Nat.lt_of_le_of_ne hle fun heq => hinside (heq ▸ hb)
      cases head with
      | true =>
          refine ⟨n, ?_, le_rfl, hiff.mp rfl, fun _ _ hle => hle⟩
          by_cases hsjis : encoding = .sjis
          · subst hsjis
            rw [senSnipFindFirstbyte_sjis, hhead]
            rfl
          · rw [senSnipFindFirstbyte_succ hsjis, hhead]
            rfl
      | false =>
          have hinside : ¬Boundary encoding s n := fun hb => Bool.false_ne_true (hiff.mpr hb)
          have hlt := hnext hinside h.boundary_length hn
          by_cases hsjis : encoding = .sjis
          · subst hsjis
            refine ⟨n + 1, ?_, Nat.le_succ n, (h.sjis_inside hn hinside).2.2,
              fun b hb => hnext hinside hb⟩
            rw [senSnipFindFirstbyte_sjis, hhead]
            rfl
          · obtain ⟨r, hr, hle, hb, hleast⟩ := ih (n := n + 1) hlt (by omega)
            refine ⟨r, ?_, (Nat.le_succ n).trans hle, hb,
              fun b hb hle => hleast b hb (hnext hinside hb hle)⟩
            rw [senSnipFindFirstbyte_succ hsjis, hhead]
            exact hr

/-- **Backward**: the last boundary up to `n`. -/
theorem senSnipFindFirstbyte_backward (h : IsText encoding s) (hpairs : PairsOnly encoding s)
    {k : Nat} (hn : n ≤ s.length) (hk : n < k) :
    ∃ r, senSnipFindFirstbyte s encoding false k n = some r ∧ r ≤ n ∧ Boundary encoding s r ∧
      ∀ b, Boundary encoding s b → b ≤ n → b ≤ r := by
  induction k generalizing n with
  | zero => omega
  | succ k ih =>
      obtain ⟨head, hhead, hiff⟩ := h.headAt_iff hpairs hn
      have hnext : ∀ {b}, ¬Boundary encoding s n → Boundary encoding s b → b ≤ n → b < n :=
        fun hinside hb hle => Nat.lt_of_le_of_ne hle fun heq => hinside (heq ▸ hb)
      cases head with
      | true =>
          refine ⟨n, ?_, le_rfl, hiff.mp rfl, fun _ _ hle => hle⟩
          by_cases hsjis : encoding = .sjis
          · subst hsjis
            rw [senSnipFindFirstbyte_sjis, hhead]
            rfl
          · rw [senSnipFindFirstbyte_succ hsjis, hhead]
            rfl
      | false =>
          have hinside : ¬Boundary encoding s n := fun hb => Bool.false_ne_true (hiff.mpr hb)
          have hpos := hnext hinside h.boundary_zero (Nat.zero_le n)
          have hstep : stepOffset false n = some (n - 1) := by
            unfold stepOffset
            rw [if_neg Bool.false_ne_true, if_neg hpos.ne']
          by_cases hsjis : encoding = .sjis
          · subst hsjis
            refine ⟨n - 1, ?_, Nat.sub_le n 1, (h.sjis_inside hn hinside).2.1,
              fun b hb hle => Nat.le_sub_one_of_lt (hnext hinside hb hle)⟩
            rw [senSnipFindFirstbyte_sjis, hhead]
            exact hstep
          · obtain ⟨r, hr, hle, hb, hgreatest⟩ := ih (n := n - 1) (by omega) (by omega)
            refine ⟨r, ?_, by omega, hb,
              fun b hb hle => hgreatest b hb (Nat.le_sub_one_of_lt (hnext hinside hb hle))⟩
            rw [senSnipFindFirstbyte_succ hsjis, hhead, Option.bind_some,
              if_neg Bool.false_ne_true, hstep]
            exact hr

theorem forall_uInt8 {P : UInt8 → Prop} (h : ∀ n < 256, P (UInt8.ofNat n)) (b : UInt8) : P b := by
  have hb := h b.toNat b.toNat_lt
  rwa [UInt8.ofNat_toNat] at hb

/-- The first byte of a character tells how many bytes it has. -/
theorem IsChar.leadWidth_eq {c : List UInt8} (h : IsChar encoding c) :
    ∃ b rest, c = b :: rest ∧ leadWidth encoding b = rest.length + 1 := by
  have hlow : ∀ b : UInt8, b < 0x80 → leadWidth .eucJp b = 1 ∧ leadWidth .utf8 b = 1 :=
    forall_uInt8 (by decide +kernel)
  have heuc : ∀ b : UInt8, b = 0x8e ∨ (0xa1 ≤ b ∧ b ≤ 0xfe) → leadWidth .eucJp b = 2 :=
    forall_uInt8 (by decide +kernel)
  have hsjis : ∀ b : UInt8, leadWidth .sjis b =
      if b < 0x81 ∨ (0x9f < b ∧ b < 0xe0) ∨ 0xfc < b then 1 else 2 :=
    forall_uInt8 (by decide +kernel)
  have hutf8 : ∀ b : UInt8, (0xc2 ≤ b ∧ b ≤ 0xdf → leadWidth .utf8 b = 2) ∧
      (0xe0 ≤ b ∧ b ≤ 0xef → leadWidth .utf8 b = 3) ∧
      (0xf0 ≤ b ∧ b ≤ 0xf7 → leadWidth .utf8 b = 4) :=
    forall_uInt8 (by decide +kernel)
  cases h with
  | @single _ b hb =>
      refine ⟨b, [], rfl, ?_⟩
      cases encoding with
      | eucJp => exact (hlow b hb).1
      | sjis => exact (hsjis b).trans (if_pos hb)
      | utf8 => exact (hlow b hb).2
      | _ => rfl
  | eucPair hb _ => exact ⟨_, _, rfl, heuc _ hb⟩
  | eucTriple _ _ => exact ⟨_, _, rfl, rfl⟩
  | sjisPair hb => exact ⟨_, _, rfl, (hsjis _).trans (if_neg hb)⟩
  | utf8Pair hb _ => exact ⟨_, _, rfl, (hutf8 _).1 hb⟩
  | utf8Triple hb _ _ => exact ⟨_, _, rfl, (hutf8 _).2.1 hb⟩
  | utf8Quad hb _ _ _ => exact ⟨_, _, rfl, (hutf8 _).2.2 hb⟩

theorem fakeChecks_rest (rest s : List UInt8) :
    fakeChecks encoding rest.length (rest ++ s) =
      List.replicate rest.length 0 ++ fakeChecks encoding 0 s := by
  induction rest with
  | nil => rfl
  | cons b rest ih => exact congrArg (List.cons 0) ih

/-- The checks of one character: its length, and a zero for each further byte. -/
theorem fakeChecks_char {c : List UInt8} (h : IsChar encoding c) (s : List UInt8) :
    fakeChecks encoding 0 (c ++ s) =
      ((c.length : Int) :: List.replicate (c.length - 1) 0) ++ fakeChecks encoding 0 s := by
  obtain ⟨b, rest, rfl, hwidth⟩ := h.leadWidth_eq
  show (leadWidth encoding b : Int) :: fakeChecks encoding (leadWidth encoding b - 1)
      (rest ++ s) = _
  rw [hwidth, Nat.add_sub_cancel, fakeChecks_rest]
  rfl

theorem Text.upTo_eq_sum (t : Text) (n : Nat) :
    t.upTo n = ((t.checks.take n).map Int.toNat).sum := by
  induction n with
  | zero => rfl
  | succ n ih =>
      rw [Text.upTo, ih, List.take_add_one, List.map_append, List.sum_append,
        List.getD_eq_getElem?_getD]
      cases t.checks[n]? <;> simp

/-- **Without normalization** the offsets that are reported are boundaries of the text. -/
theorem IsText.fakenstr_boundary (h : IsText encoding s) (unset : SenEncoding) (n : Nat) :
    Boundary encoding s ((senFakenstrOpen unset encoding s).upTo n) := by
  rw [Text.upTo_eq_sum]
  show Boundary encoding s (((fakeChecks encoding 0 s).take n).map Int.toNat).sum
  induction h generalizing n with
  | nil =>
      rw [show fakeChecks encoding 0 [] = [] from rfl, List.take_nil]
      exact IsText.nil.boundary_zero
  | @cons c s hc hs ih =>
      obtain ⟨b, rest, hrest, -⟩ := hc.leadWidth_eq
      have hlen : 0 < c.length := by
        rw [hrest]
        exact Nat.succ_pos _
      have hchecks : ((c.length : Int) :: List.replicate (c.length - 1) 0).length = c.length := by
        rw [List.length_cons, List.length_replicate]
        omega
      rw [fakeChecks_char hc, List.take_append, List.map_append, List.sum_append, hchecks]
      cases n with
      | zero =>
          rw [Nat.zero_sub]
          exact (IsText.cons hc hs).boundary_zero
      | succ n =>
          have hsum : ((((c.length : Int) :: List.replicate (c.length - 1) 0).take (n + 1)).map
              Int.toNat).sum = c.length := by
            simp [List.take_replicate]
          rw [hsum]
          exact (ih (n + 1 - c.length)).cons hc

end

end Senna.Snip
