/-
# The byte-wise normalizers

`normalize_euc`, `normalize_sjis`, `normalize_none`, `normalize_latin1` and
`normalize_koi8r` run over the original string and decide for each character alone what
is put out. What they decide is modelled as a `Put`, and one loop writes it to the
normalized text and to the two side arrays. Only a half-width voicing mark looks at the
bytes already written.
-/

import Senna.Str.Normalize

namespace Senna.Str

/-- `sen_str_null` up to `sen_str_others`. -/
inductive CharType where
  | null | alpha | digit | symbol | hiragana | katakana | kanji | others
  deriving DecidableEq, Repr

/-- The value of the enumerator. -/
def CharType.code : CharType → Nat
  | null => 0
  | alpha => 1
  | digit => 2
  | symbol => 3
  | hiragana => 4
  | katakana => 5
  | kanji => 6
  | others => 7

/-- `SEN_NSTR_BLANK` -/
def senNstrBlank : Nat := 0x80

/-- What one character of the original does to the output. -/
inductive Put where
  /-- Nothing is put out; `blank` when the character before it is marked. -/
  | skip (blank : Bool)
  /-- The last byte put out is replaced: `*(d - 1) = b`. -/
  | merge (b : UInt8)
  /-- The bytes and the type of a new character. -/
  | char (bytes : List UInt8) (ctype : Nat)
  deriving DecidableEq, Repr

/-- The state of a byte-wise normalizer. `norm`, `ctypes` and `checks` are what was
written below `d`, `cp` and `ch`; `s_` is an offset into the original string. -/
structure Out where
  norm : List UInt8
  length : Nat
  ctypes : Option (List Nat)
  checks : Option (List Int)
  s_ : Nat
  deriving DecidableEq, Repr

/-- `ch[-1] += k;` -/
def addLast (k : Nat) (checks : List Int) : List Int :=
  match checks.getLast? with
  | none => checks
  | some c => checks.dropLast ++ [toInt16 (c + k)]

/-- The end of a round at offset `s` that used `k` bytes of the original. -/
def Out.put (o : Out) (s k : Nat) : Put → Out
  | .skip blank => if blank then { o with ctypes := markBlank o.ctypes } else o
  | .merge b =>
      { o with
        norm := o.norm.dropLast ++ [b]
        checks := o.checks.map (addLast k)
        s_ := if o.checks.isSome then o.s_ + k else o.s_ }
  | .char bytes ctype =>
      { norm := o.norm ++ bytes
        length := o.length + 1
        ctypes := o.ctypes.map (· ++ [ctype])
        checks := o.checks.map
          (· ++ toInt16 ((s + k : Nat) - o.s_) :: List.replicate (bytes.length - 1) 0)
        s_ := if o.checks.isSome then s + k else o.s_ }

/-- One round of a normalizer: from the bytes below `d`, memory from `s` on and `e - s` to
the number of bytes used beyond the first and the effect. -/
abbrev Round := List UInt8 → List UInt8 → Nat → Nat × Put

/-- A round that looks at the byte under `s` alone. -/
def Round.single (put : UInt8 → Put) : Round := fun _ p _ => (0, put (p.headD 0))

/-- The loop `for (…; s < e; s++)`, with memory from `s` on, the offset of `s`, and
`n = e - s`. -/
def Out.loop (round : Round) (o : Out) (p : List UInt8) (s n : Nat) : Out :=
  if n = 0 then o
  else
    let (extra, put) := round o.norm p n
    Out.loop round (o.put s (extra + 1) put) (p.drop (extra + 1)) (s + (extra + 1))
      (n - (extra + 1))
termination_by n
decreasing_by omega

theorem Out.loop_zero (round : Round) (o : Out) (p : List UInt8) (s : Nat) :
    o.loop round p s 0 = o := by
  rw [Out.loop, if_pos rfl]

theorem Out.loop_single_cons (put : UInt8 → Put) (o : Out) (b : UInt8) (p : List UInt8)
    (s n : Nat) :
    o.loop (.single put) (b :: p) s (n + 1) =
      (o.put s 1 (put b)).loop (.single put) p (s + 1) n := by
  rw [Out.loop, if_neg (Nat.succ_ne_zero n)]
  rfl

/-- The state before the loop. -/
def Out.start (f : StrFlags) : Out where
  norm := []
  length := 0
  ctypes := if f.withCtypes then some [] else none
  checks := if f.withChecks then some [] else none
  s_ := 0

/-- The body of a byte-wise normalizer, which allots `wide` bytes for a byte of the
original; `none` when an allocation fails. -/
def bytewise (alloc : Nat → Bool) (f : StrFlags) (wide : Nat) (round : Round)
    (mem : List UInt8) (size : Nat) : Option SenNstr :=
  if !alloc (size * wide + 1) || (f.withChecks && !alloc (size * wide * 2 + 1)) ||
      (f.withCtypes && !alloc (size + 1)) then none
  else
    let o := (Out.start f).loop round mem 0 size
    some ⟨o.norm, o.norm.length, some o.length, o.ctypes.map (· ++ [CharType.null.code]),
      o.checks⟩

/-- The switch over `c >> 4` that all byte-wise normalizers share. -/
def asciiPut (removeblank : Bool) (c : UInt8) : Put :=
  match c.toNat >>> 4 with
  | 0 => .skip true
  | 1 => .skip true
  | 2 =>
      if c = 0x20 then
        if removeblank then .skip true
        else .char [0x20] (senNstrBlank ||| CharType.symbol.code)
      else .char [c] CharType.symbol.code
  | 3 => .char [c] (if c ≤ 0x39 then .digit else .symbol : CharType).code
  | 4 => .char [if 0x41 ≤ c then c + 0x20 else c]
      (if c = 0x40 then .symbol else .alpha : CharType).code
  | 5 => .char [if c ≤ 0x5a then c + 0x20 else c]
      (if c ≤ 0x5a then .alpha else .symbol : CharType).code
  | 6 => .char [c] (if c = 0x60 then .symbol else .alpha : CharType).code
  | 7 => .char [c]
      (if c ≤ 0x7a then .alpha else if c = 0x7f then .others else .symbol : CharType).code
  | _ => .char [c] CharType.others.code

/-- The loop body of `normalize_none`. -/
def noneRound (removeblank : Bool) : Round := .single (asciiPut removeblank)

/-- The cases of `normalize_latin1` beyond ASCII; cp1252 stands for latin1. -/
def latin1Put (removeblank : Bool) (c : UInt8) : Put :=
  match c.toNat >>> 4 with
  | 0x8 =>
      if c = 0x8a ∨ c = 0x8c ∨ c = 0x8e then .char [c + 0x10] CharType.alpha.code
      else .char [c] CharType.symbol.code
  | 0x9 =>
      if c = 0x9a ∨ c = 0x9c ∨ c = 0x9e ∨ c = 0x9f then
        .char [if c = 0x9f then c + 0x60 else c] CharType.alpha.code
      else .char [c] CharType.symbol.code
  | 0xc => .char [c + 0x20] CharType.alpha.code
  | 0xd => .char [if c = 0xd7 ∨ c = 0xdf then c else c + 0x20]
      (if c = 0xd7 then .symbol else .alpha : CharType).code
  | 0xe => .char [c] CharType.alpha.code
  | 0xf => .char [c] (if c = 0xf7 then .symbol else .alpha : CharType).code
  | _ => asciiPut removeblank c

/-- The loop body of `normalize_latin1`. -/
def latin1Round (removeblank : Bool) : Round := .single (latin1Put removeblank)

/-- The cases of `normalize_koi8r` beyond ASCII. -/
def koi8rPut (removeblank : Bool) (c : UInt8) : Put :=
  match c.toNat >>> 4 with
  | 0xa => .char [c] (if c = 0xa3 then .alpha else .others : CharType).code
  | 0xb =>
      if c = 0xb3 then .char [c - 0x10] CharType.alpha.code
      else .char [c] CharType.others.code
  | 0xc => .char [c] CharType.alpha.code
  | 0xd => .char [c] CharType.alpha.code
  | 0xe => .char [c - 0x20] CharType.alpha.code
  | 0xf => .char [c - 0x20] CharType.alpha.code
  | _ => asciiPut removeblank c

/-- The loop body of `normalize_koi8r`. -/
def koi8rRound (removeblank : Bool) : Round := .single (koi8rPut removeblank)

/-- `symbol` -/
def symbolTable : List UInt8 := [
  0x2c, 0x2e, 0, 0x3a, 0x3b, 0x3f, 0x21, 0, 0, 0, 0x60, 0, 0x5e, 0x7e, 0x5f, 0, 0, 0,
  0, 0, 0, 0, 0, 0, 0, 0x2d, 0x2d, 0x2f, 0x5c, 0, 0, 0x7c, 0, 0, 0, 0x27, 0,
  0x22, 0x28, 0x29, 0, 0, 0x5b, 0x5d, 0x7b, 0x7d, 0, 0, 0, 0, 0, 0, 0, 0, 0, 0,
  0x2b, 0x2d, 0, 0, 0, 0x3d, 0, 0x3c, 0x3e, 0, 0, 0, 0, 0, 0, 0, 0, 0, 0, 0,
  0x24, 0, 0, 0x25, 0x23, 0x26, 0x2a, 0x40, 0, 0, 0, 0, 0, 0, 0, 0]

/-- A two-byte code, `c >> 8` and `c & 0xff`. -/
def twoBytes (c : Nat) : List UInt8 := [UInt8.ofNat (c >>> 8), UInt8.ofNat (c &&& 0xff)]

/-- The last two bytes put out, `d[-2]` and `d[-1]`, when `d > d0 + 1`. -/
def lastTwo (norm : List UInt8) : Option (UInt8 × UInt8) :=
  match norm.reverse with
  | b :: a :: _ => some (a, b)
  | _ => none

/-- The test for a kana that takes a voicing mark: `d[-2] == lead`, `d[-1]` within the
table that starts at `first`, and a non-zero entry `b` there. -/
def voiced (lead first : UInt8) (table : List UInt8) (norm : List UInt8) : Option UInt8 :=
  match lastTwo norm with
  | none => none
  | some (x, y) =>
      if x = lead ∧ first ≤ y ∧ (y.toNat - first.toNat) < table.length then
        let b := table.getD (y.toNat - first.toNat) 0
        if b = 0 then none else some b
      else none

namespace Euc

/-- `hankana` of `normalize_euc` -/
def hankana : List Nat := [
  0xa1a1, 0xa1a3, 0xa1d6, 0xa1d7, 0xa1a2, 0xa1a6, 0xa5f2, 0xa5a1, 0xa5a3,
  0xa5a5, 0xa5a7, 0xa5a9, 0xa5e3, 0xa5e5, 0xa5e7, 0xa5c3, 0xa1bc, 0xa5a2,
  0xa5a4, 0xa5a6, 0xa5a8, 0xa5aa, 0xa5ab, 0xa5ad, 0xa5af, 0xa5b1, 0xa5b3,
  0xa5b5, 0xa5b7, 0xa5b9, 0xa5bb, 0xa5bd, 0xa5bf, 0xa5c1, 0xa5c4, 0xa5c6,
  0xa5c8, 0xa5ca, 0xa5cb, 0xa5cc, 0xa5cd, 0xa5ce, 0xa5cf, 0xa5d2, 0xa5d5,
  0xa5d8, 0xa5db, 0xa5de, 0xa5df, 0xa5e0, 0xa5e1, 0xa5e2, 0xa5e4, 0xa5e6,
  0xa5e8, 0xa5e9, 0xa5ea, 0xa5eb, 0xa5ec, 0xa5ed, 0xa5ef, 0xa5f3, 0xa1ab,
  0xa1eb]

/-- `dakuten` of `normalize_euc` -/
def dakuten : List UInt8 := [
  0xf4, 0, 0, 0, 0, 0xac, 0, 0xae, 0, 0xb0, 0, 0xb2, 0, 0xb4, 0, 0xb6, 0,
  0xb8, 0, 0xba, 0, 0xbc, 0, 0xbe, 0, 0xc0, 0, 0xc2, 0, 0, 0xc5, 0, 0xc7,
  0, 0xc9, 0, 0, 0, 0, 0, 0, 0xd0, 0, 0, 0xd3, 0, 0, 0xd6, 0, 0, 0xd9, 0,
  0, 0xdc]

/-- `handaku` of `normalize_euc` -/
def handaku : List UInt8 := [
  0xd1, 0, 0, 0xd4, 0, 0, 0xd7, 0, 0, 0xda, 0, 0, 0xdd]

/-- A half-width kana. -/
def kana (norm : List UInt8) (c2 : UInt8) : Put :=
  let c := hankana.getD (c2.toNat - 0xa0) 0
  let merged :=
    if c = 0xa1ab then voiced 0xa5 0xa6 dakuten norm
    else if c = 0xa1eb then voiced 0xa5 0xcf handaku norm
    else none
  match merged with
  | some b => .merge b
  | none => .char (twoBytes c) CharType.katakana.code

/-- The row `0xa1` of symbols. -/
def row1 (removeblank : Bool) (c1 c2 : UInt8) : Put :=
  if c2 = 0xbc then .char [c1, c2] CharType.katakana.code
  else if c2 = 0xb9 then .char [c1, c2] CharType.kanji.code
  else if c2 = 0xa1 then
    if removeblank then .skip true
    else .char [0x20] (senNstrBlank ||| CharType.symbol.code)
  else
    let c3 := if c2 ≥ 0xa4 then symbolTable.getD (c2.toNat - 0xa4) 0 else 0
    if c3 ≠ 0 then .char [c3] CharType.symbol.code
    else .char [c1, c2] CharType.others.code

/-- The row `0xa3` of letters and digits. -/
def row3 (c1 c2 : UInt8) : Put :=
  let c3 := c2 - 0x80
  if 0x61 ≤ c3 ∧ c3 ≤ 0x7a then .char [c3] CharType.alpha.code
  else if 0x41 ≤ c3 ∧ c3 ≤ 0x5a then .char [c3 + 0x20] CharType.alpha.code
  else if 0x30 ≤ c3 ∧ c3 ≤ 0x39 then .char [c3] CharType.digit.code
  else .char [c1, c2] CharType.others.code

/-- A character of two bytes. -/
def pair (removeblank : Bool) (norm : List UInt8) (c1 c2 : UInt8) : Put :=
  match c1.toNat >>> 4 with
  | 0x8 =>
      if c1 = 0x8e ∧ 0xa0 ≤ c2 ∧ c2 ≤ 0xdf then kana norm c2
      else .char [c1, c2] CharType.others.code
  | 0x9 => .char [c1, c2] CharType.others.code
  | 0xa =>
      match (c1 &&& 0x0f).toNat with
      | 1 => row1 removeblank c1 c2
      | 2 => .char [c1, c2] CharType.symbol.code
      | 3 => row3 c1 c2
      | 4 => .char [c1, c2] CharType.hiragana.code
      | 5 => .char [c1, c2] CharType.katakana.code
      | 6 => .char [c1, c2] CharType.symbol.code
      | 7 => .char [c1, c2] CharType.symbol.code
      | 8 => .char [c1, c2] CharType.symbol.code
      | _ => .char [c1, c2] CharType.others.code
  | _ => .char [c1, c2] CharType.kanji.code

end Euc

/-- The loop body of `normalize_euc`. -/
def eucRound (removeblank : Bool) : Round := fun norm p n =>
  let c1 := p.headD 0
  if c1 &&& 0x80 ≠ 0 then
    if 1 < n ∧ p.getD 1 0 &&& 0x80 ≠ 0 then (1, Euc.pair removeblank norm c1 (p.getD 1 0))
    else (0, .skip false) -- an invalid character
  else (0, asciiPut removeblank c1)

namespace Sjis

/-- `hankana` of `normalize_sjis` -/
def hankana : List Nat := [
  0x8140, 0x8142, 0x8175, 0x8176, 0x8141, 0x8145, 0x8392, 0x8340, 0x8342,
  0x8344, 0x8346, 0x8348, 0x8383, 0x8385, 0x8387, 0x8362, 0x815b, 0x8341,
  0x8343, 0x8345, 0x8347, 0x8349, 0x834a, 0x834c, 0x834e, 0x8350, 0x8352,
  0x8354, 0x8356, 0x8358, 0x835a, 0x835c, 0x835e, 0x8360, 0x8363, 0x8365,
  0x8367, 0x8369, 0x836a, 0x836b, 0x836c, 0x836d, 0x836e, 0x8371, 0x8374,
  0x8377, 0x837a, 0x837d, 0x837e, 0x8380, 0x8381, 0x8382, 0x8384, 0x8386,
  0x8388, 0x8389, 0x838a, 0x838b, 0x838c, 0x838d, 0x838f, 0x8393, 0x814a,
  0x814b]

/-- `dakuten` of `normalize_sjis` -/
def dakuten : List UInt8 := [
  0x94, 0, 0, 0, 0, 0x4b, 0, 0x4d, 0, 0x4f, 0, 0x51, 0, 0x53, 0, 0x55, 0,
  0x57, 0, 0x59, 0, 0x5b, 0, 0x5d, 0, 0x5f, 0, 0x61, 0, 0, 0x64, 0, 0x66,
  0, 0x68, 0, 0, 0, 0, 0, 0, 0x6f, 0, 0, 0x72, 0, 0, 0x75, 0, 0, 0x78, 0,
  0, 0x7b]

/-- `handaku` of `normalize_sjis` -/
def handaku : List UInt8 := [
  0x70, 0, 0, 0x73, 0, 0, 0x76, 0, 0, 0x79, 0, 0, 0x7c]

/-- A half-width kana, `0xa0` to `0xdf`. -/
def kana (norm : List UInt8) (c1 : UInt8) : Put :=
  let c := hankana.getD (c1.toNat - 0xa0) 0
  let merged :=
    if c = 0x814a then voiced 0x83 0x45 dakuten norm
    else if c = 0x814b then voiced 0x83 0x6e handaku norm
    else none
  match merged with
  | some b => .merge b
  | none => .char (twoBytes c) CharType.katakana.code

/-- The row `0x81` of symbols. -/
def row1 (removeblank : Bool) (c1 c2 : UInt8) : Put :=
  if c2 = 0x5b then .char [c1, c2] CharType.katakana.code
  else if c2 = 0x58 then .char [c1, c2] CharType.kanji.code
  else if c2 = 0x40 then
    if removeblank then .skip true
    else .char [0x20] (senNstrBlank ||| CharType.symbol.code)
  else
    let low := if 0x43 ≤ c2 ∧ c2 ≤ 0x7e then symbolTable.getD (c2.toNat - 0x43) 0 else 0
    let high := if 0x7f ≤ c2 ∧ c2 ≤ 0x97 then symbolTable.getD (c2.toNat - 0x44) 0 else 0
    if low ≠ 0 then .char [low] CharType.symbol.code
    else if high ≠ 0 then .char [high] CharType.symbol.code
    else .char [c1, c2] CharType.others.code

/-- The row `0x82` of letters, digits and hiragana. -/
def row2 (c1 c2 : UInt8) : Put :=
  if 0x4f ≤ c2 ∧ c2 ≤ 0x58 then .char [c2 - 0x1f] CharType.digit.code
  else if 0x60 ≤ c2 ∧ c2 ≤ 0x79 then .char [c2 + 0x01] CharType.alpha.code
  else if 0x81 ≤ c2 ∧ c2 ≤ 0x9a then .char [c2 - 0x20] CharType.alpha.code
  else if 0x9f ≤ c2 ∧ c2 ≤ 0xf1 then .char [c1, c2] CharType.hiragana.code
  else .char [c1, c2] CharType.others.code

/-- A character of two bytes. -/
def pair (removeblank : Bool) (c1 c2 : UInt8) : Put :=
  if 0x81 ≤ c1 ∧ c1 ≤ 0x87 then
    match (c1 &&& 0x0f).toNat with
    | 1 => row1 removeblank c1 c2
    | 2 => row2 c1 c2
    | 3 =>
        if 0x40 ≤ c2 ∧ c2 ≤ 0x96 then .char [c1, c2] CharType.katakana.code
        else .char [c1, c2] CharType.symbol.code
    | 4 => .char [c1, c2] CharType.symbol.code
    | 7 => .char [c1, c2] CharType.symbol.code
    | _ => .char [c1, c2] CharType.others.code
  else .char [c1, c2] CharType.kanji.code

end Sjis

/-- The loop body of `normalize_sjis`. -/
def sjisRound (removeblank : Bool) : Round := fun norm p n =>
  let c1 := p.headD 0
  if c1 &&& 0x80 ≠ 0 then
    if 0xa0 ≤ c1 ∧ c1 ≤ 0xdf then (0, Sjis.kana norm c1)
    else if 1 < n ∧ 0x40 ≤ p.getD 1 0 ∧ p.getD 1 0 ≤ 0xfc then
      (1, Sjis.pair removeblank c1 (p.getD 1 0))
    else (0, .skip false) -- an invalid character
  else (0, asciiPut removeblank c1)

/-- `normalize_none` -/
def normalizeNone (alloc : Nat → Bool) (f : StrFlags) (mem : List UInt8) (blen : Nat) :
    Option SenNstr :=
  bytewise alloc f 1 (noneRound f.removeBlank) mem blen

/-- `normalize_euc` -/
def normalizeEuc (alloc : Nat → Bool) (f : StrFlags) (mem : List UInt8) (blen : Nat) :
    Option SenNstr :=
  bytewise alloc f 2 (eucRound f.removeBlank) mem blen

/-- `normalize_sjis` -/
def normalizeSjis (alloc : Nat → Bool) (f : StrFlags) (mem : List UInt8) (blen : Nat) :
    Option SenNstr :=
  bytewise alloc f 2 (sjisRound f.removeBlank) mem blen

/-- `strlen`, where a NUL stands behind the bytes given. -/
def strlen (mem : List UInt8) : Nat := (mem.takeWhile (· ≠ 0)).length

/-- `normalize_latin1`. The length is not the one the caller gave. -/
def normalizeLatin1 (alloc : Nat → Bool) (f : StrFlags) (mem : List UInt8) : Option SenNstr :=
  bytewise alloc f 1 (latin1Round f.removeBlank) mem (strlen mem)

/-- `normalize_koi8r`. The length is not the one the caller gave. -/
def normalizeKoi8r (alloc : Nat → Bool) (f : StrFlags) (mem : List UInt8) : Option SenNstr :=
  bytewise alloc f 1 (koi8rRound f.removeBlank) mem (strlen mem)

end Senna.Str
