/-
# The tokenizers

`sen_lex_next` delivers the tokens of a normalized text one after the other and looks each
of them up in the lexicon, or stores it there. Modelled are the N-gram and the delimited
tokenizer. The same field `status` says that the text has ended and that the lexicon had
no id for a token.

The text is a list of bytes with a NUL behind it; the buffer for the token always grows.
`Lex.tokens` is the complete tokenization: what the tokenizer delivers over a lexicon that
has an id for everything.
-/

import Senna.Snip.Tunedbm
import Senna.Str.Bytewise

namespace Senna.Index

open Senna.Snip (SenEncoding)
open Senna.Str (CharType senNstrBlank)

universe u

/-- `sen_str_charlen(str, encoding)` on the bytes from `str` to the NUL. -/
def senStrCharlen (encoding : SenEncoding) : List UInt8 → Nat
  | [] => 0
  | b :: p =>
      if b = 0 then 0
      else
        match encoding with
        | .eucJp => if b &&& 0x80 ≠ 0 then if p.headD 0 ≠ 0 then 2 else 0 else 1
        | .utf8 => Str.senStrCharlenUtf8 (b :: p)
        | .sjis =>
            if b &&& 0x80 ≠ 0 then
              if 0xa0 ≤ b ∧ b ≤ 0xdf then 1 else if p.headD 0 = 0 then 0 else 2
            else 1
        | _ => 1

/-- `sen_isspace(str, encoding)` on the bytes from `str` to the NUL. -/
def senIsspace (encoding : SenEncoding) (p : List UInt8) : Nat :=
  (Snip.senIsspace encoding p).getD 0

/-- The tokenizers that need no dictionary. -/
inductive TokenizerKind
  | ngram
  | delimited
  deriving DecidableEq, Repr

/-- `status` -/
inductive LexStatus
  | doing
  | done
  | notFound
  deriving DecidableEq, Repr

/-- `sen_lex`. `ctypes` belongs to the normalized text, `next` is what is left of it;
`add` and `upd` are the bits of `flags`. -/
structure Lex where
  kind : TokenizerKind
  encoding : SenEncoding
  add : Bool
  upd : Bool
  ctypes : Option (List Nat)
  uniAlpha : Bool
  uniDigit : Bool
  uniSymbol : Bool
  next : List UInt8
  token : List UInt8
  pos : Int
  skip : Int
  tail : Int
  offset : Int
  len : Int
  status : LexStatus
  forcePrefix : Bool
  deriving DecidableEq, Repr

/-- The flags of the lexicon that a tokenizer looks at. -/
structure LexConfig where
  kind : TokenizerKind
  encoding : SenEncoding
  splitAlpha : Bool
  splitDigit : Bool
  splitSymbol : Bool
  deriving DecidableEq, Repr

/-- `while ((cl = sen_isspace(p, lex->encoding))) { p += cl; }` -/
def skipBlanks (encoding : SenEncoding) : Nat → List UInt8 → List UInt8
  | 0, p => p
  | k + 1, p =>
      if senIsspace encoding p = 0 then p
      else skipBlanks encoding k (p.drop (senIsspace encoding p))

/-- `sen_ngram_open` and `sen_delimited_open` on a normalized text. -/
def senLexStart (config : LexConfig) (add upd : Bool) (norm : List UInt8)
    (ctypes : Option (List Nat)) : Lex :=
  let next := match config.kind with
    | .ngram => norm
    | .delimited => skipBlanks config.encoding norm.length norm
  { kind := config.kind
    encoding := config.encoding
    add := add
    upd := upd
    ctypes := ctypes
    uniAlpha := ctypes.isSome && !config.splitAlpha
    uniDigit := ctypes.isSome && !config.splitDigit
    uniSymbol := ctypes.isSome && !config.splitSymbol
    next := next
    token := []
    pos := -1
    skip := 1
    tail := 0
    offset := 0
    len := 0
    status := if config.kind = .delimited ∧ next.headD 0 = 0 then .done else .doing
    forcePrefix := false }

/-- What the scan for one token finds: its bytes and length in characters, the text behind
it, and what `pos` and `skip` become. `ended` when the scan itself sets `sen_lex_done`. -/
structure Scanned where
  bytes : List UInt8
  len : Int
  rest : List UInt8
  pos : Int
  skip : Int
  forcePrefix : Bool
  ended : Bool
  deriving DecidableEq, Repr

namespace Lex

variable (lex : Lex)

/-- `SEN_NSTR_CTYPE(cp[i])` -/
def ctype (i : Nat) : Nat := (lex.ctypes.getD []).getD i 0 &&& 0x7f

/-- `SEN_NSTR_ISBLANK(cp[i])`, when there are character types. -/
def blank (i : Nat) : Bool :=
  lex.ctypes.isSome && decide ((lex.ctypes.getD []).getD i 0 &&& senNstrBlank ≠ 0)

/-- The type of the character `i`, if its runs are not split. -/
def unsplit (i : Nat) : Option Nat :=
  if lex.uniAlpha ∧ lex.ctype i = CharType.alpha.code then some CharType.alpha.code
  else if lex.uniDigit ∧ lex.ctype i = CharType.digit.code then some CharType.digit.code
  else if lex.uniSymbol ∧ lex.ctype i = CharType.symbol.code then some CharType.symbol.code
  else none

/-- The loop over a run of characters of one type, the first of which is `i`: its length
and the text behind it. -/
def run (type : Nat) : Nat → Nat → List UInt8 → Nat × List UInt8
  | 0, _, r => (1, r)
  | k + 1, i, r =>
      let cl := senStrCharlen lex.encoding r
      if cl = 0 then (1, r)
      else if lex.blank i ∨ lex.ctype (i + 1) ≠ type then (1, r.drop cl)
      else
        let (len, r) := run type k (i + 1) (r.drop cl)
        (len + 1, r)

/-- The scan of `sen_ngram_next` from `p` on, at most `k` characters. -/
def ngramScan : Nat → List UInt8 → Int → Option Scanned
  | 0, _, _ => none
  | k + 1, p, pos =>
      if p.headD 0 = 0 then none
      else
        let i := pos.toNat
        match lex.unsplit i with
        | some type =>
            let (len, r) := lex.run type p.length i p
            let blen := p.length - r.length
            if blen = 0 then none
            else some {
              bytes := p.take blen
              len := len
              rest := r
              pos := pos
              skip := len
              forcePrefix := false
              ended := false }
        | none =>
            let cl := senStrCharlen lex.encoding p
            if cl = 0 then none
            else
              let r := p.drop cl
              -- the second character of the token
              let cl₂ := if lex.blank i then cl else senStrCharlen lex.encoding r
              let single := lex.blank i ∨ cl₂ = 0 ∨ (lex.unsplit (i + 1)).isSome
              let q := if single then r else r.drop cl₂
              if lex.blank i ∧ !lex.upd then ngramScan k r (pos + 1)
              else some {
                bytes := p.take (p.length - q.length)
                len := if single then 1 else 2
                rest := r
                pos := pos
                skip := 1
                forcePrefix := decide single
                ended := (decide (cl₂ = 0) || decide (q.headD 0 = 0)) && !lex.upd }

/-- The loop over the characters of a word: their number and the text behind them. -/
def word : Nat → List UInt8 → Nat × List UInt8
  | 0, p => (0, p)
  | k + 1, p =>
      let cl := senStrCharlen lex.encoding p
      if cl = 0 ∨ senIsspace lex.encoding p ≠ 0 then (0, p)
      else
        let (len, p) := word k (p.drop cl)
        (len + 1, p)

/-- The scan of `sen_delimited_next`. -/
def delimitedScan : Option Scanned :=
  let p := lex.next
  let (len, r) := lex.word p.length p
  if len = 0 then none
  else some {
    bytes := p.take (p.length - r.length)
    len := len
    rest := skipBlanks lex.encoding r.length r
    pos := lex.pos + 1
    skip := lex.skip
    forcePrefix := lex.forcePrefix
    ended := false }

/-- The scan for the next token; `none` when there is none. -/
def scan : Option Scanned :=
  match lex.kind with
  | .ngram => lex.ngramScan (lex.next.length + 1) lex.next (lex.pos + lex.skip)
  | .delimited => lex.delimitedScan

/-- The state after the token `t`, for which the lexicon gave the id `tid`. -/
def take (t : Scanned) (tid : Nat) : Lex :=
  { lex with
    token := t.bytes
    pos := t.pos
    skip := t.skip
    tail := match lex.kind with | .ngram => t.pos + t.len - 1 | .delimited => lex.tail
    offset := match lex.kind with | .ngram => lex.offset | .delimited => lex.offset + lex.len
    len := t.len
    next := t.rest
    forcePrefix := t.forcePrefix
    status :=
      if tid = 0 then .notFound
      else if t.rest.headD 0 = 0 ∨ t.ended then .done
      else lex.status }

end Lex

/-- The lexicon: `sen_sym_get` may store the key, `sen_sym_at` only looks it up. Both return
`SEN_SYM_NIL`, which is 0, when they have no id. -/
structure Sym (σ : Type u) where
  get : σ → List UInt8 → Nat × σ
  at_ : σ → List UInt8 → Nat

section

variable {σ : Type u} (S : Sym σ)

/-- The lookup of a token. -/
def Sym.lookup (add : Bool) (s : σ) (token : List UInt8) : Nat × σ :=
  if add then S.get s token else (S.at_ s token, s)

/-- `sen_lex_next`: the id, the tokenizer and the lexicon. -/
def senLexNext (s : σ) (lex : Lex) : Nat × Lex × σ :=
  if lex.status = .done then (0, lex, s)
  else
    match lex.scan with
    | none => (0, { lex with
        status := .done
        forcePrefix := match lex.kind with | .ngram => false | .delimited => lex.forcePrefix }, s)
    | some t =>
        let (tid, s) := S.lookup lex.add s t.bytes
        (tid, lex.take t tid, s)

/-- A token with its position. -/
structure Token where
  bytes : List UInt8
  pos : Int
  deriving DecidableEq, Repr

/-- `while (!lex->status) { if ((tid = sen_lex_next(lex))) { … } }` with at most `k` rounds:
the ids and tokens that the body is run for, the tokenizer at the end and the lexicon. -/
def lexLoop : Nat → σ → Lex → Option (List (Nat × Token) × Lex × σ)
  | 0, _, _ => none
  | k + 1, s, lex =>
      if lex.status ≠ .doing then some ([], lex, s)
      else
        let (tid, lex, s) := senLexNext S s lex
        (lexLoop k s lex).map fun (taken, lex', s) =>
          (if tid ≠ 0 then (tid, ⟨lex.token, lex.pos⟩) :: taken else taken, lex', s)

/-- A number of rounds that is enough. -/
def Lex.rounds (lex : Lex) : Nat := lex.next.length + 2

end

/-- A lexicon with an id for everything. -/
def idealSym : Sym Unit := ⟨fun _ _ => (1, ()), fun _ _ => 1⟩

/-- The run over the ideal lexicon. -/
def Lex.idealRun (lex : Lex) : Option (List (Nat × Token) × Lex × Unit) :=
  lexLoop idealSym lex.rounds () lex

/-- The complete tokenization of a text. -/
def Lex.tokens (lex : Lex) : List Token :=
  match lex.idealRun with
  | some (taken, _, _) => taken.map Prod.snd
  | none => []

theorem length_drop_charlen {encoding : SenEncoding} {p : List UInt8}
    (h : senStrCharlen encoding p ≠ 0) :
    (p.drop (senStrCharlen encoding p)).length < p.length := by
  cases p with
  | nil => exact absurd rfl h
  | cons b p =>
      rw [List.length_drop, List.length_cons]
      omega

theorem length_skipBlanks_le (encoding : SenEncoding) (k : Nat) (p : List UInt8) :
    (skipBlanks encoding k p).length ≤ p.length := by
  induction k generalizing p with
  | zero => exact le_rfl
  | succ k ih =>
      unfold skipBlanks
      split_ifs
      · exact le_rfl
      · exact (ih _).trans (List.length_drop ▸ Nat.sub_le _ _)

namespace Lex

variable {lex : Lex}

theorem length_word_le (lex : Lex) (k : Nat) (p : List UInt8) :
    (lex.word k p).2.length ≤ p.length ∧
      ((lex.word k p).1 ≠ 0 → (lex.word k p).2.length < p.length) := by
  induction k generalizing p with
  | zero => exact ⟨le_rfl, fun h => absurd rfl h⟩
  | succ k ih =>
      unfold word
      by_cases h : senStrCharlen lex.encoding p = 0 ∨ senIsspace lex.encoding p ≠ 0
      · simp only [if_pos h]
        exact ⟨le_rfl, fun h => absurd rfl h⟩
      · have hlt := length_drop_charlen (not_or.mp h).1
        have hle := (ih (p.drop (senStrCharlen lex.encoding p))).1
        simp only [if_neg h]
        exact ⟨by omega, fun _ => by omega⟩

theorem length_ngramScan (lex : Lex) (k : Nat) (p : List UInt8) (pos : Int) {t : Scanned}
    (h : lex.ngramScan k p pos = some t) : t.rest.length < p.length := by
  induction k generalizing p pos with
  | zero => exact absurd h nofun
  | succ k ih =>
      unfold ngramScan at h
      split_ifs at h with hnul
      cases hunsplit : lex.unsplit pos.toNat with
      | some type =>
          simp only [hunsplit] at h
          split_ifs at h with hblen
          obtain rfl := Option.some.inj h
          show (lex.run type p.length pos.toNat p).2.length < p.length
          omega
      | none =>
          simp only [hunsplit] at h
          by_cases hcl : senStrCharlen lex.encoding p = 0
          · rw [if_pos hcl] at h
            exact absurd h nofun
          · rw [if_neg hcl] at h
            have hlt := length_drop_charlen hcl
            by_cases hskip : lex.blank pos.toNat = true ∧ (!lex.upd) = true
            · rw [if_pos hskip] at h
              exact (ih _ _ h).trans hlt
            · rw [if_neg hskip] at h
              obtain rfl := Option.some.inj h
              exact hlt

/-- A token takes at least one byte of the text. -/
theorem length_scan {t : Scanned} (h : lex.scan = some t) :
    t.rest.length < lex.next.length := by
  unfold scan at h
  cases hkind : lex.kind with
  | ngram =>
      simp only [hkind] at h
      exact length_ngramScan lex _ _ _ h
  | delimited =>
      simp only [hkind] at h
      simp only [delimitedScan] at h
      have hword := length_word_le lex lex.next.length lex.next
      split_ifs at h with hlen
      obtain rfl := Option.some.inj h
      exact (length_skipBlanks_le _ _ _).trans_lt (hword.2 hlen)

end Lex

section

variable {σ : Type u} {S : Sym σ}

/-- The loop ends after at most one round for each byte and one more. -/
theorem lexLoop_isSome (k : Nat) (s : σ) (lex : Lex) (h : lex.rounds ≤ k) :
    ∃ r, lexLoop S k s lex = some r := by
  induction k generalizing s lex with
  | zero => exact absurd h (Nat.not_succ_le_zero _)
  | succ k ih =>
      unfold lexLoop
      by_cases hdoing : lex.status = .doing
      · rw [if_neg (not_not.mpr hdoing)]
        have hnext : ∃ r, lexLoop S k (senLexNext S s lex).2.2 (senLexNext S s lex).2.1 =
            some r := by
          unfold senLexNext
          rw [if_neg (by rw [hdoing]; decide)]
          cases hscan : lex.scan with
          | none =>
              cases k with
              | zero => exact absurd h (by unfold Lex.rounds; omega)
              | succ k => exact ⟨_, if_pos nofun⟩
          | some t =>
              apply ih
              have hlt := Lex.length_scan hscan
              show t.rest.length + 2 ≤ k
              unfold Lex.rounds at h
              omega
        obtain ⟨r, hr⟩ := hnext
        simp only [hr]
        exact ⟨_, rfl⟩
      · rw [if_pos hdoing]
        exact ⟨_, rfl⟩

end

section

variable {σ : Type u} (S : Sym σ)

/-- The ids for a list of tokens that are looked up one after the other, and the lexicon
after that. -/
def Sym.ids (add : Bool) : σ → List Token → List Nat × σ
  | s, [] => ([], s)
  | s, t :: ts =>
      let (tid, s) := S.lookup add s t.bytes
      let (tids, s) := ids add s ts
      (tid :: tids, s)

variable {S}

/-- What a run takes from a text: all its tokens exactly if each of them has an id, and then
with these ids. -/
structure Took (S : Sym σ) (s : σ) (lex : Lex) (taken : List (Nat × Token)) (s' : σ) : Prop where
  all : taken.map Prod.snd = lex.tokens ↔ 0 ∉ (S.ids lex.add s lex.tokens).1
  ids : 0 ∉ (S.ids lex.add s lex.tokens).1 →
    taken.map Prod.fst = (S.ids lex.add s lex.tokens).1
  lexicon : 0 ∉ (S.ids lex.add s lex.tokens).1 → s' = (S.ids lex.add s lex.tokens).2

theorem Took.nil {s : σ} {lex : Lex} (htokens : lex.tokens = []) : Took S s lex [] s := by
  refine ⟨?_, ?_, ?_⟩ <;> rw [htokens]
  · exact ⟨fun _ => List.not_mem_nil, fun _ => rfl⟩
  · exact fun _ => rfl
  · exact fun _ => rfl

end

end Senna.Index
