/-
# The pieces of a query text

What the parser makes of a query text, without the cells: `pieces` splits the text into
phrases, words, operators and parentheses. A phrase that holds bytes which are no character
is never left, so nothing comes behind it.

The loops of the parser, which work on the text in memory, agree with this reading.
-/

import Senna.Query.Parser

namespace Senna.Query

open Senna.Snip (SenEncoding)
open Senna.Index (senIsspace)

/-- A piece of a query text. `star` says whether a mode follows the `*`. -/
inductive Piece
  | phrase (content : List UInt8)
  | broken
  | word (w : List UInt8)
  | orWord
  | star (mode : Bool)
  | operator
  | opened
  | closed
  deriving DecidableEq, Repr

namespace Piece

/-- The keyword that the piece is, if any. -/
def keyword : Piece → List (List UInt8)
  | phrase c => if c = [] then [] else [c]
  | word w => if w = [] then [] else [w]
  | _ => []

/-- The cells for the piece itself, without the one that links it to the list. -/
def ownCells : Piece → Nat
  | phrase c => if c = [] then 0 else 1
  | word w => if w = [] then 0 else 1
  | star mode => if mode then 1 else 0
  | orWord => 1
  | operator => 1
  | _ => 0

end Piece

/-- The keywords of the pieces. -/
def keywordsOf (ps : List Piece) : List (List UInt8) := ps.flatMap Piece.keyword

/-- The text from the next character of a phrase on, behind an escape. -/
def unescaped (encoding : SenEncoding) (b : UInt8) (p : List UInt8) : List UInt8 :=
  if senStrCharlenNonnull encoding (b :: p) = 1 ∧ b = 0x5c ∧ p ≠ [] then p else b :: p

theorem unescaped_suffix (encoding : SenEncoding) (b : UInt8) (p : List UInt8) :
    unescaped encoding b p <:+ b :: p := by
  rw [unescaped]
  split_ifs
  · exact List.suffix_cons b p
  · exact List.suffix_refl _

/-- The phrase that begins at `p`: its bytes without the escapes, and the text behind it. -/
def phraseText (encoding : SenEncoding) : List UInt8 → Option (List UInt8 × List UInt8)
  | [] => some ([], [])
  | b :: p =>
      if senStrCharlenNonnull encoding (b :: p) = 1 ∧ b = 0x22 then some ([], p)
      else
        let q := unescaped encoding b p
        let len := senStrCharlenNonnull encoding q
        if _h : len = 0 then none
        else (phraseText encoding (q.drop len)).map fun r => (q.take len ++ r.1, r.2)
termination_by p => p.length
decreasing_by
  have hq := (unescaped_suffix encoding b p).length_le
  calc (q.drop len).length
      = q.length - len := List.length_drop
    _ < q.length := Nat.sub_lt_of_pos_le (Nat.pos_of_ne_zero _h)
        (senStrCharlenNonnull_le encoding q)
    _ ≤ (b :: p).length := hq

/-- The piece that begins with the byte `b`, before the text `p`. -/
def pieceAt (encoding : SenEncoding) (b : UInt8) (p : List UInt8) : Piece × List UInt8 :=
  if b = 0x29 then (.closed, p)
  else if b = 0x22 then
    match phraseText encoding p with
    | none => (.broken, [])
    | some (c, rest) => (.phrase c, rest)
  else if b = 0x28 then (.opened, p)
  else if b = 0x2a then
    match getOp p with
    | none => (.star false, p)
    | some (_, _, rest) => (.star true, rest)
  else if b ∈ [0x2b, 0x2d, 0x3e, 0x3c, 0x7e] then (.operator, p)
  else
    let r := wordScan encoding (b :: p)
    (if r.1 = [0x4f, 0x52] then .orWord else .word r.1, r.2)

theorem skipSpace_suffix (encoding : SenEncoding) (p : List UInt8) :
    skipSpace encoding p <:+ p := by
  induction p using skipSpace.induct encoding with
  | case1 p h =>
      rw [skipSpace, if_pos h]
  | case2 p h len hlen =>
      rw [skipSpace, if_neg h]
      dsimp only
      rw [dif_pos hlen]
      exact List.nil_suffix
  | case3 p h len hlen ih =>
      rw [skipSpace, if_neg h]
      dsimp only
      rw [dif_neg hlen]
      exact ih.trans (List.drop_suffix _ _)

/-- No space is left. -/
theorem skipSpace_stop (encoding : SenEncoding) (p : List UInt8) :
    skipSpace encoding p = [] ∨ senIsspace encoding (skipSpace encoding p) = 0 := by
  induction p using skipSpace.induct encoding with
  | case1 p h =>
      rw [skipSpace, if_pos h]
      exact h
  | case2 p h len hlen =>
      rw [skipSpace, if_neg h]
      dsimp only
      rw [dif_pos hlen]
      exact Or.inl rfl
  | case3 p h len hlen ih =>
      rw [skipSpace, if_neg h]
      dsimp only
      rw [dif_neg hlen]
      exact ih

theorem skipSpace_skipSpace (encoding : SenEncoding) (p : List UInt8) :
    skipSpace encoding (skipSpace encoding p) = skipSpace encoding p := by
  rw [skipSpace, if_pos (skipSpace_stop encoding p)]

theorem wordScan_suffix (encoding : SenEncoding) (p : List UInt8) :
    (wordScan encoding p).2 <:+ p := by
  induction p using wordScan.induct encoding with
  | case1 p len hlen =>
      rw [wordScan]
      dsimp only
      rw [dif_pos hlen]
      exact List.nil_suffix
  | case2 p len hlen hstop =>
      rw [wordScan]
      dsimp only
      rw [dif_neg hlen, if_pos hstop]
  | case3 p len hlen hstop hstar =>
      rw [wordScan]
      dsimp only
      rw [dif_neg hlen, if_neg hstop, if_pos hstar]
      exact List.tail_suffix p
  | case4 p len hlen hstop hstar ih =>
      rw [wordScan]
      dsimp only
      rw [dif_neg hlen, if_neg hstop, if_neg hstar]
      exact ih.trans (List.drop_suffix _ _)

/-- The word and the text behind it are parts of the text. -/
theorem wordScan_prefix (encoding : SenEncoding) (p : List UInt8) :
    (wordScan encoding p).1 <+: p ∧
      (wordScan encoding p).1.length + (wordScan encoding p).2.length ≤ p.length := by
  induction p using wordScan.induct encoding with
  | case1 p len hlen =>
      rw [wordScan]
      dsimp only
      rw [dif_pos hlen]
      exact ⟨List.nil_prefix, Nat.zero_le _⟩
  | case2 p len hlen hstop =>
      rw [wordScan]
      dsimp only
      rw [dif_neg hlen, if_pos hstop]
      exact ⟨List.nil_prefix, by simp⟩
  | case3 p len hlen hstop hstar =>
      rw [wordScan]
      dsimp only
      rw [dif_neg hlen, if_neg hstop, if_pos hstar]
      exact ⟨List.nil_prefix, by simp⟩
  | case4 p len hlen hstop hstar ih =>
      have hle := senStrCharlenNonnull_le encoding p
      rw [wordScan]
      dsimp only
      rw [dif_neg hlen, if_neg hstop, if_neg hstar]
      refine ⟨?_, ?_⟩
      · obtain ⟨t, ht⟩ := ih.1
        refine ⟨t, ?_⟩
        rw [List.append_assoc, ht, List.take_append_drop]
      · have hlength : len + (p.drop len).length ≤ p.length := by
          rw [List.length_drop]
          omega
        calc (p.take len ++ (wordScan encoding (p.drop len)).1).length +
              (wordScan encoding (p.drop len)).2.length
            ≤ len + ((wordScan encoding (p.drop len)).1.length +
              (wordScan encoding (p.drop len)).2.length) := by
              rw [List.length_append, List.length_take]
              omega
          _ ≤ len + (p.drop len).length := Nat.add_le_add_left ih.2 _
          _ ≤ p.length := hlength

theorem getOp_suffix {p rest : List UInt8} {mode : SelMode} {option : Int}
    (h : getOp p = some (mode, option, rest)) : rest <:+ p := by
  have hatoi : (senAtoi p.tail).2 <:+ p := (senAtoi_suffix _).trans (List.tail_suffix p)
  rw [getOp] at h
  dsimp only at h
  split at h <;> cases h <;> exact hatoi

theorem phraseText_suffix {encoding : SenEncoding} {p c rest : List UInt8}
    (h : phraseText encoding p = some (c, rest)) : rest <:+ p := by
  induction p using phraseText.induct encoding generalizing c with
  | case1 =>
      rw [phraseText] at h
      obtain ⟨-, rfl⟩ := Prod.mk.inj (Option.some.inj h)
      exact List.suffix_refl _
  | case2 b p hquote =>
      rw [phraseText, if_pos hquote] at h
      obtain ⟨-, rfl⟩ := Prod.mk.inj (Option.some.inj h)
      exact List.suffix_cons b _
  | case3 b p hquote q len =>
      rename_i hlen
      rw [phraseText, if_neg hquote] at h
      dsimp only at h
      rw [dif_pos hlen] at h
      cases h
  | case4 b p hquote q len hlen =>
      rename_i ih
      rw [phraseText, if_neg hquote] at h
      dsimp only at h
      rw [dif_neg hlen] at h
      obtain ⟨r, hr, heq⟩ := Option.map_eq_some_iff.mp h
      obtain ⟨-, rfl⟩ := Prod.mk.inj heq
      exact ((ih hr).trans (List.drop_suffix _ _)).trans (unescaped_suffix encoding b p)

/-- A piece that does not begin with a space takes at least one byte. -/
theorem pieceAt_lt {encoding : SenEncoding} {b : UInt8} {p : List UInt8}
    (hspace : senIsspace encoding (b :: p) = 0) :
    (pieceAt encoding b p).2.length < (b :: p).length := by
  have hword (hclose : b ≠ 0x29) (hstar : b ≠ 0x2a) :
      (wordScan encoding (b :: p)).2.length < (b :: p).length := by
    rw [wordScan]
    dsimp only
    split_ifs with hlen hstop hhead
    · exact Nat.succ_pos _
    · exact absurd hstop (by simp [hspace, hclose])
    · exact absurd hhead hstar
    · have hle := (wordScan_suffix encoding
        ((b :: p).drop (senStrCharlenNonnull encoding (b :: p)))).length_le
      refine lt_of_le_of_lt hle ?_
      rw [List.length_drop]
      exact Nat.sub_lt_of_pos_le (Nat.pos_of_ne_zero hlen) (senStrCharlenNonnull_le encoding _)
  rw [pieceAt]
  split_ifs with hclose hquote hopen hstar
  · exact Nat.lt_succ_self _
  · split
    · exact Nat.succ_pos _
    · next hphrase => exact Nat.lt_succ_of_le (phraseText_suffix hphrase).length_le
  · exact Nat.lt_succ_self _
  · split
    · exact Nat.lt_succ_self _
    · next hop => exact Nat.lt_succ_of_le (getOp_suffix hop).length_le
  · exact Nat.lt_succ_self _
  · exact hword hclose hstar

/-- The pieces of a text, up to its end or to a NUL. -/
def pieces (encoding : SenEncoding) (p : List UInt8) : List Piece :=
  match _h : skipSpace encoding p with
  | [] => []
  | b :: q =>
      if b = 0 then []
      else (pieceAt encoding b q).1 :: pieces encoding (pieceAt encoding b q).2
termination_by p.length
decreasing_by
  have hspace : senIsspace encoding (b :: q) = 0 := by
    have hstop := skipSpace_stop encoding p
    rw [_h] at hstop
    exact hstop.resolve_left (List.cons_ne_nil b q)
  have hle := (skipSpace_suffix encoding p).length_le
  rw [_h] at hle
  exact lt_of_lt_of_le (pieceAt_lt hspace) hle

theorem pieces_of_nil {encoding : SenEncoding} {p : List UInt8} (h : skipSpace encoding p = []) :
    pieces encoding p = [] := by
  rw [pieces]
  split
  · rfl
  · next heq => rw [h] at heq; cases heq

theorem pieces_of_cons {encoding : SenEncoding} {p q : List UInt8} {b : UInt8}
    (h : skipSpace encoding p = b :: q) :
    pieces encoding p = if b = 0 then []
      else (pieceAt encoding b q).1 :: pieces encoding (pieceAt encoding b q).2 := by
  rw [pieces]
  split
  · next heq => rw [h] at heq; cases heq
  · next b' q' heq =>
      obtain ⟨rfl, rfl⟩ := List.cons.inj (h.symm.trans heq)
      rfl

/-- Spaces do not matter. -/
theorem pieces_skipSpace (encoding : SenEncoding) (p : List UInt8) :
    pieces encoding (skipSpace encoding p) = pieces encoding p := by
  cases h : skipSpace encoding p with
  | nil =>
      have hskip : skipSpace encoding [] = [] := by
        conv_lhs => rw [← h, skipSpace_skipSpace, h]
      rw [pieces_of_nil h, pieces_of_nil hskip]
  | cons b q =>
      have hskip : skipSpace encoding (b :: q) = b :: q := by
        rw [← h, skipSpace_skipSpace]
      rw [pieces_of_cons h, pieces_of_cons hskip]

/-- The bytes are copied one by one towards the front. -/
theorem copyBytes_eq (len : Nat) {text : List UInt8} {s d : Nat} (hd : d ≤ s)
    (hs : s + len ≤ text.length) :
    copyBytes len text s d =
      text.take d ++ (text.drop s).take len ++ text.drop (d + len) := by
  induction len generalizing text s d with
  | zero => simp [copyBytes]
  | succ len ih =>
      have hslt : s < text.length := by omega
      have hbyte : text.getD s 0 = text[s] := by
        rw [List.getD_eq_getElem?_getD, List.getElem?_eq_getElem hslt, Option.getD_some]
      rw [copyBytes, ih (by omega) (by rw [List.length_set]; omega), hbyte]
      have htake : (text.set d text[s]).take (d + 1) = text.take d ++ [text[s]] := by
        rw [List.take_add_one, List.getElem?_set_self (by omega), List.take_set_of_le (le_refl d)]
        rfl
      have hmid : (text.set d text[s]).drop (s + 1) = text.drop (s + 1) :=
        List.drop_set_of_lt (by omega)
      have hend : (text.set d text[s]).drop (d + 1 + len) = text.drop (d + (len + 1)) := by
        rw [List.drop_set_of_lt (by omega)]
        congr 1
        omega
      rw [htake, hmid, hend, List.drop_eq_getElem_cons hslt, List.take_succ_cons]
      simp

/-- What is copied, and what stays. -/
theorem copyBytes_spec (len : Nat) (text : List UInt8) {s d : Nat} (hd : d ≤ s)
    (hs : s + len ≤ text.length) :
    (copyBytes len text s d).length = text.length ∧
      (copyBytes len text s d).take d = text.take d ∧
      ((copyBytes len text s d).drop d).take len = (text.drop s).take len ∧
      (copyBytes len text s d).drop (s + len) = text.drop (s + len) := by
  have htake : (text.take d).length = d := List.length_take_of_le (by omega)
  have hcopy : ((text.drop s).take len).length = len := by
    rw [List.length_take, List.length_drop]
    omega
  rw [copyBytes_eq len hd hs]
  refine ⟨?_, ?_, ?_, ?_⟩
  · rw [List.length_append, List.length_append, htake, hcopy, List.length_drop]
    omega
  · rw [List.append_assoc, List.take_append_of_le_length (by omega), List.take_of_length_le
        (by omega)]
  · rw [List.append_assoc, List.drop_append_of_le_length (by omega), List.drop_of_length_le
        (by omega),
      List.nil_append, List.take_append_of_le_length (by omega), List.take_of_length_le (by omega)]
  · have hfront : (text.take d ++ (text.drop s).take len).length = d + len := by
      rw [List.length_append, htake, hcopy]
    rw [List.drop_append, hfront, List.drop_of_length_le (by omega), List.nil_append,
        List.drop_drop]
    congr 1
    omega

theorem phraseText_of_broken {encoding : SenEncoding} {q : List UInt8} (hne : q ≠ [])
    (hlen : senStrCharlenNonnull encoding q = 0) : phraseText encoding q = none := by
  cases q with
  | nil => exact absurd rfl hne
  | cons b p =>
      have hq : unescaped encoding b p = b :: p := if_neg fun h => by omega
      rw [phraseText, if_neg fun h => by omega, hq]
      exact dif_pos hlen

namespace Parser

variable {A : Parser}

/-- One round of the loop, before a character. -/
theorem phraseLoop_succ {text p : List UInt8} {s d : Nat} {b : UInt8}
    (h : text.drop s = b :: p) (k : Nat) :
    A.phraseLoop (k + 1) text s d =
      if senStrCharlenNonnull A.encoding (b :: p) = 1 ∧ b = 0x22 then some (text, s + 1, d)
      else
        let t := text.length - (unescaped A.encoding b p).length
        let len := senStrCharlenNonnull A.encoding (unescaped A.encoding b p)
        A.phraseLoop k (copyBytes len text t d) (t + len) (d + len) := by
  have hlength : text.length - s = p.length + 1 := by
    rw [← List.length_drop, h, List.length_cons]
  have hbyte : text.getD s 0 = b := by
    rw [List.getD_eq_getElem?_getD, ← List.head?_drop, h]
    rfl
  have hdrop : text.drop (s + 1) = p := by
    rw [← List.drop_drop, h, List.drop_one, List.tail_cons]
  have hmore : s + 1 < text.length ↔ p ≠ [] := by
    rw [← List.length_pos_iff]
    omega
  rw [phraseLoop, if_neg (by omega), hbyte, h, hdrop]
  dsimp only
  split_ifs with hquote hescape
  · rfl
  · have hq : unescaped A.encoding b p = p :=
      if_pos ⟨hescape.1, hescape.2.1, hmore.mp hescape.2.2⟩
    rw [hq]
    congr 2
    · omega
    · omega
  · have hq : unescaped A.encoding b p = b :: p :=
      if_neg fun h => hescape ⟨h.1, h.2.1, hmore.mpr h.2.2⟩
    have hs : text.length - (b :: p).length = s := by
      rw [List.length_cons]
      omega
    rw [hq, hs]

/-- Where the next character is. -/
theorem drop_unescaped {text p : List UInt8} {s : Nat} {b : UInt8} (h : text.drop s = b :: p) :
    s ≤ text.length - (unescaped A.encoding b p).length ∧
      text.drop (text.length - (unescaped A.encoding b p).length) = unescaped A.encoding b p ∧
      text.length - (unescaped A.encoding b p).length + (unescaped A.encoding b p).length =
        text.length := by
  have hsuffix := unescaped_suffix A.encoding b p
  have hle := hsuffix.length_le
  have htext : unescaped A.encoding b p <:+ text := hsuffix.trans (h ▸ List.drop_suffix s text)
  have hlength : text.length - s = p.length + 1 := by
    rw [← List.length_drop, h, List.length_cons]
  rw [← h, List.length_drop] at hle
  exact ⟨by omega, (List.suffix_iff_eq_drop.mp htext).symm, Nat.sub_add_cancel htext.length_le⟩

/-- A phrase that is never left. -/
theorem phraseLoop_of_none {text : List UInt8} {s d : Nat} (hd : d ≤ s)
    (h : phraseText A.encoding (text.drop s) = none) (k : Nat) :
    A.phraseLoop k text s d = none := by
  induction k generalizing text s d with
  | zero => rfl
  | succ k ih =>
      cases hp : text.drop s with
      | nil =>
          rw [hp, phraseText] at h
          cases h
      | cons b p =>
          obtain ⟨hs, hdrop, hlen⟩ := drop_unescaped (A := A) hp
          have hle := senStrCharlenNonnull_le A.encoding (unescaped A.encoding b p)
          obtain ⟨hlength, -, -, hrest⟩ := copyBytes_spec
            (senStrCharlenNonnull A.encoding (unescaped A.encoding b p)) text
            (s := text.length - (unescaped A.encoding b p).length) (hd.trans hs) (by omega)
          rw [hp, phraseText] at h
          rw [phraseLoop_succ hp]
          split_ifs at h ⊢ with hquote
          dsimp only at h ⊢
          apply ih (by omega)
          rw [hrest, ← List.drop_drop, hdrop]
          split_ifs at h with hzero
          · rw [hzero, List.drop_zero]
            refine phraseText_of_broken ?_ hzero
            rw [unescaped]
            split_ifs with hescape
            · exact hescape.2.2
            · exact List.cons_ne_nil b p
          · exact Option.map_eq_none_iff.mp h

/-- **A phrase that ends**: what the loop leaves, if the fuel is enough. -/
theorem phraseLoop_of_some {text : List UInt8} {s d : Nat} (hd : d ≤ s) (hs : s ≤ text.length)
    {c rest : List UInt8} (h : phraseText A.encoding (text.drop s) = some (c, rest)) :
    ∃ text', text'.length = text.length ∧ text'.take d = text.take d ∧
      (text'.drop d).take c.length = c ∧ d + c.length + rest.length ≤ text.length ∧
      text'.drop (text.length - rest.length) = rest ∧
      (∀ k, A.phraseLoop k text s d = none ∨
        A.phraseLoop k text s d = some (text', text.length - rest.length, d + c.length)) ∧
      ∀ k, (text.drop s).length < k →
        A.phraseLoop k text s d = some (text', text.length - rest.length, d + c.length) := by
  generalize hn : (text.drop s).length = n
  induction n using Nat.strong_induction_on generalizing text s d c with
  | _ n ih =>
      cases hp : text.drop s with
      | nil =>
          have hend : s = text.length := le_antisymm hs (List.drop_eq_nil_iff.mp hp)
          rw [hp, phraseText] at h
          obtain ⟨rfl, rfl⟩ := Prod.mk.inj (Option.some.inj h)
          have hloop (k : Nat) : A.phraseLoop (k + 1) text s d = some (text, text.length, d) := by
            rw [phraseLoop, if_pos (by omega), hend]
          refine ⟨text, rfl, rfl, rfl, by simpa using hd.trans hs, by simp, fun k => ?_,
            fun k hk => ?_⟩
          · cases k with
            | zero => exact Or.inl rfl
            | succ k => exact Or.inr (hloop k)
          · obtain ⟨k, rfl⟩ := Nat.exists_eq_add_of_le' (Nat.succ_le_of_lt (Nat.zero_lt_of_lt hk))
            exact hloop k
      | cons b p =>
          have hlength : text.length - s = p.length + 1 := by
            rw [← List.length_drop, hp, List.length_cons]
          have hsucc := phraseLoop_succ (A := A) (d := d) hp
          dsimp only at hsucc
          rw [hp, phraseText] at h
          split_ifs at h with hquote
          · obtain ⟨rfl, rfl⟩ := Prod.mk.inj (Option.some.inj h)
            have hloop (k : Nat) : A.phraseLoop (k + 1) text s d =
                some (text, text.length - p.length, d) := by
              rw [hsucc k, if_pos hquote, show s + 1 = text.length - p.length by omega]
            refine ⟨text, rfl, rfl, rfl, by simp; omega, ?_, fun k => ?_, fun k hk => ?_⟩
            · rw [show text.length - p.length = s + 1 by omega, ← List.drop_drop, hp,
                List.drop_one, List.tail_cons]
            · cases k with
              | zero => exact Or.inl rfl
              | succ k => exact Or.inr (hloop k)
            · obtain ⟨k, rfl⟩ := Nat.exists_eq_add_of_le' (Nat.succ_le_of_lt (Nat.zero_lt_of_lt hk))
              exact hloop k
          · dsimp only at h
            split_ifs at h with hzero
            obtain ⟨hst, hdrop, hlen⟩ := drop_unescaped (A := A) hp
            have hle := senStrCharlenNonnull_le A.encoding (unescaped A.encoding b p)
            have hq := (unescaped_suffix A.encoding b p).length_le
            generalize unescaped A.encoding b p = q at *
            generalize senStrCharlenNonnull A.encoding q = len at *
            obtain ⟨hlength₁, htake₁, hcopy₁, hrest₁⟩ := copyBytes_spec len text
              (s := text.length - q.length) (hd.trans hst) (by omega)
            generalize copyBytes len text (text.length - q.length) d = text₁ at *
            obtain ⟨r, hr, heq⟩ := Option.map_eq_some_iff.mp h
            obtain ⟨rfl, rfl⟩ := Prod.mk.inj heq
            have hdrop₁ : text₁.drop (text.length - q.length + len) = q.drop len := by
              rw [hrest₁, ← List.drop_drop, hdrop]
            have hlast : (q.drop len).length < n := by
              rw [List.length_drop, ← hn, List.length_drop]
              omega
            obtain ⟨text', hlength', htake', hcopy', hfit, hrest', hall, hset⟩ :=
              ih _ hlast (show d + len ≤ text.length - q.length + len by omega)
                (show text.length - q.length + len ≤ text₁.length by omega)
                (by rw [hdrop₁, hr]) (by rw [hdrop₁])
            have hqlen : (q.take len).length = len := List.length_take_of_le hle
            have hclen : (q.take len ++ r.1).length = len + r.1.length := by
              rw [List.length_append, hqlen]
            rw [hlength₁] at hlength' hfit hrest' hall hset
            refine ⟨text', hlength', ?_, ?_, by rw [hclen]; omega, hrest', fun k => ?_,
              fun k hk => ?_⟩
            · calc text'.take d
                  = (text'.take (d + len)).take d := by rw [List.take_take, min_eq_left (by omega)]
                _ = (text₁.take (d + len)).take d := by rw [htake']
                _ = text₁.take d := by rw [List.take_take, min_eq_left (by omega)]
                _ = text.take d := htake₁
            · have hfront : (text'.drop d).take len = q.take len := by
                rw [← hdrop, ← hcopy₁, List.take_drop, List.take_drop, htake']
              rw [hclen, List.take_add, hfront, List.drop_drop, hcopy']
            · cases k with
              | zero => exact Or.inl rfl
              | succ k =>
                  rw [hsucc k, if_neg hquote, hclen, ← Nat.add_assoc]
                  exact hall k
            · obtain ⟨k, rfl⟩ := Nat.exists_eq_add_of_le' (Nat.succ_le_of_lt (Nat.zero_lt_of_lt hk))
              rw [hsucc k, if_neg hquote, hclen, ← Nat.add_assoc]
              apply hset
              omega

end Parser

end Senna.Query
