/-
# Reading JSON

`json_read` reads one value. It takes commas and colons for blanks, and the loop over the elements
of a container ends where a call gives `NULL`, which a closing bracket of either kind and the end of
the text do, and also where it gives false. So an element that is false ends its container, and what
is left of that is read as part of the container around it.

`Scan` is the sequence of tokens that is met on the way. Whatever a call returns, the tokens that it
has gone by hold no more closing brackets than opening ones, and fewer if a container was ended by
false. So a text whose brackets match is not read to its end then.
-/

import Mathlib.Data.Bool.AllAny
import Senna.Lib.Fuel
import Senna.Query.Pieces
import Senna.Scm.Disp

namespace Senna.Scm

open Senna.Index (senIsspace)
open Senna.Lib (Settles)
open Senna.Query (senStrCharlenNonnull senStrCharlenNonnull_le skipSpace skipSpace_suffix)
open Senna.Str

/-- `SEN_SYM_MAX_KEY_SIZE` -/
def senSymMaxKeySize : Nat := 8192

/-- `mk_atom(ctx, str, len)` -/
def mkAtom (str : List UInt8) : Val :=
  let (ivalue, cur) := senAtoll str
  if cur = [] then .int (I64.wrap ivalue)
  else if str = [0x74, 0x72, 0x75, 0x65] then .t
  else if str = [0x66, 0x61, 0x6c, 0x73, 0x65] then .f
  else if 0 < str.length ∧ str.length < senSymMaxKeySize - 1 then
    .symbol (str.takeWhile (· ≠ 0))
  else .f

/-- The bytes that end an atom, apart from blanks. -/
def atomEnds : List UInt8 := [0x3a, 0x2c, 0x5b, 0x7b, 0x5d, 0x7d]

section

variable (encoding : Snip.SenEncoding)

/-- The loop of `json_readstr` from `end` on: the bytes of the atom and the text at the new
`cur`. -/
def atomScan (p : List UInt8) : List UInt8 × List UInt8 :=
  let len := senStrCharlenNonnull encoding p
  if _h : len = 0 then ([], [])
  else if senIsspace encoding p ≠ 0 ∨ p.headD 0 ∈ atomEnds then ([], p)
  else
    let r := atomScan (p.drop len)
    (p.take len ++ r.1, r.2)
termination_by p.length
decreasing_by exact length_drop_lt _h (senStrCharlenNonnull_le encoding p)

/-- `json_readstr` -/
def jsonReadstr (cur : List UInt8) : Val × List UInt8 :=
  let r := atomScan encoding cur
  if r.1 ≠ [] ∨ r.2 ≠ [] then (mkAtom r.1, r.2) else (.f, [])

/-- The loop of `json_readstrexp`; `dest` is what it has put in place from `start` on. -/
def strexpLoop (dest src : List UInt8) : Val × List UInt8 :=
  let len := senStrCharlenNonnull encoding src
  if _h : len = 0 then (if dest ≠ [] then .bulk dest else .f, [])
  else if src.headD 0 = 0x22 ∧ len = 1 then (.bulk dest, src.drop 1)
  else if _hesc : src.headD 0 = 0x5c ∧ src.drop 1 ≠ [] ∧ len = 1 then
    strexpLoop (dest ++ (src.drop 1).take 1) (src.drop 2)
  else strexpLoop (dest ++ src.take len) (src.drop len)
termination_by src.length
decreasing_by
  · have := List.length_pos_of_ne_nil _hesc.2.1
    rw [List.length_drop] at this ⊢
    omega
  · exact length_drop_lt _h (senStrCharlenNonnull_le encoding src)

/-- `json_readstrexp` -/
def jsonReadstrexp (cur : List UInt8) : Val × List UInt8 := strexpLoop encoding [] cur

/-- What `json_read` comes to when it has passed blanks, commas and colons. -/
inductive Tok
  | list
  | object
  | close
  | item (o : Val)
  deriving DecidableEq

/-- The loop of `json_read`: `SKIPSPACE` and the `switch`, up to where a case leaves the loop;
`none` at the end of the text. -/
def jsonToken (cur : List UInt8) : Option (Tok × List UInt8) :=
  match _h : skipSpace encoding cur with
  | [] => none
  | b :: p =>
      if b = 0x5b then some (.list, p)
      else if b = 0x7b then some (.object, p)
      else if b = 0x7d ∨ b = 0x5d then some (.close, p)
      else if b = 0x2c ∨ b = 0x3a then jsonToken p
      else if b = 0x22 then
        let r := jsonReadstrexp encoding p
        some (.item r.1, r.2)
      else
        let r := jsonReadstr encoding (b :: p)
        some (.item r.1, r.2)
termination_by cur.length
decreasing_by
  have hle := (skipSpace_suffix encoding cur).length_le
  rw [_h, List.length_cons] at hle
  omega

mutual

/-- `json_read`: the object, or `none` for `NULL`, and the text at the new `cur`. -/
def jsonRead : Nat → List UInt8 → Option (Option Val × List UInt8)
  | 0, _ => none
  | fuel + 1, cur =>
      match jsonToken encoding cur with
      | none => some (none, [])
      | some (.list, p) => (jsonReadLoop fuel p).map fun r => (some r.1, r.2)
      | some (.object, p) =>
          (jsonReadLoop fuel p).map fun r => (some (.pair (.symbol symAt) r.1), r.2)
      | some (.close, p) => some (none, p)
      | some (.item o, p) => some (some o, p)

/-- `while ((o = json_read(ctx, jc)) && o != F)`: the list that is built. -/
def jsonReadLoop : Nat → List UInt8 → Option (Val × List UInt8)
  | 0, _ => none
  | fuel + 1, cur =>
      (jsonRead fuel cur).bind fun r =>
        match r.1 with
        | none => some (.nil, r.2)
        | some o =>
            if o = .f then some (.nil, r.2)
            else (jsonReadLoop fuel r.2).map fun s => (.pair o s.1, s.2)

end

end

section

variable {encoding : Snip.SenEncoding}

theorem charlen_ascii {b : UInt8} (h : 0 < b ∧ b < 0x80) (p : List UInt8) :
    senStrCharlenNonnull encoding (b :: p) = 1 := by
  have hand : ∀ n < 128, UInt8.ofNat n &&& 0x80 = 0 := by decide
  have hb := hand b.toNat (UInt8.lt_iff_toNat_lt.mp h.2)
  rw [UInt8.ofNat_toNat] at hb
  have hne : b ≠ 0 := (UInt8.lt_iff_le_and_ne.mp h.1).2.symm
  cases encoding <;> simp [senStrCharlenNonnull, senStrCharlenUtf8, hb, hne]

theorem senIsspace_ascii {b : UInt8} (h : 0x20 < b ∧ b < 0x80) (p : List UInt8) :
    senIsspace encoding (b :: p) = 0 := by
  have hspace : ∀ c ∈ ([0x20, 0x0c, 0x0a, 0x0d, 0x09, 0x0b] : List UInt8), c ≤ 0x20 :=
    List.all_iff_forall_prop.mp (by decide)
  have hne : ∀ c : UInt8, 0x80 ≤ c → b ≠ c := fun c hc hbc =>
    absurd (hbc ▸ h.2) (UInt8.not_lt.mpr hc)
  rw [senIsspace, Snip.senIsspace, if_neg fun hb => absurd h.1 (UInt8.not_lt.mpr (hspace b hb)),
    if_neg fun h => hne 0x81 (by decide) h.1, if_neg fun h => hne 0xa1 (by decide) h.1,
    if_neg fun h => hne 0xe3 (by decide) h.1, Option.getD_some]

theorem skipSpace_ascii {b : UInt8} (h : 0x20 < b ∧ b < 0x80) (p : List UInt8) :
    skipSpace encoding (b :: p) = b :: p := by
  rw [skipSpace, if_pos (.inr (senIsspace_ascii h p))]

theorem skipSpace_blank (p : List UInt8) :
    skipSpace encoding (0x20 :: p) = skipSpace encoding p := by
  have hlen : senStrCharlenNonnull encoding (0x20 :: p) = 1 := charlen_ascii (by decide) p
  have hspace : senIsspace encoding (0x20 :: p) = 1 := rfl
  rw [skipSpace, if_neg (by simp [hspace])]
  simp [hlen]

theorem jsonToken_nil : jsonToken encoding [] = none := by
  have h : skipSpace encoding [] = [] := by rw [skipSpace, if_pos (.inl rfl)]
  rw [jsonToken]
  split
  · rfl
  · next heq => rw [h] at heq; cases heq

/-- What is done at the first byte that is not blank. -/
theorem jsonToken_of_skipSpace {cur p : List UInt8} {b : UInt8}
    (h : skipSpace encoding cur = b :: p) :
    jsonToken encoding cur =
      if b = 0x5b then some (.list, p)
      else if b = 0x7b then some (.object, p)
      else if b = 0x7d ∨ b = 0x5d then some (.close, p)
      else if b = 0x2c ∨ b = 0x3a then jsonToken encoding p
      else if b = 0x22 then
        some (.item (jsonReadstrexp encoding p).1, (jsonReadstrexp encoding p).2)
      else some (.item (jsonReadstr encoding (b :: p)).1, (jsonReadstr encoding (b :: p)).2) := by
  rw [jsonToken]
  split
  · next heq => rw [h] at heq; cases heq
  · next heq =>
      rw [h] at heq
      cases heq
      rfl

theorem jsonToken_blank (p : List UInt8) :
    jsonToken encoding (0x20 :: p) = jsonToken encoding p := by
  cases hskip : skipSpace encoding p with
  | nil =>
      rw [jsonToken, jsonToken]
      split
      · split
        · rfl
        · next heq => rw [hskip] at heq; cases heq
      · next heq => rw [skipSpace_blank, hskip] at heq; cases heq
  | cons b q =>
      rw [jsonToken_of_skipSpace hskip,
        jsonToken_of_skipSpace ((skipSpace_blank p).trans hskip)]

theorem jsonToken_separator (hashp o : Bool) (p : List UInt8) :
    jsonToken encoding (separator hashp o ++ p) = jsonToken encoding p := by
  unfold separator
  split_ifs
  · rw [List.cons_append, jsonToken_of_skipSpace (skipSpace_ascii (by decide) _)]
    exact jsonToken_blank p
  · rw [List.cons_append, jsonToken_of_skipSpace (skipSpace_ascii (by decide) _)]
    exact jsonToken_blank p

theorem jsonToken_bracket (p : List UInt8) :
    jsonToken encoding (0x5b :: p) = some (.list, p) :=
  jsonToken_of_skipSpace (skipSpace_ascii (by decide) p)

theorem jsonToken_brace (p : List UInt8) :
    jsonToken encoding (0x7b :: p) = some (.object, p) :=
  jsonToken_of_skipSpace (skipSpace_ascii (by decide) p)

theorem jsonToken_closer (hashp : Bool) (p : List UInt8) :
    jsonToken encoding (closer hashp :: p) = some (.close, p) := by
  cases hashp <;> exact jsonToken_of_skipSpace (skipSpace_ascii (by decide) p)

/-- What is read for the text of a character. -/
def readBackChar (c : List UInt8) : List UInt8 := if c = [0x0a] then [0x6e] else c

/-- What is read for the text of a string. -/
def readBackStr (encoding : Snip.SenEncoding) (s : List UInt8) : List UInt8 :=
  (charsOf encoding s).flatMap readBackChar

/-- A backslash and the byte behind it. -/
theorem strexpLoop_escape {b : UInt8} (dest p : List UInt8) :
    strexpLoop encoding dest (0x5c :: b :: p) = strexpLoop encoding (dest ++ [b]) p := by
  have hlen : senStrCharlenNonnull encoding (0x5c :: b :: p) = 1 := charlen_ascii (by decide) _
  rw [strexpLoop]
  simp [hlen]

theorem strexpLoop_quote (dest p : List UInt8) :
    strexpLoop encoding dest (0x22 :: p) = (.bulk dest, p) := by
  have hlen : senStrCharlenNonnull encoding (0x22 :: p) = 1 := charlen_ascii (by decide) _
  rw [strexpLoop]
  simp [hlen]

theorem strexpLoop_char {c : List UInt8} (hc : IsCharOf encoding c) (hquote : c ≠ [0x22])
    (hback : c ≠ [0x5c]) (dest p : List UInt8) :
    strexpLoop encoding dest (c ++ p) = strexpLoop encoding (dest ++ c) p := by
  have hlen := hc.2 p
  have hhead : ∀ x : UInt8, c ≠ [x] → ¬ ((c ++ p).headD 0 = x ∧ c.length = 1) := by
    rintro x hx ⟨hhead, hone⟩
    obtain ⟨y, rfl⟩ := List.length_eq_one_iff.mp hone
    exact hx (congrArg (fun z => [z]) hhead)
  rw [strexpLoop, dif_neg (by rw [hlen]; exact (List.length_pos_of_ne_nil hc.1).ne'), hlen,
    if_neg (hhead _ hquote), dif_neg fun h => hhead _ hback ⟨h.1, h.2.2⟩, List.take_left,
    List.drop_left]

/-- The loop stops at the quote behind the text of a string. -/
theorem strexpLoop_escaped {cs : List (List UInt8)} (hcs : ∀ c ∈ cs, IsCharOf encoding c)
    (dest p : List UInt8) :
    strexpLoop encoding dest (cs.flatMap strEscChar ++ 0x22 :: p) =
      (.bulk (dest ++ cs.flatMap readBackChar), p) := by
  induction cs generalizing dest with
  | nil => rw [List.flatMap_nil, List.nil_append, strexpLoop_quote, List.flatMap_nil,
      List.append_nil]
  | cons c cs ih =>
      have hc := hcs c List.mem_cons_self
      have hread : strexpLoop encoding dest (strEscChar c ++ (cs.flatMap strEscChar ++ 0x22 :: p)) =
          strexpLoop encoding (dest ++ readBackChar c) (cs.flatMap strEscChar ++ 0x22 :: p) := by
        unfold strEscChar
        split
        · exact strexpLoop_escape dest _
        · exact strexpLoop_escape dest _
        · exact strexpLoop_escape dest _
        · next h₁ h₂ h₃ =>
            rw [readBackChar, if_neg h₁]
            exact strexpLoop_char hc h₂ h₃ dest _
      rw [List.flatMap_cons, List.append_assoc, hread,
        ih fun d hd => hcs d (List.mem_cons_of_mem c hd), List.flatMap_cons, List.append_assoc]

/-- The text of a string is one token. -/
theorem jsonToken_string (s p : List UInt8) :
    jsonToken encoding (escaped encoding s s.length ++ p) =
      some (.item (.bulk (readBackStr encoding s)), p) := by
  rw [escaped, flatten_strEscPieces, strEscSource_length, List.append_assoc, List.cons_append,
    jsonToken_of_skipSpace (skipSpace_ascii (by decide) _), jsonReadstrexp, List.singleton_append,
    strexpLoop_escaped fun c hc => isCharOf_of_mem_charsOf hc, List.nil_append]
  rfl

/-- A byte that an atom may begin and go on with. -/
def AtomByte (b : UInt8) : Prop := (0x20 < b ∧ b < 0x80) ∧ b ∉ atomEnds ∧ b ≠ 0x22

instance (b : UInt8) : Decidable (AtomByte b) := inferInstanceAs (Decidable (_ ∧ _))

/-- An atom in front of `p` ends there. -/
def Ends (p : List UInt8) : Prop := ∀ b ∈ p.head?, b ∈ atomEnds

theorem ends_nil : Ends [] := fun _ h => nomatch h

theorem ends_separator (hashp o : Bool) (p : List UInt8) : Ends (separator hashp o ++ p) := by
  unfold separator
  split_ifs <;> exact fun b hb => Option.some.inj hb ▸ by decide

theorem ends_closer (hashp : Bool) (p : List UInt8) : Ends (closer hashp :: p) := by
  cases hashp <;> exact fun b hb => Option.some.inj hb ▸ by decide

theorem atomScan_append {s p : List UInt8} (hs : ∀ b ∈ s, AtomByte b) (hp : Ends p) :
    atomScan encoding (s ++ p) = (s, p) := by
  induction s with
  | nil =>
      rw [List.nil_append, atomScan]
      cases p with
      | nil => exact dif_pos rfl
      | cons b q =>
          have hb := hp b rfl
          have hascii : 0 < b ∧ b < 0x80 := by
            have hends : ∀ c ∈ atomEnds, 0 < c ∧ c < 0x80 :=
              List.all_iff_forall_prop.mp (by decide)
            exact hends b hb
          rw [dif_neg (by rw [charlen_ascii hascii]; exact one_ne_zero), if_pos (.inr hb)]
  | cons b s ih =>
      obtain ⟨hascii, hends, -⟩ := hs b List.mem_cons_self
      have hlen : senStrCharlenNonnull encoding (b :: (s ++ p)) = 1 :=
        charlen_ascii ⟨UInt8.lt_trans (by decide) hascii.1, hascii.2⟩ _
      have hstop : ¬ (senIsspace encoding (b :: (s ++ p)) ≠ 0 ∨
          (b :: (s ++ p)).headD 0 ∈ atomEnds) := by
        rw [senIsspace_ascii hascii, List.headD_cons]
        exact not_or.mpr ⟨fun h => h rfl, hends⟩
      rw [List.cons_append, atomScan, dif_neg (by rw [hlen]; exact one_ne_zero), if_neg hstop, hlen,
        List.drop_succ_cons, List.drop_zero, ih fun c hc => hs c (List.mem_cons_of_mem b hc)]
      rfl

/-- The text of an atom is one token. -/
theorem jsonToken_atom {s p : List UInt8} (hne : s ≠ []) (hs : ∀ b ∈ s, AtomByte b)
    (hp : Ends p) : jsonToken encoding (s ++ p) = some (.item (mkAtom s), p) := by
  have hscan : atomScan encoding (s ++ p) = (s, p) := atomScan_append hs hp
  obtain ⟨b, q, rfl⟩ := List.exists_cons_of_ne_nil hne
  obtain ⟨hascii, hends, hquote⟩ := hs b List.mem_cons_self
  have hb : ∀ c ∈ atomEnds, b ≠ c := fun c hc h => hends (h ▸ hc)
  have hread : jsonReadstr encoding (b :: q ++ p) = (mkAtom (b :: q), p) := by
    rw [jsonReadstr, hscan, if_pos (.inl (List.cons_ne_nil b q))]
  rw [List.cons_append] at hread ⊢
  rw [jsonToken_of_skipSpace (skipSpace_ascii hascii _), hread, if_neg (hb _ (by decide)),
    if_neg (hb _ (by decide)),
    if_neg (not_or.mpr ⟨hb _ (by decide), hb _ (by decide)⟩),
    if_neg (not_or.mpr ⟨hb _ (by decide), hb _ (by decide)⟩), if_neg hquote]

/-- What is read for the text of an integer. -/
def readBackInt (i : I64) : Val := if i = I64.least then .symbol [0x2d, 0x28] else .int i

theorem atomByte_decimalText (i : Int) : ∀ b ∈ decimalText i, AtomByte b := by
  have hdigit : ∀ d < 10, AtomByte (digitChar d) := by decide
  intro b hb
  unfold decimalText at hb
  rcases List.mem_append.mp hb with hb | hb
  · split_ifs at hb
    · rw [List.mem_singleton.mp hb]
      decide
    · exact absurd hb List.not_mem_nil
  · obtain ⟨d, hd, rfl⟩ := List.mem_map.mp (List.mem_reverse.mp hb)
    exact hdigit d (digitsOf_lt _ d hd)

theorem decimalText_ne_nil (i : Int) : decimalText i ≠ [] := fun h => by
  have hdigits := (List.append_eq_nil_iff.mp h).2
  rw [List.reverse_eq_nil_iff, List.map_eq_nil_iff] at hdigits
  exact digitsOf_ne_nil _ hdigits

theorem mkAtom_decimalText {i : I64} (h : i ≠ I64.least) : mkAtom (decimalText i.val) = .int i := by
  have hlow : -2 ^ 63 < i.val := lt_of_le_of_ne i.low fun hi => h (I64.ext hi.symm)
  rw [mkAtom, senAtoll, aton_decimalText (w := 63) ⟨hlow, i.high⟩]
  dsimp only
  rw [if_pos rfl, I64.wrap_val]

/-- The text of an integer is one token. -/
theorem jsonToken_int (i : I64) {p : List UInt8} (hp : Ends p) :
    jsonToken encoding (dispInt i ++ p) = some (.item (readBackInt i), p) := by
  by_cases h : i = I64.least
  · have hbytes : ∀ b ∈ ([0x2d, 0x28] : List UInt8), AtomByte b :=
      List.all_iff_forall_prop.mp (by decide)
    rw [h, dispInt_least, jsonToken_atom (List.cons_ne_nil _ _) hbytes hp]
    rfl
  · rw [dispInt_eq h, jsonToken_atom (decimalText_ne_nil _) (atomByte_decimalText _) hp,
      mkAtom_decimalText h, readBackInt, if_neg h]

mutual

/-- What is written and read back: an integer, a string, true, false, a list with an element, or an
object. -/
inductive Readable : Val → Prop
  | t : Readable .t
  | f : Readable .f
  | bulk (value : List UInt8) : Readable (.bulk value)
  | int (i : I64) : Readable (.int i)
  | list {car cdr : Val} (hcar : Readable car) (hcdr : Elements cdr) : Readable (.pair car cdr)
  | object {cdr : Val} (hcdr : Members cdr) : Readable (.pair (.symbol symAt) cdr)

/-- The rest of a list. -/
inductive Elements : Val → Prop
  | nil : Elements .nil
  | pair {car cdr : Val} (hcar : Readable car) (hcdr : Elements cdr) : Elements (.pair car cdr)

/-- Keys that are strings, each with its value. -/
inductive Members : Val → Prop
  | nil : Members .nil
  | pair {key : List UInt8} {cdr : Val} (hcdr : Values cdr) : Members (.pair (.bulk key) cdr)

/-- A value and the members behind it. -/
inductive Values : Val → Prop
  | pair {car cdr : Val} (hcar : Readable car) (hcdr : Members cdr) : Values (.pair car cdr)

end

/-- What is read for the text of a value if no element of it is false. -/
def readBack (encoding : Snip.SenEncoding) : Val → Val
  | .bulk value => .bulk (readBackStr encoding value)
  | .int i => readBackInt i
  | .pair car cdr => .pair (readBack encoding car) (readBack encoding cdr)
  | v => v

mutual

/-- The tokens of the text of a value. -/
def toks (encoding : Snip.SenEncoding) : Val → List Tok
  | .pair car cdr =>
      (if car = .symbol symAt then [.object] else .list :: toks encoding car) ++
        restToks encoding cdr
  | v => [.item (readBack encoding v)]

/-- The tokens of what is left of a container. -/
def restToks (encoding : Snip.SenEncoding) : Val → List Tok
  | .pair car cdr => toks encoding car ++ restToks encoding cdr
  | _ => [.close]

end

/-- The text `p` begins with the tokens `ks` and goes on with `r`. -/
inductive Scan (encoding : Snip.SenEncoding) : List UInt8 → List Tok → List UInt8 → Prop
  | nil (p : List UInt8) : Scan encoding p [] p
  | cons {p q r : List UInt8} {k : Tok} {ks : List Tok} (h : jsonToken encoding p = some (k, q))
      (hrest : Scan encoding q ks r) : Scan encoding p (k :: ks) r

namespace Scan

theorem single {p q : List UInt8} {k : Tok} (h : jsonToken encoding p = some (k, q)) :
    Scan encoding p [k] q :=
  .cons h (.nil q)

theorem append {p q r : List UInt8} {ks ls : List Tok} (h : Scan encoding p ks q)
    (h' : Scan encoding q ls r) : Scan encoding p (ks ++ ls) r := by
  induction h with
  | nil => exact h'
  | cons hk _ ih => exact .cons hk (ih h')

theorem split {p r : List UInt8} {ks ls : List Tok} (h : Scan encoding p (ks ++ ls) r) :
    ∃ q, Scan encoding p ks q ∧ Scan encoding q ls r := by
  induction ks generalizing p with
  | nil => exact ⟨p, .nil p, h⟩
  | cons k ks ih =>
      cases h with
      | cons hk hrest =>
          obtain ⟨q, hks, hls⟩ := ih hrest
          exact ⟨q, .cons hk hks, hls⟩

/-- A separator is passed. -/
theorem separator {p r : List UInt8} {ks : List Tok} (h : Scan encoding p ks r) (hne : ks ≠ [])
    (hashp o : Bool) : Scan encoding (separator hashp o ++ p) ks r := by
  cases h with
  | nil => exact absurd rfl hne
  | cons hk hrest => exact .cons ((jsonToken_separator hashp o p).trans hk) hrest

/-- Two ways through the whole of a text meet the same tokens. -/
theorem unique {p q r : List UInt8} {ks ls : List Tok} (h : Scan encoding p ks q)
    (hq : jsonToken encoding q = none) (h' : Scan encoding p ls r)
    (hr : jsonToken encoding r = none) : ks = ls := by
  induction h generalizing ls with
  | nil =>
      cases h' with
      | nil => rfl
      | cons hk => rw [hq] at hk; cases hk
  | cons hk _ ih =>
      cases h' with
      | nil => rw [hr] at hk; cases hk
      | cons hk' hrest' =>
          rw [hk] at hk'
          cases hk'
          rw [ih hq hrest']

end Scan

section

variable {fmt : Val → List UInt8} {v : Val}

theorem Readable.ne_symbol (h : Readable v) (name : List UInt8) : v ≠ .symbol name := by
  rintro rfl
  cases h

theorem Elements.ends (h : Elements v) (hashp o : Bool) (p : List UInt8) :
    Ends (dispRest encoding fmt hashp o v ++ p) := by
  cases h with
  | nil => exact ends_closer hashp p
  | pair =>
      rw [dispRest, List.append_assoc, List.append_assoc]
      exact ends_separator hashp o _

theorem Members.ends (h : Members v) (hashp o : Bool) (p : List UInt8) :
    Ends (dispRest encoding fmt hashp o v ++ p) := by
  cases h with
  | nil => exact ends_closer hashp p
  | pair =>
      rw [dispRest, List.append_assoc, List.append_assoc]
      exact ends_separator hashp o _

theorem Values.ends (h : Values v) (hashp o : Bool) (p : List UInt8) :
    Ends (dispRest encoding fmt hashp o v ++ p) := by
  cases h
  rw [dispRest, List.append_assoc, List.append_assoc]
  exact ends_separator hashp o _

/-- A list is printed between brackets. -/
theorem dispJ_list {car cdr : Val} (h : Readable car) :
    dispJ encoding fmt (.pair car cdr) =
      0x5b :: dispJ encoding fmt car ++ dispRest encoding fmt false false cdr := by
  rw [dispJ, if_neg (h.ne_symbol _), if_neg (h.ne_symbol _)]

/-- An object is printed between braces. -/
theorem dispJ_object {cdr : Val} :
    dispJ encoding fmt (.pair (.symbol symAt) cdr) = 0x7b :: dispMembers encoding fmt cdr := by
  rw [dispJ, if_neg (by decide), if_pos rfl]

theorem toks_list {car cdr : Val} (h : Readable car) :
    toks encoding (.pair car cdr) =
      .list :: toks encoding car ++ restToks encoding cdr := by
  rw [toks, if_neg (h.ne_symbol _)]

theorem toks_ne_nil (v : Val) : toks encoding v ≠ [] := by
  cases v with
  | pair =>
      rw [toks]
      split_ifs <;> exact List.cons_ne_nil _ _
  | _ => exact List.cons_ne_nil _ _

/-- The text of a value, and of what is left of a container, has the tokens of it. -/
structure Tokenized (encoding : Snip.SenEncoding) (fmt : Val → List UInt8) (v : Val) : Prop where
  value : Readable v → ∀ p, Ends p → Scan encoding (dispJ encoding fmt v ++ p) (toks encoding v) p
  elements : Elements v → ∀ o p,
    Scan encoding (dispRest encoding fmt false o v ++ p) (restToks encoding v) p
  first : Members v → ∀ p,
    Scan encoding (dispMembers encoding fmt v ++ p) (restToks encoding v) p
  members : Members v → ∀ p,
    Scan encoding (dispRest encoding fmt true true v ++ p) (restToks encoding v) p
  values : Values v → ∀ p,
    Scan encoding (dispRest encoding fmt true false v ++ p) (restToks encoding v) p

theorem tokenized (v : Val) : Tokenized encoding fmt v := by
  induction v with
  | nil =>
      exact ⟨nofun, fun _ _ p => .single (jsonToken_closer false p),
        fun _ p => .single (jsonToken_closer true p), fun _ p => .single (jsonToken_closer true p),
        nofun⟩
  | t =>
      have hbytes : ∀ b ∈ ([0x74, 0x72, 0x75, 0x65] : List UInt8), AtomByte b :=
        List.all_iff_forall_prop.mp (by decide)
      exact ⟨fun _ p hp => .single (jsonToken_atom (List.cons_ne_nil _ _) hbytes hp), nofun, nofun,
        nofun, nofun⟩
  | f =>
      have hbytes : ∀ b ∈ ([0x66, 0x61, 0x6c, 0x73, 0x65] : List UInt8), AtomByte b :=
        List.all_iff_forall_prop.mp (by decide)
      exact ⟨fun _ p hp => .single (jsonToken_atom (List.cons_ne_nil _ _) hbytes hp), nofun, nofun,
        nofun, nofun⟩
  | bulk value =>
      exact ⟨fun _ p _ => .single (jsonToken_string value p), nofun, nofun, nofun, nofun⟩
  | int i => exact ⟨fun _ p hp => .single (jsonToken_int i hp), nofun, nofun, nofun, nofun⟩
  | symbol | object | records => exact ⟨nofun, nofun, nofun, nofun, nofun⟩
  | pair car cdr ihcar ihcdr =>
      have hbody : ∀ {hashp o p}, Readable car → Ends (dispRest encoding fmt hashp o cdr ++ p) →
          Scan encoding (dispRest encoding fmt hashp o cdr ++ p) (restToks encoding cdr) p →
          Scan encoding (dispJ encoding fmt car ++ dispRest encoding fmt hashp o cdr ++ p)
            (restToks encoding (.pair car cdr)) p := by
        intro hashp o p hcar hends hscan
        rw [restToks, List.append_assoc]
        exact (ihcar.value hcar _ hends).append hscan
      have hloop : ∀ {hashp o p}, Readable car →
          Ends (dispRest encoding fmt hashp (!o) cdr ++ p) →
          Scan encoding (dispRest encoding fmt hashp (!o) cdr ++ p) (restToks encoding cdr) p →
          Scan encoding (dispRest encoding fmt hashp o (.pair car cdr) ++ p)
            (restToks encoding (.pair car cdr)) p := by
        intro hashp o p hcar hends hscan
        rw [dispRest, List.append_assoc (separator hashp o), List.append_assoc]
        refine (hbody hcar hends hscan).separator ?_ hashp o
        rw [restToks]
        exact List.append_ne_nil_of_left_ne_nil (toks_ne_nil car) _
      refine ⟨fun h p _ => ?_, fun h o p => ?_, fun h p => ?_, fun h p => ?_, fun h p => ?_⟩
      · cases h with
        | list hcar hcdr =>
            rw [dispJ_list hcar, toks_list hcar]
            exact .cons (jsonToken_bracket _) (hbody hcar (hcdr.ends _ _ p)
                (ihcdr.elements hcdr _ p))
        | object hcdr =>
            rw [dispJ_object]
            exact .cons (jsonToken_brace _) (ihcdr.first hcdr p)
      · cases h with
        | pair hcar hcdr => exact hloop hcar (hcdr.ends _ _ p) (ihcdr.elements hcdr _ p)
      · cases h with
        | pair hcdr => exact hbody (.bulk _) (hcdr.ends _ _ p) (ihcdr.values hcdr p)
      · cases h with
        | pair hcdr => exact hloop (.bulk _) (hcdr.ends _ _ p) (ihcdr.values hcdr p)
      · cases h with
        | pair hcar hcdr => exact hloop hcar (hcdr.ends _ _ p) (ihcdr.members hcdr p)

end

/-- An element of a container is false, at some depth. -/
def HasFalse : Val → Prop
  | .pair car cdr => car = .f ∨ HasFalse car ∨ HasFalse cdr
  | _ => False

/-- Keys and their values are elements. -/
theorem Members.elements (v : Val) : (Members v → Elements v) ∧ (Values v → Elements v) := by
  induction v with
  | nil => exact ⟨fun _ => .nil, nofun⟩
  | pair car cdr _ ih =>
      refine ⟨fun h => ?_, fun h => ?_⟩
      · cases h with
        | pair hcdr => exact .pair (.bulk _) (ih.2 hcdr)
      · cases h with
        | pair hcar hcdr => exact .pair hcar (ih.1 hcdr)
  | t | f | bulk | int | symbol | object | records => exact ⟨nofun, nofun⟩

theorem readBack_ne_f {v : Val} (h : v ≠ .f) : readBack encoding v ≠ .f := by
  cases v with
  | f => exact absurd rfl h
  | int i =>
      rw [readBack, readBackInt]
      split_ifs <;> exact Val.noConfusion
  | nil | t | symbol | bulk | object | records | pair => exact Val.noConfusion

theorem settles_item {p r : List UInt8} {o : Val}
    (h : jsonToken encoding p = some (.item o, r)) :
    Settles (fun fuel => jsonRead encoding fuel p) (some o, r) :=
  .succ (fun k => by rw [jsonRead, h]) (.pure _)

theorem settles_list {p q r : List UInt8} {v : Val} (h : jsonToken encoding p = some (.list, q))
    (hloop : Settles (fun fuel => jsonReadLoop encoding fuel q) (v, r)) :
    Settles (fun fuel => jsonRead encoding fuel p) (some v, r) :=
  .succ (fun k => by rw [jsonRead, h]) (hloop.map fun r => (some r.1, r.2))

theorem settles_object {p q r : List UInt8} {v : Val}
    (h : jsonToken encoding p = some (.object, q))
    (hloop : Settles (fun fuel => jsonReadLoop encoding fuel q) (v, r)) :
    Settles (fun fuel => jsonRead encoding fuel p) (some (.pair (.symbol symAt) v), r) :=
  .succ (fun k => by rw [jsonRead, h])
    (hloop.map fun r => (some (Val.pair (.symbol symAt) r.1), r.2))

theorem settles_close {p r : List UInt8} (h : jsonToken encoding p = some (.close, r)) :
    Settles (fun fuel => jsonReadLoop encoding fuel p) (.nil, r) := by
  have hread : Settles (fun fuel => jsonRead encoding fuel p) (none, r) :=
    .succ (fun k => by rw [jsonRead, h]) (.pure _)
  exact .succ (fun k => by rw [jsonReadLoop]) (hread.bind (.pure _))

theorem settles_element {p q r : List UInt8} {o v : Val} (ho : o ≠ .f)
    (hread : Settles (fun fuel => jsonRead encoding fuel p) (some o, q))
    (hloop : Settles (fun fuel => jsonReadLoop encoding fuel q) (v, r)) :
    Settles (fun fuel => jsonReadLoop encoding fuel p) (.pair o v, r) := by
  refine .succ (fun k => by rw [jsonReadLoop]) (hread.bind ?_)
  simp only [if_neg ho]
  exact hloop.map fun s => (Val.pair o s.1, s.2)

/-- On the tokens of a value in which no element is false `json_read` returns that value. -/
theorem settles_toks (v : Val) (hfalse : ¬ HasFalse v) :
    (Readable v → ∀ p r, Scan encoding p (toks encoding v) r →
      Settles (fun fuel => jsonRead encoding fuel p) (some (readBack encoding v), r)) ∧
    (Elements v → ∀ p r, Scan encoding p (restToks encoding v) r →
      Settles (fun fuel => jsonReadLoop encoding fuel p) (readBack encoding v, r)) := by
  have hitem : ∀ {o p r}, Scan encoding p [.item o] r →
      Settles (fun fuel => jsonRead encoding fuel p) (some o, r) := by
    intro o p r hscan
    cases hscan with
    | cons hk hrest =>
        cases hrest
        exact settles_item hk
  induction v with
  | nil =>
      refine ⟨nofun, fun _ p r hscan => ?_⟩
      cases hscan with
      | cons hk hrest =>
          cases hrest
          exact settles_close hk
  | t => exact ⟨fun _ _ _ hscan => hitem hscan, nofun⟩
  | f => exact ⟨fun _ _ _ hscan => hitem hscan, nofun⟩
  | bulk value => exact ⟨fun _ _ _ hscan => hitem hscan, nofun⟩
  | int i => exact ⟨fun _ _ _ hscan => hitem hscan, nofun⟩
  | symbol | object | records => exact ⟨nofun, nofun⟩
  | pair car cdr ihcar ihcdr =>
      rw [HasFalse, not_or, not_or] at hfalse
      obtain ⟨hne, hcarFalse, hcdrFalse⟩ := hfalse
      have hloop : Elements (.pair car cdr) → ∀ p r,
          Scan encoding p (restToks encoding (.pair car cdr)) r →
          Settles (fun fuel => jsonReadLoop encoding fuel p)
            (readBack encoding (.pair car cdr), r) := by
        intro h p r hscan
        cases h with
        | pair hcar hcdr =>
            rw [restToks] at hscan
            obtain ⟨q, hhead, htail⟩ := hscan.split
            exact settles_element (readBack_ne_f hne) ((ihcar hcarFalse).1 hcar p q hhead)
              ((ihcdr hcdrFalse).2 hcdr q r htail)
      refine ⟨fun h p r hscan => ?_, hloop⟩
      cases h with
      | list hcar hcdr =>
          rw [toks_list hcar] at hscan
          cases hscan with
          | cons hk hrest =>
              exact settles_list hk (hloop (.pair hcar hcdr) _ r (by rwa [restToks]))
      | object hcdr =>
          rw [toks, if_pos rfl] at hscan
          cases hscan with
          | cons hk hrest =>
              have helements := (Members.elements cdr).1 hcdr
              exact settles_object hk ((ihcdr hcdrFalse).2 helements _ r hrest)

/-- How a token changes the number of open brackets. -/
def Tok.weight : Tok → Int
  | .list => 1
  | .object => 1
  | .close => -1
  | .item _ => 0

/-- The number of brackets that `ks` opens and leaves open. -/
def balance (ks : List Tok) : Int := (ks.map Tok.weight).sum

theorem balance_cons (k : Tok) (ks : List Tok) : balance (k :: ks) = k.weight + balance ks := rfl

theorem balance_append (ks ls : List Tok) : balance (ks ++ ls) = balance ks + balance ls := by
  rw [balance, List.map_append, List.sum_append]
  rfl

/-- From `p` the tokens `ks` have been passed when `r` is left; at the end of the text nothing is
left of the blanks there. -/
def Passes (encoding : Snip.SenEncoding) (p : List UInt8) (ks : List Tok) (r : List UInt8) : Prop :=
  ∃ q, Scan encoding p ks q ∧ (q = r ∨ jsonToken encoding q = none ∧ r = [])

theorem Passes.append {p q r : List UInt8} {ks ls : List Tok} (h : Passes encoding p ks q)
    (h' : Passes encoding q ls r) : Passes encoding p (ks ++ ls) r := by
  obtain ⟨q', hscan, rfl | ⟨hend, rfl⟩⟩ := h
  · obtain ⟨r', hscan', hr⟩ := h'
    exact ⟨r', hscan.append hscan', hr⟩
  · obtain ⟨r', hscan', hr⟩ := h'
    cases hscan' with
    | nil =>
        refine ⟨q', by rwa [List.append_nil], .inr ⟨hend, ?_⟩⟩
        rcases hr with rfl | ⟨-, rfl⟩ <;> rfl
    | cons hk => rw [jsonToken_nil] at hk; cases hk

/-- What a call of `json_read` has passed when it returns: for `NULL` a closing bracket or nothing,
else one object, or tokens that close no more than they open, and less if false has ended a
container. -/
def Passed : Option Val → List Tok → Prop
  | none, ks => ks = [] ∨ ks = [.close]
  | some v, ks =>
      ks = [.item v] ∨ v ≠ .f ∧ 0 ≤ balance ks ∧ (balance ks = 0 → Tok.item .f ∉ ks)

/-- What the loop has passed: one bracket is closed that was open before, or false was met. -/
def LoopPassed (ks : List Tok) : Prop :=
  -1 ≤ balance ks ∧ (balance ks = -1 → Tok.item .f ∉ ks)

instance (ks : List Tok) : Decidable (LoopPassed ks) := inferInstanceAs (Decidable (_ ∧ (_ → _)))

theorem Passed.balance {v : Val} {ks : List Tok} (h : Passed (some v) ks) (hv : v ≠ .f) :
    0 ≤ balance ks ∧ (Scm.balance ks = 0 → Tok.item .f ∉ ks) := by
  rcases h with rfl | ⟨-, h⟩
  · refine ⟨le_rfl, fun _ hmem => ?_⟩
    exact hv (Tok.item.inj (List.mem_singleton.mp hmem)).symm
  · exact h

theorem passed_jsonRead (fuel : Nat) :
    (∀ p o r, jsonRead encoding fuel p = some (o, r) →
      ∃ ks, Passes encoding p ks r ∧ Passed o ks) ∧
    (∀ p v r, jsonReadLoop encoding fuel p = some (v, r) →
      ∃ ks, Passes encoding p ks r ∧ LoopPassed ks ∧ v ≠ .f) := by
  induction fuel with
  | zero => exact ⟨fun _ _ _ h => by simp [jsonRead] at h, fun _ _ _ h =>
        by simp [jsonReadLoop] at h⟩
  | succ fuel ih =>
      obtain ⟨ihRead, ihLoop⟩ := ih
      have hcontainer : ∀ {k : Tok} {p q v r}, k.weight = 1 → k ≠ .item .f →
          jsonToken encoding p = some (k, q) → jsonReadLoop encoding fuel q = some (v, r) →
          ∃ ks, Passes encoding p ks r ∧ 0 ≤ balance ks ∧
            (balance ks = 0 → Tok.item .f ∉ ks) := by
        intro k p q v r hk hne htoken hloop
        obtain ⟨ks, hpasses, ⟨hlow, hnone⟩, -⟩ := ihLoop q v r hloop
        have hsum := balance_cons k ks
        refine ⟨k :: ks, Passes.append ⟨q, .single htoken, .inl rfl⟩ hpasses, by omega, fun h => ?_⟩
        rw [List.mem_cons, not_or]
        exact ⟨hne.symm, hnone (by omega)⟩
      refine ⟨fun p o r h => ?_, fun p v r h => ?_⟩
      · rw [jsonRead] at h
        cases htoken : jsonToken encoding p with
        | none =>
            rw [htoken] at h
            cases h
            exact ⟨[], ⟨p, .nil p, .inr ⟨htoken, rfl⟩⟩, .inl rfl⟩
        | some kq =>
            obtain ⟨k, q⟩ := kq
            rw [htoken] at h
            cases k with
            | list =>
                obtain ⟨⟨v, r'⟩, hloop, heq⟩ := Option.map_eq_some_iff.mp h
                cases heq
                obtain ⟨ks, hpasses, hbalance⟩ := hcontainer rfl Tok.noConfusion htoken hloop
                obtain ⟨-, -, -, hne⟩ := ihLoop q v r' hloop
                exact ⟨ks, hpasses, .inr ⟨hne, hbalance⟩⟩
            | object =>
                obtain ⟨⟨v, r'⟩, hloop, heq⟩ := Option.map_eq_some_iff.mp h
                cases heq
                obtain ⟨ks, hpasses, hbalance⟩ := hcontainer rfl Tok.noConfusion htoken hloop
                exact ⟨ks, hpasses, .inr ⟨Val.noConfusion, hbalance⟩⟩
            | close =>
                cases h
                exact ⟨[.close], ⟨_, .single htoken, .inl rfl⟩, .inr rfl⟩
            | item o =>
                cases h
                exact ⟨[.item o], ⟨_, .single htoken, .inl rfl⟩, .inl rfl⟩
      · rw [jsonReadLoop] at h
        obtain ⟨⟨o, q⟩, hread, h⟩ := Option.bind_eq_some_iff.mp h
        obtain ⟨ks, hpasses, hpassed⟩ := ihRead p o q hread
        cases o with
        | none =>
            cases h
            refine ⟨ks, hpasses, ?_, Val.noConfusion⟩
            rcases hpassed with rfl | rfl <;> decide
        | some o =>
            dsimp only at h
            split_ifs at h with ho
            · cases h
              refine ⟨ks, hpasses, ?_, Val.noConfusion⟩
              rcases hpassed with rfl | ⟨hne, -⟩
              · rw [ho]
                decide
              · exact absurd ho hne
            · obtain ⟨⟨v, r'⟩, hloop, heq⟩ := Option.map_eq_some_iff.mp h
              cases heq
              obtain ⟨ls, hpasses', ⟨hlow, hnone⟩, -⟩ := ihLoop q v r' hloop
              obtain ⟨hpos, hzero⟩ := hpassed.balance ho
              refine ⟨ks ++ ls, hpasses.append hpasses', ⟨?_, fun hsum => ?_⟩, Val.noConfusion⟩
              · rw [balance_append]
                omega
              · rw [balance_append] at hsum
                rw [List.mem_append, not_or]
                exact ⟨hzero (by omega), hnone (by omega)⟩

/-- The tokens of a value close what they open. -/
theorem balance_toks (v : Val) :
    (Readable v → balance (toks encoding v) = 0) ∧
    (Elements v → balance (restToks encoding v) = -1) := by
  induction v with
  | pair car cdr ihcar ihcdr =>
      have hloop : Elements (.pair car cdr) → balance (restToks encoding (.pair car cdr)) = -1 := by
        intro h
        cases h with
        | pair hcar hcdr => rw [restToks, balance_append, ihcar.1 hcar, ihcdr.2 hcdr, zero_add]
      refine ⟨fun h => ?_, hloop⟩
      cases h with
      | list hcar hcdr =>
          rw [toks_list hcar, List.cons_append, ← restToks, balance_cons, hloop (.pair hcar hcdr)]
          rfl
      | object hcdr =>
          rw [toks, if_pos rfl, List.singleton_append, balance_cons,
            ihcdr.2 ((Members.elements cdr).1 hcdr)]
          rfl
  | nil => exact ⟨nofun, fun _ => rfl⟩
  | t | f | bulk | int | symbol | object | records => exact ⟨fun _ => rfl, nofun⟩

theorem mem_toks_of_hasFalse {v : Val} (h : HasFalse v) :
    Tok.item .f ∈ toks encoding v ∧ Tok.item .f ∈ restToks encoding v := by
  induction v with
  | pair car cdr ihcar ihcdr =>
      have hmem : Tok.item .f ∈ toks encoding car ∨ Tok.item .f ∈ restToks encoding cdr := by
        rcases h with rfl | h | h
        · exact .inl (List.mem_singleton.mpr rfl)
        · exact .inl (ihcar h).1
        · exact .inr (ihcdr h).2
      refine ⟨?_, ?_⟩
      · rw [toks]
        split_ifs with hat
        · refine List.mem_append_right _ (hmem.resolve_left ?_)
          rw [hat]
          exact fun h => nomatch List.mem_singleton.mp h
        · exact List.mem_cons_of_mem _ (List.mem_append.mpr hmem)
      · rw [restToks]
        exact List.mem_append.mpr hmem
  | nil | t | f | bulk | int | symbol | object | records => exact h.elim

/-- The tokens of a container are not those of an object. -/
theorem toks_pair_ne (car cdr w : Val) : toks encoding (.pair car cdr) ≠ [.item w] := by
  rw [toks]
  split_ifs <;> exact fun h => nomatch (List.cons.inj h).1

/-- Reading does not get to the end of a text in which an element is false. -/
theorem not_settles_of_hasFalse {fmt : Val → List UInt8} {v w : Val} (hv : Readable v)
    (hfalse : HasFalse v) :
    ¬ Settles (fun fuel => jsonRead encoding fuel (dispJ encoding fmt v)) (some w, []) := by
  rintro ⟨n, hn⟩
  obtain ⟨ks, ⟨q, hscan, hq⟩, hpassed⟩ := (passed_jsonRead n).1 _ _ _ (hn n le_rfl)
  have hend : jsonToken encoding q = none := by
    rcases hq with rfl | ⟨hend, -⟩
    · exact jsonToken_nil
    · exact hend
  have hwhole : Scan encoding (dispJ encoding fmt v ++ []) _ [] :=
      (tokenized v).value hv [] ends_nil
  rw [List.append_nil] at hwhole
  obtain rfl := hscan.unique hend hwhole jsonToken_nil
  rcases hpassed with hitem | ⟨-, -, hnone⟩
  · cases v with
    | pair car cdr => exact toks_pair_ne car cdr w hitem
    | nil | t | f | bulk | int | symbol | object | records => exact hfalse.elim
  · exact hnone ((balance_toks v).1 hv) (mem_toks_of_hasFalse hfalse).1

/-- All of a string is characters of the encoding, and none of them is a newline. -/
def KeepsStr (encoding : Snip.SenEncoding) (s : List UInt8) : Prop :=
  (charsOf encoding s).flatten = s ∧ [0x0a] ∉ charsOf encoding s

instance (s : List UInt8) : Decidable (KeepsStr encoding s) := inferInstanceAs (Decidable (_ ∧ _))

theorem length_readBackChar (c : List UInt8) : (readBackChar c).length = c.length := by
  unfold readBackChar
  split_ifs with h
  · rw [h]
    rfl
  · rfl

theorem readBackChar_eq_iff (c : List UInt8) : readBackChar c = c ↔ c ≠ [0x0a] := by
  unfold readBackChar
  split_ifs with h
  · rw [h]
    decide
  · exact iff_of_true rfl h

theorem flatMap_readBackChar_iff (cs : List (List UInt8)) :
    cs.flatMap readBackChar = cs.flatten ↔ [0x0a] ∉ cs := by
  induction cs with
  | nil => exact iff_of_true rfl List.not_mem_nil
  | cons c cs ih =>
      rw [List.flatMap_cons, List.flatten_cons, List.mem_cons, not_or, ← ih]
      refine ⟨fun h => ?_, fun h => ?_⟩
      · obtain ⟨hc, hcs⟩ := List.append_inj h (length_readBackChar c)
        exact ⟨((readBackChar_eq_iff c).mp hc).symm, hcs⟩
      · rw [h.2, (readBackChar_eq_iff c).mpr fun hc => h.1 hc.symm]

theorem length_flatMap_readBackChar (cs : List (List UInt8)) :
    (cs.flatMap readBackChar).length = cs.flatten.length := by
  induction cs with
  | nil => rfl
  | cons c cs ih =>
      rw [List.flatMap_cons, List.flatten_cons, List.length_append, List.length_append, ih,
        length_readBackChar]

theorem readBackStr_iff (s : List UInt8) :
    readBackStr encoding s = s ↔ KeepsStr encoding s := by
  have hlen := length_flatMap_readBackChar (charsOf encoding s)
  refine ⟨fun h => ?_, fun h => ?_⟩
  · rw [← readBackStr, h] at hlen
    have hflat := (prefix_flatten_charsOf s).eq_of_length hlen.symm
    refine ⟨hflat, (flatMap_readBackChar_iff _).mp ?_⟩
    rw [hflat]
    exact h
  · rw [readBackStr, (flatMap_readBackChar_iff _).mpr h.2, h.1]

/-- Neither an element that is false, nor the least integer, nor a string with a newline or with
something that is no character. -/
def Keeps (encoding : Snip.SenEncoding) : Val → Prop
  | .bulk value => KeepsStr encoding value
  | .int i => i ≠ I64.least
  | .pair car cdr => car ≠ .f ∧ Keeps encoding car ∧ Keeps encoding cdr
  | _ => True

theorem readBackInt_iff (i : I64) : readBackInt i = .int i ↔ i ≠ I64.least := by
  unfold readBackInt
  split_ifs with h
  · exact iff_of_false nofun fun hne => hne h
  · exact iff_of_true rfl h

theorem keeps_iff (v : Val) : Keeps encoding v ↔ ¬ HasFalse v ∧ readBack encoding v = v := by
  induction v with
  | bulk value =>
      rw [Keeps, ← readBackStr_iff, readBack, Val.bulk.injEq]
      exact (and_iff_right id).symm
  | int i =>
      rw [Keeps, ← readBackInt_iff, readBack]
      exact (and_iff_right id).symm
  | pair car cdr ihcar ihcdr =>
      rw [Keeps, ihcar, ihcdr, HasFalse, readBack, Val.pair.injEq]
      tauto
  | nil | t | f | symbol | object | records => exact iff_of_true trivial ⟨id, rfl⟩

/-- **When a text is read as the value that it was written for**: no element of a list or object is
false, no integer is the least one, and strings are whole characters without a newline. -/
theorem jsonRead_dispJ_iff {fmt : Val → List UInt8} {v : Val} (hv : Readable v) :
    Settles (fun fuel => jsonRead encoding fuel (dispJ encoding fmt v)) (some v, []) ↔
      Keeps encoding v := by
  rw [keeps_iff]
  by_cases hfalse : HasFalse v
  · exact iff_of_false (not_settles_of_hasFalse hv hfalse) fun h => h.1 hfalse
  · have hscan : Scan encoding (dispJ encoding fmt v ++ []) _ [] :=
      (tokenized v).value hv [] ends_nil
    rw [List.append_nil] at hscan
    have hread := (settles_toks v hfalse).1 hv _ _ hscan
    refine ⟨fun h => ⟨hfalse, ?_⟩, fun h => ?_⟩
    · exact Option.some.inj (Prod.mk.inj (hread.unique h)).1
    · rwa [h.2] at hread

end

/-- The list of 7, `a"` and true is read as it was. -/
theorem jsonRead_dispJ_iff_list :
    let v : Val := .pair (.int (I64.wrap 7)) (.pair (.bulk [0x61, 0x22]) (.pair .t .nil))
    Settles (fun fuel => jsonRead .utf8 fuel (dispJ .utf8 (fun _ => []) v)) (some v, []) :=
  (jsonRead_dispJ_iff (.list (.int _) (.pair (.bulk _) (.pair .t .nil)))).mpr
    ⟨nofun, show I64.wrap 7 ≠ I64.least by decide, nofun,
      show KeepsStr .utf8 [0x61, 0x22] by decide, nofun, trivial, trivial⟩

/-- The text `[false]` is not read to its end, and a newline is read as an `n`. -/
theorem jsonRead_dispJ_fails :
    (¬ ∀ (fmt : Val → List UInt8) (v : Val), Readable v →
      Settles (fun fuel => jsonRead .utf8 fuel (dispJ .utf8 fmt v)) (some v, [])) ∧
    Settles (fun fuel => jsonRead .utf8 fuel (dispJ .utf8 (fun _ => []) (.bulk [0x0a])))
      (some (.bulk [0x6e]), []) := by
  refine ⟨fun hall => ?_, settles_item ?_⟩
  · exact not_settles_of_hasFalse (.list .f .nil) (.inl rfl)
      (hall (fun _ => []) (.pair .f .nil) (.list .f .nil))
  · have htoken := @jsonToken_string .utf8 [0x0a] []
    rwa [List.append_nil] at htoken

end Senna.Scm
