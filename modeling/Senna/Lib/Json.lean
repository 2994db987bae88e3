/-
# JSON

A reader of JSON texts as the standard has them: four kinds of blanks, escapes and surrogate
pairs in strings, no control character in a string that is not escaped, and numbers with a
fraction and an exponent. A text is a document if it is well-formed UTF-8 and the reader takes
all of it for one value. What a string stands for is given as UTF-8, and a number as a rational.

The reader needs some fuel for each bracket and each separator; a text gives more than that.
-/

import Mathlib.Tactic

namespace Senna.Lib

/-- A JSON value. -/
inductive Json
  | null
  | bool (b : Bool)
  | num (q : ℚ)
  | str (s : List UInt8)
  | arr (elements : List Json)
  | obj (members : List (List UInt8 × Json))

namespace Json

/-- The bytes of a text of characters. -/
def utf8 (cs : List Char) : List UInt8 := cs.flatMap String.utf8EncodeChar

/-- Well-formed UTF-8. -/
def IsUtf8 (p : List UInt8) : Prop := ∃ cs, p = utf8 cs

/-- A blank. -/
def isBlank (b : UInt8) : Bool := b = 0x20 ∨ b = 0x09 ∨ b = 0x0a ∨ b = 0x0d

/-- The text from the first byte on that is not blank. -/
def skipBlanks (p : List UInt8) : List UInt8 := p.dropWhile isBlank

/-- The value of a hexadecimal digit. -/
def hexValue (b : UInt8) : Option Nat :=
  if 0x30 ≤ b ∧ b ≤ 0x39 then some (b.toNat - 0x30)
  else if 0x41 ≤ b ∧ b ≤ 0x46 then some (b.toNat - 0x41 + 10)
  else if 0x61 ≤ b ∧ b ≤ 0x66 then some (b.toNat - 0x61 + 10)
  else none

/-- Four hexadecimal digits. -/
def readHex4 : List UInt8 → Option (Nat × List UInt8)
  | b₃ :: b₂ :: b₁ :: b₀ :: p => do
      let v₃ ← hexValue b₃
      let v₂ ← hexValue b₂
      let v₁ ← hexValue b₁
      let v₀ ← hexValue b₀
      some (((v₃ * 16 + v₂) * 16 + v₁) * 16 + v₀, p)
  | _ => none

/-- What stands behind `\u`: a character, or a high surrogate with the low one. -/
def readUnicode (p : List UInt8) : Option (List UInt8 × List UInt8) := do
  let (high, p) ← readHex4 p
  if 0xd800 ≤ high ∧ high ≤ 0xdbff then
    if p.take 2 = [0x5c, 0x75] then
      let (low, p) ← readHex4 (p.drop 2)
      if 0xdc00 ≤ low ∧ low ≤ 0xdfff then
        some (utf8 [Char.ofNat (0x10000 + (high - 0xd800) * 0x400 + (low - 0xdc00))], p)
      else none
    else none
  else if 0xdc00 ≤ high ∧ high ≤ 0xdfff then none
  else some (utf8 [Char.ofNat high], p)

/-- What one byte behind a backslash stands for. -/
def escapeValue (b : UInt8) : Option UInt8 :=
  if b = 0x22 ∨ b = 0x5c ∨ b = 0x2f then some b
  else if b = 0x62 then some 0x08
  else if b = 0x66 then some 0x0c
  else if b = 0x6e then some 0x0a
  else if b = 0x72 then some 0x0d
  else if b = 0x74 then some 0x09
  else none

/-- One byte of a string, or an escape. -/
def readUnit : List UInt8 → Option (List UInt8 × List UInt8)
  | [] => none
  | b :: p =>
      if b = 0x5c then
        match p with
        | [] => none
        | e :: p => if e = 0x75 then readUnicode p else (escapeValue e).map fun c => ([c], p)
      else if b < 0x20 then none
      else some ([b], p)

/-- A string from behind its first quote on. -/
def readString : Nat → List UInt8 → Option (List UInt8 × List UInt8)
  | 0, _ => none
  | fuel + 1, p =>
      if p.head? = some 0x22 then some ([], p.tail)
      else
        (readUnit p).bind fun u => (readString fuel u.2).map fun r => (u.1 ++ r.1, r.2)

/-- A decimal digit. -/
def isDigit (b : UInt8) : Bool := 0x30 ≤ b ∧ b ≤ 0x39

/-- The value of a run of digits. -/
def digitsValue (ds : List UInt8) : Nat := ds.foldl (fun v b => v * 10 + (b.toNat - 0x30)) 0

/-- The digits behind a point. -/
def readFraction (p : List UInt8) : Option (List UInt8 × List UInt8) :=
  if p.head? = some 0x2e then
    let ds := p.tail.takeWhile isDigit
    if ds = [] then none else some (ds, p.tail.dropWhile isDigit)
  else some ([], p)

/-- The number behind an `e`. -/
def readExponent (p : List UInt8) : Option (Int × List UInt8) :=
  if p.head? = some 0x65 ∨ p.head? = some 0x45 then
    let q := if p.tail.head? = some 0x2b ∨ p.tail.head? = some 0x2d then p.tail.tail else p.tail
    let ds := q.takeWhile isDigit
    if ds = [] then none
    else some (if p.tail.head? = some 0x2d then -digitsValue ds else digitsValue ds,
      q.dropWhile isDigit)
  else some (0, p)

/-- A number without its sign. -/
def readMagnitude (p : List UInt8) : Option (ℚ × List UInt8) :=
  let ds := p.takeWhile isDigit
  if ds = [] ∨ ds.head? = some 0x30 ∧ ds.length ≠ 1 then none
  else
    (readFraction (p.dropWhile isDigit)).bind fun f => (readExponent f.2).map fun e =>
      ((digitsValue (ds ++ f.1) : ℚ) * 10 ^ (e.1 - (f.1.length : Int)), e.2)

/-- A number. -/
def readNumber (p : List UInt8) : Option (ℚ × List UInt8) :=
  if p.head? = some 0x2d then (readMagnitude p.tail).map fun r => (-r.1, r.2)
  else readMagnitude p

/-- `true`, `false`, `null` or a number. -/
def readScalar (p : List UInt8) : Option (Json × List UInt8) :=
  if p.take 4 = [0x74, 0x72, 0x75, 0x65] then some (.bool true, p.drop 4)
  else if p.take 5 = [0x66, 0x61, 0x6c, 0x73, 0x65] then some (.bool false, p.drop 5)
  else if p.take 4 = [0x6e, 0x75, 0x6c, 0x6c] then some (.null, p.drop 4)
  else (readNumber p).map fun r => (.num r.1, r.2)

/-- A key and the colon behind it. -/
def readKey (p : List UInt8) : Option (List UInt8 × List UInt8) :=
  if (skipBlanks p).head? = some 0x22 then
    (readString (skipBlanks p).length (skipBlanks p).tail).bind fun r =>
      if (skipBlanks r.2).head? = some 0x3a then some (r.1, (skipBlanks r.2).tail) else none
  else none

/-- What follows on `a`: the end of the container, or a comma and what `next` reads. -/
def readNext {α : Type} (closer : UInt8) (next : List UInt8 → Option (List α × List UInt8)) (a : α)
    (p : List UInt8) : Option (List α × List UInt8) :=
  if (skipBlanks p).head? = some closer then some ([a], (skipBlanks p).tail)
  else if (skipBlanks p).head? = some 0x2c then
    (next (skipBlanks p).tail).map fun r => (a :: r.1, r.2)
  else none

mutual

/-- A value. -/
def readValue : Nat → List UInt8 → Option (Json × List UInt8)
  | 0, _ => none
  | fuel + 1, p =>
      match skipBlanks p with
      | [] => none
      | b :: p =>
          if b = 0x5b then
            if (skipBlanks p).head? = some 0x5d then some (.arr [], (skipBlanks p).tail)
            else (readElements fuel p).map fun r => (.arr r.1, r.2)
          else if b = 0x7b then
            if (skipBlanks p).head? = some 0x7d then some (.obj [], (skipBlanks p).tail)
            else (readMembers fuel p).map fun r => (.obj r.1, r.2)
          else if b = 0x22 then (readString (p.length + 1) p).map fun r => (.str r.1, r.2)
          else readScalar (b :: p)

/-- The elements of an array, of which there is one, and the closing bracket. -/
def readElements : Nat → List UInt8 → Option (List Json × List UInt8)
  | 0, _ => none
  | fuel + 1, p =>
      (readValue fuel p).bind fun r => readNext 0x5d (readElements fuel) r.1 r.2

/-- The members of an object, of which there is one, and the closing brace. -/
def readMembers : Nat → List UInt8 → Option (List (List UInt8 × Json) × List UInt8)
  | 0, _ => none
  | fuel + 1, p =>
      (readKey p).bind fun key => (readValue fuel key.2).bind fun r =>
        readNext 0x7d (readMembers fuel) (key.1, r.1) r.2

end

/-- The value of a text. -/
def parse (text : List UInt8) : Option Json :=
  (readValue (2 * text.length + 1) text).bind fun (j, p) =>
    if skipBlanks p = [] then some j else none

/-- A document is well-formed UTF-8 that the reader takes for a value. -/
def IsDocument (text : List UInt8) (j : Json) : Prop := IsUtf8 text ∧ parse text = some j

theorem IsUtf8.nil : IsUtf8 [] := ⟨[], rfl⟩

theorem IsUtf8.append {p q : List UInt8} (hp : IsUtf8 p) (hq : IsUtf8 q) : IsUtf8 (p ++ q) := by
  obtain ⟨cs, rfl⟩ := hp
  obtain ⟨ds, rfl⟩ := hq
  exact ⟨cs ++ ds, (List.flatMap_append).symm⟩

/-- A character of ASCII. -/
theorem utf8EncodeChar_ascii {b : UInt8} (hb : b < 0x80) :
    String.utf8EncodeChar (Char.ofNat b.toNat) = [b] := by
  have hlt : b.toNat < 128 := UInt8.lt_iff_toNat_lt.mp hb
  have hvalid : b.toNat.isValidChar := .inl (by omega)
  have hval : (Char.ofNat b.toNat).val.toNat = b.toNat := by
    rw [Char.ofNat, dif_pos hvalid]
    rfl
  rw [String.utf8EncodeChar]
  simp only [hval]
  rw [if_pos (by omega), UInt8.ofNat_toNat]

theorem IsUtf8.cons {b : UInt8} (hb : b < 0x80) {p : List UInt8} (hp : IsUtf8 p) :
    IsUtf8 (b :: p) :=
  .append ⟨[Char.ofNat b.toNat], by rw [utf8, List.flatMap_singleton, utf8EncodeChar_ascii hb]⟩ hp

/-- Text of ASCII. -/
theorem IsUtf8.ascii {p : List UInt8} (hp : p.all (· < 0x80)) : IsUtf8 p := by
  induction p with
  | nil => exact .nil
  | cons b p ih =>
      rw [List.all_cons, Bool.and_eq_true, decide_eq_true_eq] at hp
      exact .cons hp.1 (ih hp.2)

theorem skipBlanks_of_not {b : UInt8} (hb : isBlank b = false) (p : List UInt8) :
    skipBlanks (b :: p) = b :: p :=
  List.dropWhile_cons_of_neg (by rw [hb]; exact Bool.false_ne_true)

@[simp]
theorem skipBlanks_blank (p : List UInt8) : skipBlanks (0x20 :: p) = skipBlanks p :=
  List.dropWhile_cons_of_pos rfl

theorem readValue_blank (fuel : Nat) (p : List UInt8) :
    readValue fuel (0x20 :: p) = readValue fuel p := by
  cases fuel with
  | zero => rw [readValue, readValue]
  | succ fuel => rw [readValue, readValue, skipBlanks_blank]

theorem readKey_blank (p : List UInt8) : readKey (0x20 :: p) = readKey p := by
  rw [readKey, readKey, skipBlanks_blank]

theorem readUnit_byte {b : UInt8} (hback : b ≠ 0x5c) (hb : 0x20 ≤ b) (p : List UInt8) :
    readUnit (b :: p) = some ([b], p) := by
  rw [readUnit.eq_def]
  exact (if_neg hback).trans (if_neg (UInt8.not_lt.mpr hb))

theorem readUnit_control {b : UInt8} (hback : b ≠ 0x5c) (hb : b < 0x20) (p : List UInt8) :
    readUnit (b :: p) = none := by
  rw [readUnit.eq_def]
  exact (if_neg hback).trans (if_pos hb)

theorem readString_quote (fuel : Nat) (p : List UInt8) :
    readString (fuel + 1) (0x22 :: p) = some ([], p) := by
  rw [readString, List.head?_cons, if_pos rfl, List.tail_cons]

theorem readString_unit (fuel : Nat) {p q c : List UInt8} (hquote : p.head? ≠ some 0x22)
    (hunit : readUnit p = some (c, q)) :
    readString (fuel + 1) p = (readString fuel q).map fun r => (c ++ r.1, r.2) := by
  rw [readString, if_neg hquote, hunit, Option.bind_some]

theorem readString_none (fuel : Nat) {p : List UInt8} (hquote : p.head? ≠ some 0x22)
    (hunit : readUnit p = none) : readString fuel p = none := by
  cases fuel with
  | zero => rfl
  | succ fuel => rw [readString, if_neg hquote, hunit, Option.bind_none]

/-- A whole number without a fraction and an exponent. -/
theorem readMagnitude_digits {ds p : List UInt8} (hds : ∀ b ∈ ds, isDigit b = true)
    (hne : ds ≠ []) (hzero : ds.head? = some 0x30 → ds.length = 1)
    (hp : ∀ b ∈ p.head?, isDigit b = false ∧ b ≠ 0x2e ∧ b ≠ 0x65 ∧ b ≠ 0x45) :
    readMagnitude (ds ++ p) = some ((digitsValue ds : ℚ), p) := by
  have hstop : p.takeWhile isDigit = [] ∧ p.dropWhile isDigit = p := by
    cases p with
    | nil => exact ⟨rfl, rfl⟩
    | cons b p =>
        have hb : ¬ isDigit b = true := by rw [(hp b rfl).1]; exact Bool.false_ne_true
        exact ⟨List.takeWhile_cons_of_neg hb, List.dropWhile_cons_of_neg hb⟩
  have htake : (ds ++ p).takeWhile isDigit = ds := by
    rw [List.takeWhile_append_of_pos hds, hstop.1, List.append_nil]
  have hdrop : (ds ++ p).dropWhile isDigit = p := by
    rw [List.dropWhile_append_of_pos hds, hstop.2]
  have hfraction : readFraction p = some ([], p) := if_neg fun h => (hp 0x2e h).2.1 rfl
  have hexponent : readExponent p = some (0, p) :=
    if_neg fun h => h.elim (fun h => (hp 0x65 h).2.2.1 rfl) fun h => (hp 0x45 h).2.2.2 rfl
  have hhead : ¬ (ds = [] ∨ ds.head? = some 0x30 ∧ ds.length ≠ 1) :=
    fun h => h.elim hne fun h => h.2 (hzero h.1)
  rw [readMagnitude, htake, hdrop, if_neg hhead, hfraction, Option.bind_some, hexponent]
  simp

theorem readScalar_number {b : UInt8} (hb : b ≠ 0x74 ∧ b ≠ 0x66 ∧ b ≠ 0x6e) (p : List UInt8) :
    readScalar (b :: p) = (readNumber (b :: p)).map fun r => (.num r.1, r.2) := by
  have hhead : ∀ (k : Nat) (c : UInt8) (q : List UInt8), b ≠ c → (b :: p).take (k + 1) ≠ c :: q :=
    fun k c q hne h => hne (List.cons.inj h).1
  rw [readScalar, if_neg (hhead _ _ _ hb.1), if_neg (hhead _ _ _ hb.2.1),
    if_neg (hhead _ _ _ hb.2.2)]

theorem readNumber_minus (p : List UInt8) :
    readNumber (0x2d :: p) = (readMagnitude p).map fun r => (-r.1, r.2) := by
  rw [readNumber, List.head?_cons, if_pos rfl, List.tail_cons]

theorem readNumber_plain {b : UInt8} (hb : b ≠ 0x2d) (p : List UInt8) :
    readNumber (b :: p) = readMagnitude (b :: p) := by
  rw [readNumber, List.head?_cons, if_neg fun h => hb (Option.some.inj h)]

/-- What does not begin with a digit is no number. -/
theorem readMagnitude_none {b : UInt8} (hb : isDigit b = false) (p : List UInt8) :
    readMagnitude (b :: p) = none := by
  rw [readMagnitude, List.takeWhile_cons_of_neg (by rw [hb]; exact Bool.false_ne_true)]
  exact if_pos (.inl rfl)

theorem readNext_closer {α : Type} {closer : UInt8} (hcloser : isBlank closer = false)
    (next : List UInt8 → Option (List α × List UInt8)) (a : α) (p : List UInt8) :
    readNext closer next a (closer :: p) = some ([a], p) := by
  rw [readNext, skipBlanks_of_not hcloser, List.head?_cons, if_pos rfl, List.tail_cons]

theorem readNext_comma {α : Type} {closer : UInt8} (hcloser : closer ≠ 0x2c)
    (next : List UInt8 → Option (List α × List UInt8)) (a : α) (p : List UInt8) :
    readNext closer next a (0x2c :: p) = (next p).map fun r => (a :: r.1, r.2) := by
  rw [readNext, skipBlanks_of_not rfl, List.head?_cons,
    if_neg fun h => hcloser (Option.some.inj h).symm, if_pos rfl, List.tail_cons]

theorem readMembers_blank (fuel : Nat) (p : List UInt8) :
    readMembers fuel (0x20 :: p) = readMembers fuel p := by
  cases fuel with
  | zero => rw [readMembers, readMembers]
  | succ fuel => rw [readMembers, readMembers, readKey_blank]

/-- What is read begins with the element in front. -/
theorem readNext_head {α : Type} {closer : UInt8}
    {next : List UInt8 → Option (List α × List UInt8)} {a : α} {as : List α} {p r : List UInt8}
    (h : readNext closer next a p = some (as, r)) : ∃ t, as = a :: t := by
  unfold readNext at h
  split_ifs at h
  · cases h
    exact ⟨[], rfl⟩
  · obtain ⟨⟨t, q⟩, -, heq⟩ := Option.map_eq_some_iff.mp h
    cases heq
    exact ⟨t, rfl⟩

theorem readValue_bracket (fuel : Nat) (p : List UInt8) :
    readValue (fuel + 1) (0x5b :: p) =
      if (skipBlanks p).head? = some 0x5d then some (.arr [], (skipBlanks p).tail)
      else (readElements fuel p).map fun r => (.arr r.1, r.2) := by
  rw [readValue, skipBlanks_of_not rfl]
  rfl

theorem readValue_brace (fuel : Nat) (p : List UInt8) :
    readValue (fuel + 1) (0x7b :: p) =
      if (skipBlanks p).head? = some 0x7d then some (.obj [], (skipBlanks p).tail)
      else (readMembers fuel p).map fun r => (.obj r.1, r.2) := by
  rw [readValue, skipBlanks_of_not rfl]
  rfl

theorem readValue_string (fuel : Nat) (p : List UInt8) :
    readValue (fuel + 1) (0x22 :: p) =
      (readString (p.length + 1) p).map fun r => (.str r.1, r.2) := by
  rw [readValue, skipBlanks_of_not rfl]
  rfl

theorem readValue_scalar (fuel : Nat) {b : UInt8} (hblank : isBlank b = false)
    (hb : b ≠ 0x5b ∧ b ≠ 0x7b ∧ b ≠ 0x22) (p : List UInt8) :
    readValue (fuel + 1) (b :: p) = readScalar (b :: p) := by
  rw [readValue, skipBlanks_of_not hblank]
  exact (if_neg hb.1).trans ((if_neg hb.2.1).trans (if_neg hb.2.2))

/-- What stands behind a value is none. -/
theorem readValue_delimiter (fuel : Nat) {b : UInt8} (hb : b ∈ [0x2c, 0x3a, 0x5d, 0x7d])
    (p : List UInt8) : readValue fuel (b :: p) = none := by
  obtain ⟨hblank, hopen, hscalar, hminus, hdigit⟩ : isBlank b = false ∧
      (b ≠ 0x5b ∧ b ≠ 0x7b ∧ b ≠ 0x22) ∧ (b ≠ 0x74 ∧ b ≠ 0x66 ∧ b ≠ 0x6e) ∧ b ≠ 0x2d ∧
      isDigit b = false := by
    simp only [List.mem_cons, List.not_mem_nil, or_false] at hb
    rcases hb with rfl | rfl | rfl | rfl <;> decide
  cases fuel with
  | zero => rw [readValue]
  | succ fuel =>
      rw [readValue_scalar fuel hblank hopen, readScalar_number hscalar, readNumber_plain hminus,
        readMagnitude_none hdigit]
      rfl

/-- A closing bracket is no value. -/
theorem head_of_readValue {fuel : Nat} {p : List UInt8} {x : Json × List UInt8}
    (h : readValue fuel p = some x) : (skipBlanks p).head? ≠ some 0x5d := by
  intro hhead
  obtain ⟨q, hq⟩ : ∃ q, skipBlanks p = 0x5d :: q := by
    cases hskip : skipBlanks p with
    | nil => rw [hskip] at hhead; cases hhead
    | cons b q =>
        rw [hskip] at hhead
        exact ⟨q, congrArg (fun b => b :: q) (Option.some.inj hhead)⟩
  cases fuel with
  | zero => rw [readValue] at h; cases h
  | succ fuel =>
      have hsame : readValue (fuel + 1) p = readValue (fuel + 1) (0x5d :: q) := by
        rw [readValue, readValue, hq, skipBlanks_of_not rfl]
      rw [hsame, readValue_delimiter _ (by decide)] at h
      cases h

/-- A closing brace is no key. -/
theorem head_of_readMembers {fuel : Nat} {p : List UInt8}
    {x : List (List UInt8 × Json) × List UInt8} (h : readMembers fuel p = some x) :
    (skipBlanks p).head? ≠ some 0x7d := by
  intro hhead
  have hkey : readKey p = none := by
    rw [readKey, hhead]
    exact if_neg (by decide)
  cases fuel with
  | zero => rw [readMembers] at h; cases h
  | succ fuel =>
      rw [readMembers, hkey] at h
      cases h

/-- A brace begins an object. -/
theorem obj_of_readValue {fuel : Nat} {p r : List UInt8} {j : Json}
    (h : readValue fuel (0x7b :: p) = some (j, r)) : ∃ members, j = .obj members := by
  cases fuel with
  | zero => rw [readValue] at h; cases h
  | succ fuel =>
      rw [readValue_brace] at h
      split_ifs at h
      · cases h
        exact ⟨[], rfl⟩
      · obtain ⟨⟨members, q⟩, -, heq⟩ := Option.map_eq_some_iff.mp h
        cases heq
        exact ⟨members, rfl⟩

end Json

end Senna.Lib
