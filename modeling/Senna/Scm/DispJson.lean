/-
# Strings and integers of JSON

`disp_j` prints strings, names and keys with `sen_rbuf_str_esc`, which was made for the printer of
expressions: it escapes no control character but the newline, and a NUL ends the string. What it
prints is read back as the string exactly where nothing else is to be escaped. An integer is read
back unless it is the least one.
-/

import Senna.Lib.Json
import Senna.Scm.Disp

namespace Senna.Scm

open Senna.Lib (Json)
open Senna.Lib.Json
open Senna.Query (senStrCharlenNonnull)
open Senna.Snip (SenEncoding)
open Senna.Str (charsOf charsOf_append IsCharOf strEscChar strEscSource
  flatten_strEscPieces strEscSource_length contBytes leadingOnes senStrCharlenUtf8 decimalText
  digitsOf digitChar)

/-- The bytes of a character are one byte of ASCII, or a first byte that tells how many follow. -/
theorem utf8EncodeChar_shape (c : Char) :
    (∃ b, b < 0x80 ∧ String.utf8EncodeChar c = [b]) ∨
      ∃ b t, String.utf8EncodeChar c = b :: t ∧ t ≠ [] ∧ 0x80 ≤ b ∧ b &&& 0x80 ≠ 0 ∧
        leadingOnes b = t.length ∧ ∀ x ∈ t, 0x80 ≤ x ∧ x &&& 0xc0 = 0x80 := by
  have htail : ∀ n : Nat, 0x80 ≤ UInt8.ofNat (n % 64 + 128) ∧
      UInt8.ofNat (n % 64 + 128) &&& 0xc0 = 0x80 := by
    have h : ∀ n < 64, 0x80 ≤ UInt8.ofNat (n + 128) ∧ UInt8.ofNat (n + 128) &&& 0xc0 = 0x80 := by
      decide
    exact fun n => h (n % 64) (Nat.mod_lt n (by decide))
  have hpair : ∀ n < 32, 0x80 ≤ UInt8.ofNat (n + 192) ∧ UInt8.ofNat (n + 192) &&& 0x80 ≠ 0 ∧
      leadingOnes (UInt8.ofNat (n + 192)) = 1 := by decide
  have htriple : ∀ n < 16, 0x80 ≤ UInt8.ofNat (n + 224) ∧ UInt8.ofNat (n + 224) &&& 0x80 ≠ 0 ∧
      leadingOnes (UInt8.ofNat (n + 224)) = 2 := by decide
  have hquad : ∀ n < 8, 0x80 ≤ UInt8.ofNat (n + 240) ∧ UInt8.ofNat (n + 240) &&& 0x80 ≠ 0 ∧
      leadingOnes (UInt8.ofNat (n + 240)) = 3 := by decide
  rw [String.utf8EncodeChar]
  split_ifs with h₁ h₂ h₃
  · refine .inl ⟨_, ?_, rfl⟩
    rw [UInt8.lt_iff_toNat_lt, UInt8.toNat_ofNat']
    exact lt_of_le_of_lt (Nat.mod_le _ _) (Nat.lt_succ_of_le h₁)
  · obtain ⟨hb, hand, hones⟩ := hpair (c.val.toNat / 64 % 32) (Nat.mod_lt _ (by decide))
    exact .inr ⟨_, _, rfl, List.cons_ne_nil _ _, hb, hand, hones,
      List.forall_mem_singleton.mpr (htail c.val.toNat)⟩
  · obtain ⟨hb, hand, hones⟩ := htriple (c.val.toNat / 4096 % 16) (Nat.mod_lt _ (by decide))
    exact .inr ⟨_, _, rfl, List.cons_ne_nil _ _, hb, hand, hones,
      List.forall_mem_cons.mpr ⟨htail (c.val.toNat / 64),
        List.forall_mem_singleton.mpr (htail c.val.toNat)⟩⟩
  · obtain ⟨hb, hand, hones⟩ := hquad (c.val.toNat / 262144 % 8) (Nat.mod_lt _ (by decide))
    exact .inr ⟨_, _, rfl, List.cons_ne_nil _ _, hb, hand, hones,
      List.forall_mem_cons.mpr ⟨htail (c.val.toNat / 4096),
        List.forall_mem_cons.mpr ⟨htail (c.val.toNat / 64),
          List.forall_mem_singleton.mpr (htail c.val.toNat)⟩⟩⟩

/-- Continuation bytes are counted as such. -/
theorem contBytes_of_forall {t : List UInt8} (ht : ∀ x ∈ t, 0x80 ≤ x ∧ x &&& 0xc0 = 0x80)
    (r : List UInt8) : contBytes t.length (t ++ r) = true := by
  induction t with
  | nil => rfl
  | cons x t ih =>
      obtain ⟨hx, hand⟩ := ht x List.mem_cons_self
      have hne : x ≠ 0 := fun h => absurd (h ▸ hx) (by decide)
      rw [List.length_cons, List.cons_append, contBytes, ih fun y hy =>
          ht y (List.mem_cons_of_mem x hy)]
      simp [hne, hand]

/-- Characters are what `sen_str_charlen_nonnull` takes for one, apart from NUL. -/
theorem isCharOf_utf8 {c : Char} (hc : String.utf8EncodeChar c ≠ [0]) :
    IsCharOf .utf8 (String.utf8EncodeChar c) := by
  rcases utf8EncodeChar_shape c with ⟨b, hb, hchar⟩ | ⟨b, t, hchar, hne, hb, hand, hones, ht⟩
  · rw [hchar] at hc ⊢
    have hzero : b ≠ 0 := fun h => hc (by rw [h])
    have hand : ∀ n < 128, UInt8.ofNat n &&& 0x80 = 0 := by decide
    have hbit := hand b.toNat (UInt8.lt_iff_toNat_lt.mp hb)
    rw [UInt8.ofNat_toNat] at hbit
    exact ⟨List.cons_ne_nil _ _, fun r => by simp [senStrCharlenNonnull, senStrCharlenUtf8, hzero,
        hbit]⟩
  · rw [hchar]
    have hzero : b ≠ 0 := fun h => absurd (h ▸ hb) (by decide)
    have hlen : t.length ≠ 0 := (List.length_pos_of_ne_nil hne).ne'
    refine ⟨List.cons_ne_nil _ _, fun r => ?_⟩
    simp [senStrCharlenNonnull, senStrCharlenUtf8, hzero, hand, hones, hne,
        contBytes_of_forall ht r]

/-- What is printed for a byte of a string. -/
def escByte (b : UInt8) : List UInt8 := strEscChar [b]

/-- Other bytes are printed as they are. -/
theorem escByte_eq_self {b : UInt8} (h : b ≠ 0x0a ∧ b ≠ 0x22 ∧ b ≠ 0x5c) : escByte b = [b] := by
  unfold escByte strEscChar
  split
  · next heq => exact absurd (List.singleton_inj.mp heq) h.1
  · next heq => exact absurd (List.singleton_inj.mp heq) h.2.1
  · next heq => exact absurd (List.singleton_inj.mp heq) h.2.2
  · rfl

/-- So are the bytes of all characters outside ASCII. -/
theorem flatMap_escByte_of_le {p : List UInt8} (hp : ∀ b ∈ p, 0x80 ≤ b) :
    p.flatMap escByte = p := by
  induction p with
  | nil => rfl
  | cons b p ih =>
      have hb : ∀ c : UInt8, c < 0x80 → b ≠ c := fun c hc h =>
        absurd (h ▸ hp b List.mem_cons_self) (UInt8.not_le.mpr hc)
      rw [List.flatMap_cons, ih fun c hc => hp c (List.mem_cons_of_mem b hc),
        escByte_eq_self ⟨hb _ (by decide), hb _ (by decide), hb _ (by decide)⟩]
      rfl

/-- A string of characters is printed byte by byte, up to a NUL. -/
theorem flatMap_strEscChar_utf8 {s : List UInt8} (hs : IsUtf8 s) :
    (charsOf .utf8 s).flatMap strEscChar = (s.takeWhile (· ≠ 0)).flatMap escByte := by
  obtain ⟨cs, rfl⟩ := hs
  induction cs with
  | nil => rfl
  | cons c cs ih =>
      rw [show utf8 (c :: cs) = String.utf8EncodeChar c ++ utf8 cs from List.flatMap_cons]
      by_cases hnul : String.utf8EncodeChar c = [0]
      · rw [hnul]
        rfl
      rw [charsOf_append (isCharOf_utf8 hnul), List.flatMap_cons, ih]
      rcases utf8EncodeChar_shape c with ⟨b, hb, hchar⟩ | ⟨b, t, hchar, hne, hb, -, -, ht⟩
      · rw [hchar] at hnul ⊢
        have hzero : b ≠ 0 := fun h => hnul (by rw [h])
        rw [List.singleton_append, List.takeWhile_cons_of_pos (by simpa using hzero),
          List.flatMap_cons]
        rfl
      · have hle : ∀ x ∈ b :: t, 0x80 ≤ x := List.forall_mem_cons.mpr ⟨hb, fun x hx => (ht x hx).1⟩
        have hzero : ∀ x ∈ b :: t, decide (x ≠ 0) = true := fun x hx =>
          decide_eq_true fun h => absurd (h ▸ hle x hx) (by decide)
        have hesc : strEscChar (b :: t) = b :: t := by
          obtain ⟨x, u, rfl⟩ := List.exists_cons_of_ne_nil hne
          simp [strEscChar]
        rw [hchar, List.takeWhile_append_of_pos hzero, List.flatMap_append,
          flatMap_escByte_of_le hle, hesc]

/-- No control character but newlines. -/
def Printable (s : List UInt8) : Prop := ∀ b ∈ s, 0x20 ≤ b ∨ b = 0x0a

instance (s : List UInt8) : Decidable (Printable s) := List.decidableBAll _ s

theorem printable_cons {b : UInt8} {s : List UInt8} :
    Printable (b :: s) ↔ (0x20 ≤ b ∨ b = 0x0a) ∧ Printable s := List.forall_mem_cons

/-- The text of a byte is read as that byte, if it may be there. -/
theorem readUnit_escByte {b : UInt8} (hb : 0x20 ≤ b ∨ b = 0x0a) (p : List UInt8) :
    readUnit (escByte b ++ p) = some ([b], p) ∧ (escByte b ++ p).head? ≠ some 0x22 := by
  by_cases hnewline : b = 0x0a
  · subst hnewline
    exact ⟨rfl, nofun⟩
  by_cases hquote : b = 0x22
  · subst hquote
    exact ⟨rfl, nofun⟩
  by_cases hback : b = 0x5c
  · subst hback
    exact ⟨rfl, nofun⟩
  rw [escByte_eq_self ⟨hnewline, hquote, hback⟩, List.singleton_append,
    readUnit_byte hback (hb.resolve_right hnewline), List.head?_cons]
  exact ⟨rfl, fun h => hquote (Option.some.inj h)⟩

/-- A control character is printed as it is, and not read. -/
theorem readUnit_escByte_control {b : UInt8} (hb : ¬ (0x20 ≤ b ∨ b = 0x0a)) (p : List UInt8) :
    readUnit (escByte b ++ p) = none ∧ (escByte b ++ p).head? ≠ some 0x22 := by
  obtain ⟨hlow, hnewline⟩ := not_or.mp hb
  have hquote : b ≠ 0x22 := fun h => hlow (h ▸ by decide)
  have hback : b ≠ 0x5c := fun h => hlow (h ▸ by decide)
  rw [escByte_eq_self ⟨hnewline, hquote, hback⟩, List.singleton_append,
    readUnit_control hback (UInt8.not_le.mp hlow), List.head?_cons]
  exact ⟨rfl, fun h => hquote (Option.some.inj h)⟩

/-- The text of a string that may be there is read as that string. -/
theorem readString_escaped {t : List UInt8} (ht : Printable t) {n : Nat} (hn : t.length < n)
    (r : List UInt8) : readString n (t.flatMap escByte ++ 0x22 :: r) = some (t, r) := by
  induction t generalizing n with
  | nil =>
      obtain ⟨n, rfl⟩ := Nat.exists_eq_add_of_lt hn
      exact readString_quote _ r
  | cons b t ih =>
      obtain ⟨n, rfl⟩ := Nat.exists_eq_add_of_lt hn
      obtain ⟨hb, ht⟩ := printable_cons.mp ht
      obtain ⟨hunit, hquote⟩ := readUnit_escByte hb (t.flatMap escByte ++ 0x22 :: r)
      rw [List.flatMap_cons, List.append_assoc, readString_unit _ hquote hunit,
        ih ht (by rw [List.length_cons]; omega)]
      rfl

/-- And no other string is. -/
theorem printable_of_readString {t s r r' : List UInt8} {n : Nat}
    (h : readString n (t.flatMap escByte ++ 0x22 :: r) = some (s, r')) :
    Printable t ∧ s = t ∧ r' = r := by
  induction t generalizing n s with
  | nil =>
      cases n with
      | zero => cases h
      | succ n =>
          rw [List.flatMap_nil, List.nil_append, readString_quote] at h
          cases h
          exact ⟨List.forall_mem_nil _, rfl, rfl⟩
  | cons b t ih =>
      rw [List.flatMap_cons, List.append_assoc] at h
      by_cases hb : 0x20 ≤ b ∨ b = 0x0a
      · obtain ⟨hunit, hquote⟩ := readUnit_escByte hb (t.flatMap escByte ++ 0x22 :: r)
        cases n with
        | zero => cases h
        | succ n =>
            rw [readString_unit _ hquote hunit] at h
            obtain ⟨⟨s', r''⟩, hread, heq⟩ := Option.map_eq_some_iff.mp h
            cases heq
            obtain ⟨ht, rfl, rfl⟩ := ih hread
            exact ⟨printable_cons.mpr ⟨hb, ht⟩, rfl, rfl⟩
      · obtain ⟨hunit, hquote⟩ := readUnit_escByte_control hb (t.flatMap escByte ++ 0x22 :: r)
        rw [readString_none _ hquote hunit] at h
        cases h

/-- Escapes keep characters whole. -/
theorem isUtf8_flatMap_escByte {s : List UInt8} (hs : IsUtf8 s) : IsUtf8 (s.flatMap escByte) := by
  have hascii : ∀ b : UInt8, b < 0x80 → ∀ x ∈ escByte b, x < 0x80 := by
    intro b hb x hx
    unfold escByte strEscChar at hx
    split at hx <;> simp only [List.mem_cons, List.not_mem_nil, or_false] at hx
    · rcases hx with rfl | rfl <;> decide
    · rcases hx with rfl | rfl <;> decide
    · rcases hx with rfl | rfl <;> decide
    · exact hx ▸ hb
  obtain ⟨cs, rfl⟩ := hs
  induction cs with
  | nil => exact .nil
  | cons c cs ih =>
      rw [show utf8 (c :: cs) = String.utf8EncodeChar c ++ utf8 cs from List.flatMap_cons,
        List.flatMap_append]
      refine .append ?_ ih
      rcases utf8EncodeChar_shape c with ⟨b, hb, hchar⟩ | ⟨b, t, hchar, -, hb, -, -, ht⟩
      · rw [hchar, List.flatMap_singleton]
        exact .ascii (List.all_eq_true.mpr fun x hx => decide_eq_true (hascii b hb x hx))
      · rw [flatMap_escByte_of_le (hchar ▸ List.forall_mem_cons.mpr ⟨hb, fun x hx => (ht x hx).1⟩)]
        exact ⟨[c], (List.flatMap_singleton _ _).symm⟩

section

variable {s r r' : List UInt8} {len : Int}

/-- The text of a string that ends before its first NUL. -/
theorem escaped_utf8 (hs : IsUtf8 s) (hlen : strEscSource s len = s) :
    escaped .utf8 s len = 0x22 :: (s.takeWhile (· ≠ 0)).flatMap escByte ++ [0x22] := by
  rw [escaped, flatten_strEscPieces, hlen, flatMap_strEscChar_utf8 hs]

theorem takeWhile_of_printable (h : Printable s) : s.takeWhile (· ≠ 0) = s := by
  rw [List.takeWhile_eq_self_iff]
  refine fun b hb => decide_eq_true fun hzero => ?_
  exact absurd (hzero ▸ h b hb) (by decide)

/-- This text consists of characters again. -/
theorem isUtf8_escaped (hs : IsUtf8 s) (hlen : strEscSource s len = s) (hprint : Printable s) :
    IsUtf8 (escaped .utf8 s len) := by
  rw [escaped_utf8 hs hlen, takeWhile_of_printable hprint]
  exact .cons (by decide) (.append (isUtf8_flatMap_escByte hs) (.cons (by decide) .nil))

theorem length_le_flatMap_escByte (t : List UInt8) : t.length ≤ (t.flatMap escByte).length := by
  have hpos : ∀ b, 1 ≤ (escByte b).length := by
    intro b
    unfold escByte strEscChar
    split <;> simp
  induction t with
  | nil => exact le_rfl
  | cons b t ih =>
      rw [List.flatMap_cons, List.length_append, List.length_cons]
      have := hpos b
      omega

/-- A string of printable characters is read back. -/
theorem readValue_escaped (hs : IsUtf8 s) (hlen : strEscSource s len = s) (hprint : Printable s)
    (n : Nat) : readValue (n + 1) (escaped .utf8 s len ++ r) = some (.str s, r) := by
  have hle := length_le_flatMap_escByte s
  rw [escaped_utf8 hs hlen, takeWhile_of_printable hprint, List.append_assoc, List.cons_append,
    readValue_string, List.singleton_append,
    readString_escaped hprint (by rw [List.length_append]; omega)]
  rfl

/-- Only a string of printable characters is read back as a value, -/
theorem printable_of_readValue (hs : IsUtf8 s) (hlen : strEscSource s len = s) {n : Nat}
    (h : readValue n (escaped .utf8 s len ++ r) = some (.str s, r')) : Printable s ∧ r' = r := by
  cases n with
  | zero => cases h
  | succ n =>
      rw [escaped_utf8 hs hlen, List.append_assoc, List.cons_append, readValue_string,
        List.singleton_append] at h
      obtain ⟨⟨s', q⟩, hread, heq⟩ := Option.map_eq_some_iff.mp h
      cases heq
      obtain ⟨hprint, hsame, rfl⟩ := printable_of_readString hread
      exact ⟨hsame ▸ hprint, rfl⟩

/-- A key is read back. -/
theorem readKey_escaped (hs : IsUtf8 s) (hlen : strEscSource s len = s) (hprint : Printable s) :
    readKey (escaped .utf8 s len ++ 0x3a :: r) = some (s, r) := by
  have hle := length_le_flatMap_escByte s
  rw [escaped_utf8 hs hlen, takeWhile_of_printable hprint, List.append_assoc, List.cons_append,
    readKey, skipBlanks_of_not rfl, List.head?_cons, if_pos rfl, List.tail_cons,
    List.singleton_append,
    readString_escaped hprint (by rw [List.length_cons, List.length_append]; omega)]
  rfl

/-- and as a key. -/
theorem printable_of_readKey (hs : IsUtf8 s) (hlen : strEscSource s len = s)
    (h : readKey (escaped .utf8 s len ++ 0x3a :: r) = some (s, r')) : Printable s ∧ r' = r := by
  rw [escaped_utf8 hs hlen, List.append_assoc, List.cons_append, readKey, skipBlanks_of_not rfl,
    List.head?_cons, if_pos rfl, List.tail_cons, List.singleton_append] at h
  obtain ⟨⟨s', q⟩, hread, heq⟩ := Option.bind_eq_some_iff.mp h
  obtain ⟨hprint, rfl, rfl⟩ := printable_of_readString hread
  rw [skipBlanks_of_not rfl, List.head?_cons, if_pos rfl, List.tail_cons] at heq
  obtain ⟨hsame, rfl⟩ := Prod.mk.inj (Option.some.inj heq)
  exact ⟨hsame ▸ hprint, rfl⟩

end

/-- What comes behind a value. -/
def Follows (r : List UInt8) : Prop := ∀ b ∈ r.head?, b ∈ [0x2c, 0x3a, 0x5d, 0x7d]

theorem follows_nil : Follows [] := fun _ h => nomatch h

theorem digitsValue_map {ds : List Nat} (hds : ∀ d ∈ ds, d < 10) :
    digitsValue (ds.map digitChar) = Str.numeral 10 0 ds := by
  rw [digitsValue, Str.numeral, List.foldl_map]
  refine List.foldl_ext _ _ _ fun v d hd => ?_
  rw [Str.toNat_digitChar (hds d hd)]

/-- The digits of `n`, the first one first. -/
def digitText (n : Nat) : List UInt8 := ((digitsOf n).map digitChar).reverse

/-- Only zero itself begins with a zero. -/
theorem digitText_head (n : Nat) (h : (digitText n).head? = some 0x30) :
    (digitText n).length = 1 := by
  by_cases hn : n = 0
  · rw [hn]
    rfl
  · have hne : Nat.digits 10 n ≠ [] := Nat.digits_ne_nil_iff_ne_zero.mpr hn
    have hlast := Nat.getLast_digit_ne_zero 10 hn
    have hlt := Nat.digits_lt_base (b := 10) (by decide) (List.getLast_mem hne)
    have hdigits : digitsOf n = Nat.digits 10 n := by rw [digitsOf, if_neg hn]
    rw [digitText, List.head?_reverse, hdigits, List.getLast?_map,
        List.getLast?_eq_some_getLast hne,
      Option.map_some] at h
    have hzero : ∀ d < 10, digitChar d = 0x30 → d = 0 := by decide
    exact absurd (hzero _ hlt (Option.some.inj h)) hlast

/-- Digits are read up to what comes behind the value. -/
theorem readMagnitude_digitText (n : Nat) {r : List UInt8} (hr : Follows r) :
    readMagnitude (digitText n ++ r) = some ((n : ℚ), r) := by
  have hlt : ∀ d ∈ (digitsOf n).reverse, d < 10 := fun d hd =>
    Str.digitsOf_lt n d (List.mem_reverse.mp hd)
  have htext : digitText n = (digitsOf n).reverse.map digitChar := by
    rw [digitText, List.map_reverse]
  have hvalue : digitsValue (digitText n) = n := by
    rw [htext, digitsValue_map hlt, Str.numeral_reverse, Str.ofDigits_digitsOf]
  have hdigit : ∀ b ∈ digitText n, isDigit b = true := by
    intro b hb
    rw [htext] at hb
    obtain ⟨d, hd, rfl⟩ := List.mem_map.mp hb
    have hall : ∀ d < 10, isDigit (digitChar d) = true := by decide
    exact hall d (hlt d hd)
  have hne : digitText n ≠ [] := by
    rw [digitText, Ne, List.reverse_eq_nil_iff, List.map_eq_nil_iff]
    exact Str.digitsOf_ne_nil n
  have hstop : ∀ b ∈ ([0x2c, 0x3a, 0x5d, 0x7d] : List UInt8),
      isDigit b = false ∧ b ≠ 0x2e ∧ b ≠ 0x65 ∧ b ≠ 0x45 := by
    intro b hb
    simp only [List.mem_cons, List.not_mem_nil, or_false] at hb
    rcases hb with rfl | rfl | rfl | rfl <;> decide
  rw [readMagnitude_digits hdigit hne (digitText_head n) fun b hb => hstop b (hr b hb), hvalue]

/-- An integer is read back, unless it is the least one. -/
theorem readValue_int {i : I64} (hi : i ≠ I64.least) {r : List UInt8} (hr : Follows r) (n : Nat) :
    readValue (n + 1) (dispInt i ++ r) = some (.num i.val, r) := by
  have hmagnitude := readMagnitude_digitText i.val.natAbs hr
  rw [dispInt_eq hi, decimalText]
  split_ifs with hneg
  · rw [List.singleton_append, List.cons_append, readValue_scalar n rfl (by decide),
      readScalar_number (by decide), readNumber_minus, ← digitText, hmagnitude]
    have hval : i.val = -(i.val.natAbs : Int) := by omega
    simp only [Option.map_some]
    rw [hval]
    simp
  · obtain ⟨b, t, htext⟩ := List.exists_cons_of_ne_nil (l := digitText i.val.natAbs) (by
      rw [digitText, Ne, List.reverse_eq_nil_iff, List.map_eq_nil_iff]
      exact Str.digitsOf_ne_nil _)
    have hdigit : ∃ d < 10, b = digitChar d := by
      have hmem : b ∈ digitText i.val.natAbs := htext ▸ List.mem_cons_self
      obtain ⟨d, hd, rfl⟩ := List.mem_map.mp (List.mem_reverse.mp hmem)
      exact ⟨d, Str.digitsOf_lt _ d hd, rfl⟩
    obtain ⟨d, hd, rfl⟩ := hdigit
    have hbyte : ∀ d < 10, isBlank (digitChar d) = false ∧
        (digitChar d ≠ 0x5b ∧ digitChar d ≠ 0x7b ∧ digitChar d ≠ 0x22) ∧
        (digitChar d ≠ 0x74 ∧ digitChar d ≠ 0x66 ∧ digitChar d ≠ 0x6e) ∧
        digitChar d ≠ 0x2d := by decide
    obtain ⟨hblank, hopen, hscalar, hminus⟩ := hbyte d hd
    rw [htext, List.cons_append] at hmagnitude
    rw [List.nil_append, ← digitText, htext, List.cons_append, readValue_scalar n hblank hopen,
      readScalar_number hscalar, readNumber_plain hminus, hmagnitude]
    have hval : (i.val.natAbs : Int) = i.val := by omega
    simp only [Option.map_some]
    rw [← hval]
    simp

theorem isUtf8_dispInt {i : I64} (hi : i ≠ I64.least) : IsUtf8 (dispInt i) := by
  have hdigits : IsUtf8 (digitText i.val.natAbs) := by
    refine .ascii (List.all_eq_true.mpr fun b hb => decide_eq_true ?_)
    obtain ⟨d, hd, rfl⟩ := List.mem_map.mp (List.mem_reverse.mp hb)
    have hchar : ∀ d < 10, digitChar d < 0x80 := by decide
    exact hchar d (Str.digitsOf_lt _ d hd)
  rw [dispInt_eq hi, decimalText]
  split_ifs
  · exact .cons (by decide) hdigits
  · exact hdigits

/-- The least integer is printed without digits, and not read. -/
theorem readValue_least (n : Nat) (r : List UInt8) :
    readValue n (dispInt I64.least ++ r) = none := by
  rw [dispInt_least]
  cases n with
  | zero => rfl
  | succ n =>
      rw [List.cons_append, List.singleton_append, readValue_scalar n rfl (by decide),
        readScalar_number (by decide), readNumber_minus, readMagnitude_none rfl]
      rfl

end Senna.Scm
