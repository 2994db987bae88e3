/-
# The characters of an escaped string

`sen_rbuf_str_esc` goes through a string character by character. It stops where
`sen_str_charlen_nonnull` finds none: in UTF-8 at a NUL or a byte that does not belong there, in
EUC-JP and Shift_JIS at half a character at the end. A character is one whatever comes behind it, so
that a reader of the escaped text finds the same ones.
-/

import Senna.Str.Rbuf

namespace Senna.Str

open Senna.Query (senStrCharlenNonnull senStrCharlenNonnull_le)

variable {encoding : Snip.SenEncoding}

theorem contBytes_append {w : Nat} {q : List UInt8} (h : contBytes w q) (r : List UInt8) :
    contBytes w (q.take w ++ r) := by
  induction w generalizing q with
  | zero => rfl
  | succ w ih =>
      cases q with
      | nil => simp [contBytes] at h
      | cons b q =>
          simp only [contBytes, Bool.and_eq_true, List.take_succ_cons, List.cons_append] at h ⊢
          exact ⟨h.1, ih h.2⟩

/-- A character is one whatever comes behind it. -/
theorem senStrCharlenNonnull_take {s : List UInt8} (h : senStrCharlenNonnull encoding s ≠ 0)
    (r : List UInt8) :
    senStrCharlenNonnull encoding (s.take (senStrCharlenNonnull encoding s) ++ r) =
      senStrCharlenNonnull encoding s := by
  cases s with
  | nil => exact absurd rfl h
  | cons b p =>
      cases encoding with
      | eucJp =>
          simp only [senStrCharlenNonnull] at h ⊢
          split_ifs at h ⊢ with hb hp
          · exact absurd rfl h
          · obtain ⟨c, q, rfl⟩ := List.exists_cons_of_ne_nil hp
            simp [hb]
          · simp only [List.take_succ_cons, List.cons_append, if_neg hb]
      | sjis =>
          simp only [senStrCharlenNonnull] at h ⊢
          split_ifs at h ⊢ with hb hkana hp
          · simp only [List.take_succ_cons, List.cons_append, if_pos hb, if_pos hkana]
          · exact absurd rfl h
          · obtain ⟨c, q, rfl⟩ := List.exists_cons_of_ne_nil hp
            simp only [List.take_succ_cons, List.cons_append, if_pos hb,
              if_neg hkana, if_neg (List.cons_ne_nil _ _)]
          · simp only [List.take_succ_cons, List.cons_append, if_neg hb]
      | utf8 =>
          simp only [senStrCharlenNonnull, senStrCharlenUtf8] at h ⊢
          split_ifs at h ⊢ with h₀ h₁ h₂ h₃
          · exact absurd rfl h
          · exact absurd rfl h
          · simp only [List.take_succ_cons, List.cons_append, if_neg h₀, if_pos h₁, if_neg h₂,
              if_pos (contBytes_append h₃ r)]
          · exact absurd rfl h
          · simp only [List.take_succ_cons, List.cons_append, if_neg h₀, if_neg h₁]
      | none | latin1 | koi8r => rfl

/-- `c` is a character of the encoding. -/
def IsCharOf (encoding : Snip.SenEncoding) (c : List UInt8) : Prop :=
  c ≠ [] ∧ ∀ r, senStrCharlenNonnull encoding (c ++ r) = c.length

/-- The characters of a string, up to the first place where there is none. -/
def charsOf (encoding : Snip.SenEncoding) (s : List UInt8) : List (List UInt8) :=
  strEscChars encoding s.length s

theorem isCharOf_strEscChars (fuel : Nat) (s : List UInt8) :
    ∀ c ∈ strEscChars encoding fuel s, IsCharOf encoding c := by
  induction fuel generalizing s with
  | zero => exact fun c hc => absurd hc List.not_mem_nil
  | succ fuel ih =>
      rw [strEscChars]
      split_ifs with h
      · exact fun c hc => absurd hc List.not_mem_nil
      · rw [List.forall_mem_cons]
        have hlen := List.length_take_of_le (senStrCharlenNonnull_le encoding s)
        refine ⟨⟨List.ne_nil_of_length_pos ?_, fun r => ?_⟩, ih _⟩
        · rw [hlen]
          exact Nat.pos_of_ne_zero h
        · rw [hlen]
          exact senStrCharlenNonnull_take h r

theorem isCharOf_of_mem_charsOf {s c : List UInt8} (hc : c ∈ charsOf encoding s) :
    IsCharOf encoding c :=
  isCharOf_strEscChars s.length s c hc

theorem flatten_strEscChars_prefix (fuel : Nat) (s : List UInt8) :
    (strEscChars encoding fuel s).flatten <+: s := by
  induction fuel generalizing s with
  | zero => exact List.nil_prefix
  | succ fuel ih =>
      rw [strEscChars]
      split_ifs with h
      · exact List.nil_prefix
      · obtain ⟨t, ht⟩ := ih (s.drop (senStrCharlenNonnull encoding s))
        refine ⟨t, ?_⟩
        rw [List.flatten_cons, List.append_assoc, ht, List.take_append_drop]

/-- The characters make up the string, or the start of it. -/
theorem prefix_flatten_charsOf (s : List UInt8) : (charsOf encoding s).flatten <+: s :=
  flatten_strEscChars_prefix s.length s

/-- Fuel for each byte is enough. -/
theorem strEscChars_of_le {fuel : Nat} {s : List UInt8} (h : s.length ≤ fuel) :
    strEscChars encoding fuel s = charsOf encoding s := by
  induction fuel using Nat.strong_induction_on generalizing s with
  | _ fuel ih =>
      obtain _ | fuel := fuel
      · rw [List.length_eq_zero_iff.mp (Nat.le_zero.mp h)]
        rfl
      · cases s with
        | nil => rfl
        | cons b p =>
            rw [charsOf, List.length_cons, strEscChars, strEscChars]
            split_ifs with hl
            · rfl
            · have hdrop := length_drop_lt hl (senStrCharlenNonnull_le encoding (b :: p))
              rw [List.length_cons] at h hdrop
              rw [ih fuel (Nat.lt_succ_self fuel) (by omega),
                ih p.length (by omega) (by omega)]

/-- The characters of a string that begins with one. -/
theorem charsOf_append {c : List UInt8} (hc : IsCharOf encoding c) (s : List UInt8) :
    charsOf encoding (c ++ s) = c :: charsOf encoding s := by
  have hlen := hc.2 s
  obtain ⟨b, p, rfl⟩ := List.exists_cons_of_ne_nil hc.1
  rw [charsOf, List.cons_append, List.length_cons, strEscChars, ← List.cons_append]
  rw [hlen, if_neg (List.length_pos_of_ne_nil hc.1).ne', List.take_left, List.drop_left,
    strEscChars_of_le (by simp)]

/-- What is put between quotes for a string. -/
theorem flatten_strEscPieces (s : List UInt8) (len : Int) :
    (strEscPieces s len encoding).flatten =
      0x22 :: (charsOf encoding (strEscSource s len)).flatMap strEscChar ++ [0x22] := by
  rw [strEscPieces]
  simp only [List.flatten_append, List.flatten_cons, List.flatten_nil, List.append_nil,
    List.nil_append, List.flatMap_def, charsOf, List.cons_append]

@[simp]
theorem strEscSource_length (s : List UInt8) : strEscSource s s.length = s := by
  rw [strEscSource, if_neg (by omega), Int.toNat_natCast, List.take_length]

end Senna.Str
