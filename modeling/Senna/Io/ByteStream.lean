/-
# Streams of coded values

A stream is the codes of values one after another, and other bytes behind them. The four macros
of `io.h` find the same boundaries in it: reading `n` values, skipping them and copying them all
leave the stream at the code of the next value. A posting is told from a value by its first byte
where the posting lists use `0x8c`, `0x8d` and `0x8e` as marks. As the first byte of a code each of
them is the whole code, of the value with this number.
-/

import Senna.Io.Byte

namespace Senna.Io

/-- The codes of values, one after another. -/
def senBEncs (vs : List UInt32) : List UInt8 := vs.flatMap fun v => senBEnc v.toNat

/-- `SEN_B_DEC`, `n` times. -/
def senBDecs : Nat → List UInt8 → Option (List Nat × List UInt8)
  | 0, p => some ([], p)
  | n + 1, p =>
      match senBDec p with
      | none => none
      | some (v, p) => (senBDecs n p).map fun r => (v :: r.1, r.2)

/-- `SEN_B_SKIP`, `n` times. -/
def senBSkips : Nat → List UInt8 → Option (List UInt8)
  | 0, p => some p
  | n + 1, p =>
      match senBSkip p with
      | none => none
      | some p => senBSkips n p

/-- `SEN_B_COPY`, `n` times: the bytes that are written, and the stream that is left. -/
def senBCopies : Nat → List UInt8 → Option (List UInt8 × List UInt8)
  | 0, p => some ([], p)
  | n + 1, p =>
      match senBCopy p with
      | none => none
      | some (q, p) => (senBCopies n p).map fun r => (q ++ r.1, r.2)

/-- A code in front of other bytes is read, skipped and copied as a whole. -/
theorem senBEnc_append (v : UInt32) (p : List UInt8) :
    senBDec (senBEnc v.toNat ++ p) = some (v.toNat, p) ∧
      senBSkip (senBEnc v.toNat ++ p) = some p ∧
      senBCopy (senBEnc v.toNat ++ p) = some (senBEnc v.toNat, p) := by
  have hdec := senBDec_senBEnc v.toNat v.toNat_lt p
  obtain ⟨code, hcode, -, hskip, hcopy, -⟩ := senBDec_eq_some hdec
  obtain rfl := List.append_cancel_right hcode
  exact ⟨hdec, hskip, hcopy⟩

theorem senBEncs_cons (v : UInt32) (vs : List UInt32) :
    senBEncs (v :: vs) = senBEnc v.toNat ++ senBEncs vs := rfl

theorem senBEncs_append (vs ws : List UInt32) :
    senBEncs (vs ++ ws) = senBEncs vs ++ senBEncs ws := List.flatMap_append

theorem senBDecs_senBEncs (vs : List UInt32) (p : List UInt8) :
    senBDecs vs.length (senBEncs vs ++ p) = some (vs.map UInt32.toNat, p) := by
  induction vs with
  | nil => rfl
  | cons v vs ih =>
      rw [senBEncs_cons, List.append_assoc, List.length_cons, senBDecs,
        (senBEnc_append v _).1]
      simp only [ih, Option.map_some, List.map_cons]

theorem senBSkips_senBEncs (vs : List UInt32) (p : List UInt8) :
    senBSkips vs.length (senBEncs vs ++ p) = some p := by
  induction vs with
  | nil => rfl
  | cons v vs ih =>
      rw [senBEncs_cons, List.append_assoc, List.length_cons, senBSkips,
        (senBEnc_append v _).2.1]
      exact ih

theorem senBCopies_senBEncs (vs : List UInt32) (p : List UInt8) :
    senBCopies vs.length (senBEncs vs ++ p) = some (senBEncs vs, p) := by
  induction vs with
  | nil => rfl
  | cons v vs ih =>
      rw [senBEncs_cons, List.append_assoc, List.length_cons, senBCopies,
        (senBEnc_append v _).2.2]
      simp only [ih, Option.map_some]

/-- The first byte of a code is below `0x8f` only if it is the whole code. -/
theorem senBEnc_of_head_lt {v : Nat} {b : UInt8} {q : List UInt8} (hcode : senBEnc v = b :: q)
    (hb : b.toNat < 0x8f) : q = [] ∧ v = b.toNat := by
  unfold senBEnc at hcode
  simp only [Nat.shiftRight_eq_div_pow] at hcode
  split_ifs at hcode with h₁ h₂ h₃ h₄ <;>
    simp only [List.cons.injEq] at hcode <;> obtain ⟨rfl, rfl⟩ := hcode
  · exact ⟨rfl, by rw [toNat_cByte]; omega⟩
  -- the longer codes begin with `0xc0`, `0xa0`, `0x90` or more, or with `0x8f`
  · rw [toNat_cByte] at hb
    omega
  · rw [toNat_cByte] at hb
    omega
  · rw [toNat_cByte] at hb
    omega
  · exact absurd hb (by decide)

/-- **The macros agree on every stream of values.** Behind any number of values they have come to
the same place, with the values read and their codes copied; and a code that begins with one of the
marks is the mark alone. -/
theorem byteCoding_consistent :
    (∀ (v : UInt32) (p : List UInt8), senBDec (senBEnc v.toNat ++ p) = some (v.toNat, p) ∧
      senBSkip (senBEnc v.toNat ++ p) = some p ∧
      senBCopy (senBEnc v.toNat ++ p) = some (senBEnc v.toNat, p)) ∧
    (∀ (vs ws : List UInt32) (p : List UInt8),
      senBDecs vs.length (senBEncs (vs ++ ws) ++ p) =
        some (vs.map UInt32.toNat, senBEncs ws ++ p) ∧
      senBSkips vs.length (senBEncs (vs ++ ws) ++ p) = some (senBEncs ws ++ p) ∧
      senBCopies vs.length (senBEncs (vs ++ ws) ++ p) = some (senBEncs vs, senBEncs ws ++ p)) ∧
    (∀ (v : UInt32) (b : UInt8), (senBEnc v.toNat).head? = some b →
      b = 0x8c ∨ b = 0x8d ∨ b = 0x8e → senBEnc v.toNat = [b] ∧ v.toNat = b.toNat) := by
  refine ⟨senBEnc_append, fun vs ws p => ?_, fun v b hhead hmark => ?_⟩
  · rw [senBEncs_append, List.append_assoc]
    exact ⟨senBDecs_senBEncs vs _, senBSkips_senBEncs vs _, senBCopies_senBEncs vs _⟩
  · obtain ⟨q, hq⟩ := List.head?_eq_some_iff.mp hhead
    have hb : b.toNat < 0x8f := by
      rcases hmark with rfl | rfl | rfl <;> decide
    obtain ⟨rfl, hv⟩ := senBEnc_of_head_lt hq hb
    exact ⟨hq, hv⟩

end Senna.Io
