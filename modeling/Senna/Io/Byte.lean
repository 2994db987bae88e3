/-
# The variable-length byte coding of `io.h`

`SEN_B_ENC` writes a 32-bit value in one to five bytes; `SEN_B_DEC` reads it
back, `SEN_B_SKIP` steps over it and `SEN_B_COPY` moves it without decoding.
A pointer into a byte stream is modelled by the bytes from that pointer on.
Reading past the last byte is undefined in the source and `none` here.

The four macros agree on where a code ends, and that is the only fact the
posting streams of the inverted index need about them.
-/

import Mathlib.Tactic

namespace Senna.Io

/-- The conversion C performs when it stores an unsigned value in a `uint8_t`. -/
def cByte (n : Nat) : UInt8 := UInt8.ofNat n

@[simp]
theorem toNat_cByte (n : Nat) : (cByte n).toNat = n % 256 := by
  simp [cByte]

/-- The four bytes of `*((uint32_t *)p) = v` on a little-endian machine. -/
def le32 (v : Nat) : List UInt8 :=
  [cByte v, cByte (v >>> 8), cByte (v >>> 16), cByte (v >>> 24)]

/-- `v = *((uint32_t *)p); p += sizeof(uint32_t)`. -/
def readLe32 : List UInt8 → Option (Nat × List UInt8)
  | b₀ :: b₁ :: b₂ :: b₃ :: p =>
      some (b₀.toNat + b₁.toNat * 0x100 + b₂.toNat * 0x10000 + b₃.toNat * 0x1000000, p)
  | _ => none

/-- `SEN_B_ENC(v,p)`: the bytes written at `p`. -/
def senBEnc (v : Nat) : List UInt8 :=
  if v < 0x8f then
    [cByte v]
  else if v < 0x408f then
    let v := v - 0x8f
    [cByte (0xc0 + (v >>> 8)), cByte v]
  else if v < 0x20408f then
    let v := v - 0x408f
    [cByte (0xa0 + (v >>> 16)), cByte (v >>> 8), cByte v]
  else if v < 0x1020408f then
    let v := v - 0x20408f
    [cByte (0x90 + (v >>> 24)), cByte (v >>> 16), cByte (v >>> 8), cByte v]
  else
    0x8f :: le32 v

/-- `SEN_B_DEC(v,p)`: the value and the stream after it. The conditions are the
cases of the source's `switch (_v >> 4)`, in its order. -/
def senBDec : List UInt8 → Option (Nat × List UInt8)
  | [] => none
  | b :: p =>
      let v := b.toNat
      if v >>> 4 = 0x08 then
        if v = 0x8f then readLe32 p else some (v, p)
      else if v >>> 4 = 0x09 then
        match p with
        | b₁ :: b₂ :: b₃ :: p =>
            some ((((v - 0x90) * 0x100 + b₁.toNat) * 0x100 + b₂.toNat) * 0x100
              + b₃.toNat + 0x20408f, p)
        | _ => none
      else if v >>> 4 = 0x0a ∨ v >>> 4 = 0x0b then
        match p with
        | b₁ :: b₂ :: p =>
            some (((v - 0xa0) * 0x100 + b₁.toNat) * 0x100 + b₂.toNat + 0x408f, p)
        | _ => none
      else if 0x0c ≤ v >>> 4 then
        match p with
        | b₁ :: p => some ((v - 0xc0) * 0x100 + b₁.toNat + 0x8f, p)
        | _ => none
      else
        some (v, p)

/-- How many bytes follow the first byte `b` of a code, as `SEN_B_SKIP` and
`SEN_B_COPY` read it off the high nibble. -/
def senBTail (b : UInt8) : Nat :=
  let v := b.toNat
  if v >>> 4 = 0x08 then
    if v = 0x8f then 4 else 0
  else if v >>> 4 = 0x09 then 3
  else if v >>> 4 = 0x0a ∨ v >>> 4 = 0x0b then 2
  else if 0x0c ≤ v >>> 4 then 1
  else 0

/-- `SEN_B_SKIP(p)`. -/
def senBSkip : List UInt8 → Option (List UInt8)
  | [] => none
  | b :: p => if senBTail b ≤ p.length then some (p.drop (senBTail b)) else none

/-- `SEN_B_COPY(p2,p1)`: the bytes appended at `p2` and the stream left at `p1`. -/
def senBCopy : List UInt8 → Option (List UInt8 × List UInt8)
  | [] => none
  | b :: p =>
      if senBTail b ≤ p.length then
        some (b :: p.take (senBTail b), p.drop (senBTail b))
      else none

/-- Decoding reads an encoded value back and stops right after it. -/
theorem senBDec_senBEnc (v : Nat) (hv : v < 2 ^ 32) (p : List UInt8) :
    senBDec (senBEnc v ++ p) = some (v, p) := by
  unfold senBEnc
  simp only [Nat.shiftRight_eq_div_pow]
  split_ifs with h₁ h₂ h₃ h₄
  · simp only [List.singleton_append, senBDec, toNat_cByte, Nat.shiftRight_eq_div_pow]
    split_ifs <;> first | omega | (simp; omega)
  · simp only [List.cons_append, List.nil_append, senBDec, toNat_cByte,
      Nat.shiftRight_eq_div_pow]
    split_ifs <;> first | omega | (simp; omega)
  · simp only [List.cons_append, List.nil_append, senBDec, toNat_cByte,
      Nat.shiftRight_eq_div_pow]
    split_ifs <;> first | omega | (simp; omega)
  · simp only [List.cons_append, List.nil_append, senBDec, toNat_cByte,
      Nat.shiftRight_eq_div_pow]
    split_ifs <;> first | omega | (simp; omega)
  · simp [senBDec, le32, readLe32, Nat.shiftRight_eq_div_pow]
    omega

/-- A code is its first byte and the tail that byte announces: whatever is
decoded is also what is skipped and copied, and the copy decodes to the same
value in front of any other stream. -/
theorem senBDec_eq_some {p q : List UInt8} {v : Nat} (h : senBDec p = some (v, q)) :
    ∃ code, p = code ++ q ∧ code ≠ [] ∧
      senBSkip p = some q ∧ senBCopy p = some (code, q) ∧
      ∀ r, senBDec (code ++ r) = some (v, r) := by
  cases p with
  | nil => simp [senBDec] at h
  | cons b p =>
      have tail : ∃ t, p = t ++ q ∧ t.length = senBTail b ∧
          ∀ r, senBDec (b :: (t ++ r)) = some (v, r) := by
        unfold senBDec at h
        unfold senBTail senBDec
        simp only at h ⊢
        split_ifs at h ⊢ with h₁ h₂ h₃ h₄ h₅
        · rcases p with _ | ⟨b₀, _ | ⟨b₁, _ | ⟨b₂, _ | ⟨b₃, p⟩⟩⟩⟩ <;> simp [readLe32] at h
          exact ⟨[b₀, b₁, b₂, b₃], by simp [h.2], rfl, fun r => by simp [readLe32, h.1]⟩
        · exact ⟨[], by simp_all, rfl, fun r => by simp_all⟩
        · rcases p with _ | ⟨b₁, _ | ⟨b₂, _ | ⟨b₃, p⟩⟩⟩ <;> simp at h
          exact ⟨[b₁, b₂, b₃], by simp [h.2], rfl, fun r => by simp [h.1]⟩
        · rcases p with _ | ⟨b₁, _ | ⟨b₂, p⟩⟩ <;> simp at h
          exact ⟨[b₁, b₂], by simp [h.2], rfl, fun r => by simp [h.1]⟩
        · rcases p with _ | ⟨b₁, p⟩ <;> simp at h
          exact ⟨[b₁], by simp [h.2], rfl, fun r => by simp [h.1]⟩
        · exact ⟨[], by simp_all, rfl, fun r => by simp_all⟩
      obtain ⟨t, rfl, hlen, hdec⟩ := tail
      refine ⟨b :: t, rfl, by simp, ?_, ?_, hdec⟩
      · simp [senBSkip, ← hlen]
      · simp [senBCopy, ← hlen]

end Senna.Io
