/-
# Words in mapped segments

A mapped segment, and a file that is read and written at offsets, are one memory of
bytes: the I/O layer returns what was last written at each place.
-/

import Senna.Io.Byte
import Senna.Lib.Memory

namespace Senna.Io

open Senna.Lib

/-- `*((uint32_t *)a)`. -/
def loadU32 (m : Memory UInt8) (a : Nat) : Nat :=
  (m a).toNat + (m (a + 1)).toNat * 0x100 + (m (a + 2)).toNat * 0x10000 +
    (m (a + 3)).toNat * 0x1000000

@[simp]
theorem length_le32 (v : Nat) : (le32 v).length = 4 := rfl

theorem loadU32_lt (m : Memory UInt8) (a : Nat) : loadU32 m a < 2 ^ 32 := by
  have h₀ := (m a).toNat_lt
  have h₁ := (m (a + 1)).toNat_lt
  have h₂ := (m (a + 2)).toNat_lt
  have h₃ := (m (a + 3)).toNat_lt
  unfold loadU32
  omega

/-- A word depends on its four bytes only. -/
theorem loadU32_congr {m m' : Memory UInt8} {a : Nat} (h : m.read a 4 = m'.read a 4) :
    loadU32 m a = loadU32 m' a := by
  simp only [Memory.read, List.cons.injEq, and_true] at h
  obtain ⟨h₀, h₁, h₂, h₃⟩ := h
  simp only [loadU32, h₀, h₁, h₂, h₃]

/-- A word of four bytes is the value they code. -/
theorem loadU32_of_read {m : Memory UInt8} {a v : Nat} (hv : v < 2 ^ 32)
    (h : m.read a 4 = le32 v) : loadU32 m a = v := by
  simp only [Memory.read, le32, List.cons.injEq, and_true] at h
  obtain ⟨h₀, h₁, h₂, h₃⟩ := h
  simp only [loadU32, h₀, h₁, h₂, h₃, toNat_cByte, Nat.shiftRight_eq_div_pow]
  omega

end Senna.Io
