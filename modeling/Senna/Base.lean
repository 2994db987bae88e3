/-
# Return codes, ids and 32-bit words

What every part of the library shares: `sen_rc`, the range of `sen_id`, and the
subtraction of unsigned words.
-/

import Mathlib.Tactic

namespace Senna

/-- `sen_rc`. -/
inductive SenRc
  | success
  | memoryExhausted
  | invalidFormat
  | fileOperationError
  | invalidArgument
  | otherError
  | externalError
  | internalError
  | abnormalError
  deriving DecidableEq, Repr

/-- `SEN_SYM_MAX_ID`. -/
def senSymMaxId : Nat := 0xfffffff

/-- Subtraction of two `uint32_t`. -/
def u32Sub (a b : Nat) : Nat := (a + 2 ^ 32 - b) % 2 ^ 32

theorem u32Sub_of_le {a b : Nat} (h : b ≤ a) (ha : a < 2 ^ 32) : u32Sub a b = a - b := by
  unfold u32Sub
  omega

end Senna
