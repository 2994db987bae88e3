/-
# Numbers in texts

`sen_atoi`, `sen_atoui` and `sen_atoll` read the decimal digits at the start of a byte range,
`sen_htoui` the hexadecimal ones, and `sen_str_itoa` and `sen_str_lltoa` write an integer into
a buffer. All of them compute in a word: a sum that does not fit wraps around, and the readers
take it for an overflow only where it comes out smaller than the number before.

A pointer into the range is the list of the bytes from it up to `end`. Signed words wrap around.
-/

import Mathlib.Data.List.TakeWhile
import Senna.Query.Pragma

namespace Senna.Str

open Senna.Query (isDigit senAtoui senAtouiLoop senAtoi senAtoiLoop)

/-- The loop of `sen_atoi` and `sen_atoll` with words of `w` bits: `v`, `o` and `p`. -/
def atonLoop (w : Nat) : Int → Bool → List UInt8 → Int × Bool × List UInt8
  | v, o, [] => (v, o, [])
  | v, o, b :: p =>
      if isDigit b then
        let t := (v * 10 + (b.toNat - 0x30 : Nat)).bmod (2 ^ w)
        if t < v then (0, o, b :: p) else atonLoop w t false p
      else (v, o, b :: p)

/-- `sen_atoi` and `sen_atoll` with words of `w` bits: the number and `rest`. -/
def aton (w : Nat) (nptr : List UInt8) : Int × List UInt8 :=
  if nptr.head? = some 0x2d then
    let (v, o, p) := atonLoop w 0 true nptr.tail
    (-v, if o then nptr else p)
  else
    let (v, _, p) := atonLoop w 0 false nptr
    (v, p)

/-- `sen_atoll(nptr, end, &rest)`: the number and `rest`. -/
def senAtoll (nptr : List UInt8) : Int × List UInt8 := aton 64 nptr

/-- The value of a hexadecimal digit, in the order of the cases of `sen_htoui`. -/
def hexDigit? (b : UInt8) : Option Nat :=
  if 0x30 ≤ b ∧ b ≤ 0x39 then some (b.toNat - 0x30)
  else if 0x61 ≤ b ∧ b ≤ 0x66 then some (b.toNat - 0x61 + 10)
  else if 0x41 ≤ b ∧ b ≤ 0x46 then some (b.toNat - 0x41 + 10)
  else none

/-- The loop of `sen_htoui`. -/
def senHtouiLoop : Nat → List UInt8 → Nat × List UInt8
  | v, [] => (v, [])
  | v, b :: p =>
      match hexDigit? b with
      | some d =>
          let t := (v * 16 + d) % 2 ^ 32
          if t < v then (0, p) else senHtouiLoop t p
      | none => (0, b :: p)

/-- `sen_htoui(nptr, end, &rest)`: the number and `rest`. -/
def senHtoui (nptr : List UInt8) : Nat × List UInt8 := senHtouiLoop 0 nptr

theorem senAtoiLoop_eq (v : Int) (o : Bool) (p : List UInt8) :
    senAtoiLoop v o p = atonLoop 32 v o p := by
  induction p generalizing v o with
  | nil => rfl
  | cons b p ih => simp only [senAtoiLoop, atonLoop, ih]

theorem senAtoi_eq (p : List UInt8) : senAtoi p = aton 32 p := by
  simp only [senAtoi, aton, senAtoiLoop_eq]

/-- The character that `i % 10 + '0'` is. -/
def itonDigit (i : Int) : UInt8 := UInt8.ofNat ((i.tmod 10 + 0x30) % 256).toNat

/-- The digits that the loop of `sen_str_itoa` and `sen_str_lltoa` writes into `room` bytes, the
last one of the number first, or `none` if it runs into `end`. -/
def itonLoop : Nat → Int → Option (List UInt8)
  | 0, _ => none
  | room + 1, i =>
      if i.tdiv 10 > 0 then (itonLoop room (i.tdiv 10)).map (itonDigit i :: ·)
      else some [itonDigit i]

/-- `sen_str_itoa` and `sen_str_lltoa` with words of `w` bits: the text from `p` up to `rest`, or
`none` for `sen_invalid_argument`. There are `room` bytes from `p` up to `end`. -/
def iton (w : Nat) (i : Int) (room : Nat) : Option (List UInt8) :=
  if room = 0 then none
  else if i < 0 then
    (itonLoop (room - 1) ((-i).bmod (2 ^ w))).map fun digits => 0x2d :: digits.reverse
  else (itonLoop room i).map List.reverse

/-- `sen_str_itoa(i, p, end, &rest)` -/
def senStrItoa (i : Int) (room : Nat) : Option (List UInt8) := iton 32 i room

/-- `sen_str_lltoa(i, p, end, &rest)` -/
def senStrLltoa (i : Int) (room : Nat) : Option (List UInt8) := iton 64 i room

/-- The number that the digits `ds` make when they follow `v`. -/
def numeral (base : Nat) (v : Nat) (ds : List Nat) : Nat :=
  ds.foldl (fun v d => v * base + d) v

/-- The digits of the longest decimal run at the start of `p`. -/
def decimalRun (p : List UInt8) : List Nat :=
  (p.takeWhile isDigit).map fun b => b.toNat - 0x30

/-- The digits of the longest hexadecimal run at the start of `p`. -/
def hexRun (p : List UInt8) : List Nat :=
  (p.takeWhile fun b => (hexDigit? b).isSome).filterMap hexDigit?

theorem le_numeral {base : Nat} (hbase : 0 < base) (v : Nat) (ds : List Nat) :
    v ≤ numeral base v ds := by
  induction ds generalizing v with
  | nil => exact le_rfl
  | cons d ds ih =>
      calc v ≤ v * base + d := by nlinarith
        _ ≤ numeral base (v * base + d) ds := ih _

theorem numeral_reverse (base : Nat) (ds : List Nat) :
    numeral base 0 ds.reverse = Nat.ofDigits base ds := by
  rw [numeral, List.foldl_reverse, Nat.ofDigits_eq_foldr]
  simp [Nat.mul_comm, Nat.add_comm]

@[simp]
theorem decimalRun_cons (b : UInt8) (p : List UInt8) :
    decimalRun (b :: p) = if isDigit b then (b.toNat - 0x30) :: decimalRun p else [] := by
  unfold decimalRun
  split_ifs with hb <;> simp [hb]

theorem hexRun_cons (b : UInt8) (p : List UInt8) :
    hexRun (b :: p) = match hexDigit? b with
      | some d => d :: hexRun p
      | none => [] := by
  unfold hexRun
  cases hb : hexDigit? b <;> simp [hb]

/-- The loop of `sen_atoui` on a run whose value fits. -/
theorem senAtouiLoop_run {v : Nat} {p : List UInt8} (h : numeral 10 v (decimalRun p) < 2 ^ 32) :
    senAtouiLoop v p = (numeral 10 v (decimalRun p), p.dropWhile isDigit) := by
  induction p generalizing v with
  | nil => rfl
  | cons b p ih =>
      rw [decimalRun_cons] at h ⊢
      rw [senAtouiLoop]
      by_cases hb : isDigit b
      · simp only [hb, if_true, List.dropWhile_cons_of_pos] at h ⊢
        have hle : v * 10 + (b.toNat - 0x30) < 2 ^ 32 :=
          (le_numeral (by decide) _ (decimalRun p)).trans_lt h
        rw [Nat.mod_eq_of_lt hle, if_neg (by omega)]
        exact ih h
      · simp [hb, numeral]

/-- The loop of `sen_htoui` on a run whose value fits: what ends the run makes the number 0. -/
theorem senHtouiLoop_run {v : Nat} {p : List UInt8} (h : numeral 16 v (hexRun p) < 2 ^ 32) :
    senHtouiLoop v p =
      let rest := p.dropWhile fun b => (hexDigit? b).isSome
      (if rest = [] then numeral 16 v (hexRun p) else 0, rest) := by
  induction p generalizing v with
  | nil => rfl
  | cons b p ih =>
      rw [hexRun_cons] at h ⊢
      rw [senHtouiLoop]
      cases hb : hexDigit? b with
      | none => simp [hb]
      | some d =>
          simp only [hb] at h ⊢
          have hle : v * 16 + d < 2 ^ 32 := (le_numeral (by decide) _ (hexRun p)).trans_lt h
          rw [Nat.mod_eq_of_lt hle, if_neg (by omega), ih h]
          simp [hb, numeral]

section Signed

variable {w : Nat}

/-- A step of the loop of `sen_atoi` and `sen_atoll` whose sum fits. -/
theorem atonLoop_digit {v : Nat} {o : Bool} {b : UInt8} (p : List UInt8) (hb : isDigit b)
    (hlt : v * 10 + (b.toNat - 0x30) < 2 ^ w) :
    atonLoop (w + 1) v o (b :: p) =
      atonLoop (w + 1) (v * 10 + (b.toNat - 0x30) : Nat) false p := by
  have hfit : ((v : Int) * 10 + (b.toNat - 0x30 : Nat)).bmod (2 ^ (w + 1)) =
      (v * 10 + (b.toNat - 0x30) : Nat) := by
    rw [pow_succ, Nat.cast_add, Nat.cast_mul]
    apply Int.bmod_eq_of_le_mul_two <;> omega
  rw [atonLoop, if_pos hb]
  simp only [hfit]
  rw [if_neg (by omega)]

/-- The loop of `sen_atoi` and `sen_atoll` on a run whose value fits. -/
theorem atonLoop_run {v : Nat} {o : Bool} {p : List UInt8}
    (h : numeral 10 v (decimalRun p) < 2 ^ w) :
    atonLoop (w + 1) v o p =
      ((numeral 10 v (decimalRun p) : Int), if decimalRun p = [] then o else false,
        p.dropWhile isDigit) := by
  induction p generalizing v o with
  | nil => rfl
  | cons b p ih =>
      rw [decimalRun_cons] at h ⊢
      by_cases hb : isDigit b
      · simp only [hb, if_true, List.dropWhile_cons_of_pos] at h ⊢
        have hle : v * 10 + (b.toNat - 0x30) < 2 ^ w :=
          (le_numeral (by decide) _ (decimalRun p)).trans_lt h
        rw [atonLoop_digit p hb hle, ih h]
        simp [numeral]
      · rw [atonLoop]
        simp [hb, numeral]

/-- A run whose value is one too large for the word makes the number 0. -/
theorem atonLoop_least {v : Nat} {o : Bool} {p : List UInt8} (hv : v < 2 ^ w)
    (h : numeral 10 v (decimalRun p) = 2 ^ w) : (atonLoop (w + 1) v o p).1 = 0 := by
  induction p generalizing v o with
  | nil => exact absurd h hv.ne
  | cons b p ih =>
      rw [decimalRun_cons] at h
      by_cases hb : isDigit b
      · rw [if_pos hb] at h
        have hle : v * 10 + (b.toNat - 0x30) ≤ 2 ^ w :=
          (le_numeral (by decide) _ (decimalRun p)).trans_eq h
        rcases hle.lt_or_eq with hlt | heq
        · rw [atonLoop_digit p hb hlt]
          exact ih hlt h
        · -- The sum is the first number behind the word, and wraps around to the least one.
          have hwrap : ((v : Int) * 10 + (b.toNat - 0x30 : Nat)).bmod (2 ^ (w + 1)) = -2 ^ w := by
            have hcast : (v : Int) * 10 + (b.toNat - 0x30 : Nat) = 2 ^ w := by exact_mod_cast heq
            rw [hcast]
            exact Int.bmod_eq_neg (by positivity) (by push_cast; ring)
          have hneg : -2 ^ w < (v : Int) := by
            have : (0 : Int) < 2 ^ w := by positivity
            omega
          rw [atonLoop, if_pos hb]
          simp only [hwrap]
          rw [if_pos hneg]
      · simp only [hb, Bool.false_eq_true, if_false] at h
        exact absurd h hv.ne

/-- The bytes of `p` behind its sign. -/
def unsigned (p : List UInt8) : List UInt8 := if p.head? = some 0x2d then p.tail else p

/-- The value of the longest optionally signed run of digits at the start of `p`. -/
def signedRun (p : List UInt8) : Int :=
  if p.head? = some 0x2d then -numeral 10 0 (decimalRun (unsigned p))
  else numeral 10 0 (decimalRun (unsigned p))

/-- Where that run ends; a sign without a digit is no run. -/
def signedRest (p : List UInt8) : List UInt8 :=
  if decimalRun (unsigned p) = [] then p else (unsigned p).dropWhile isDigit

theorem decimalRun_eq_nil {p : List UInt8} (h : decimalRun p = []) : p.dropWhile isDigit = p := by
  cases p with
  | nil => rfl
  | cons b p =>
      rw [decimalRun_cons] at h
      split_ifs at h with hb
      exact List.dropWhile_cons_of_neg hb

/-- **`sen_atoi` and `sen_atoll` are exact** on every run that fits, apart from the least number. -/
theorem aton_run {p : List UInt8} (h : numeral 10 0 (decimalRun (unsigned p)) < 2 ^ w) :
    aton (w + 1) p = (signedRun p, signedRest p) := by
  have hloop : ∀ o, atonLoop (w + 1) 0 o (unsigned p) = _ := fun o => atonLoop_run h
  unfold aton signedRun signedRest
  unfold unsigned at hloop h ⊢
  by_cases hsign : p.head? = some 0x2d
  · simp only [hsign, if_true] at hloop h ⊢
    rw [hloop]
    by_cases hnil : decimalRun p.tail = [] <;> simp [hnil]
  · simp only [hsign, if_false] at hloop h ⊢
    rw [hloop]
    by_cases hnil : decimalRun p = []
    · simp [hnil, decimalRun_eq_nil hnil]
    · simp [hnil]

/-- The least number is taken for an overflow, since its magnitude is one. -/
theorem aton_least {p : List UInt8} (h : signedRun p = -2 ^ w) : (aton (w + 1) p).1 = 0 := by
  have hpos : (0 : Int) < 2 ^ w := by positivity
  unfold signedRun at h
  split_ifs at h with hsign
  · have hnum : numeral 10 0 (decimalRun (unsigned p)) = 2 ^ w := by exact_mod_cast neg_inj.mp h
    have hloop := atonLoop_least (o := true) (Nat.two_pow_pos w) hnum
    unfold aton
    unfold unsigned at hloop
    simp only [hsign, if_true] at hloop ⊢
    rw [Nat.cast_zero] at hloop
    rw [hloop, neg_zero]
  · omega

end Signed

/-- The digits of `n`, the last one first. -/
def digitsOf (n : Nat) : List Nat := if n = 0 then [0] else Nat.digits 10 n

/-- The character of a digit. -/
def digitChar (d : Nat) : UInt8 := UInt8.ofNat (d + 0x30)

/-- The decimal text of `i`. -/
def decimalText (i : Int) : List UInt8 :=
  (if i < 0 then [0x2d] else []) ++ ((digitsOf i.natAbs).map digitChar).reverse

theorem digitsOf_of_lt {n : Nat} (h : n < 10) : digitsOf n = [n] := by
  unfold digitsOf
  split_ifs with hn
  · rw [hn]
  · exact Nat.digits_of_lt 10 n hn h

theorem digitsOf_of_le {n : Nat} (h : 10 ≤ n) : digitsOf n = n % 10 :: digitsOf (n / 10) := by
  rw [digitsOf, if_neg (by omega), digitsOf, if_neg (by omega)]
  exact Nat.digits_def' (by decide) (by omega)

theorem digitsOf_ne_nil (n : Nat) : digitsOf n ≠ [] := by
  unfold digitsOf
  split_ifs with h
  · simp
  · exact Nat.digits_ne_nil_iff_ne_zero.mpr h

theorem digitsOf_lt (n : Nat) : ∀ d ∈ digitsOf n, d < 10 := by
  unfold digitsOf
  split_ifs
  · simp
  · exact fun d hd => Nat.digits_lt_base (by decide) hd

theorem ofDigits_digitsOf (n : Nat) : Nat.ofDigits 10 (digitsOf n) = n := by
  unfold digitsOf
  split_ifs with hn
  · simp [hn]
  · exact Nat.ofDigits_digits 10 n

theorem itonDigit_natCast (n : Nat) : itonDigit n = digitChar (n % 10) := by
  have h : (n : Int).tmod 10 = (n % 10 : Nat) := by
    rw [Int.tmod_eq_emod_of_nonneg (by omega)]
    rfl
  unfold itonDigit digitChar
  rw [h]
  congr 1
  omega

/-- The loop of `sen_str_itoa` and `sen_str_lltoa` on a number that is not negative. -/
theorem itonLoop_natCast (room n : Nat) :
    itonLoop room n =
      if (digitsOf n).length ≤ room then some ((digitsOf n).map digitChar) else none := by
  induction room generalizing n with
  | zero =>
      rcases Nat.lt_or_ge n 10 with h | h
      · simp [itonLoop, digitsOf_of_lt h]
      · simp [itonLoop, digitsOf_of_le h]
  | succ room ih =>
      have hdiv : (n : Int).tdiv 10 = (n / 10 : Nat) := by
        rw [Int.tdiv_eq_ediv_of_nonneg (by omega)]
        rfl
      rw [itonLoop, hdiv, itonDigit_natCast]
      rcases Nat.lt_or_ge n 10 with h | h
      · rw [if_neg (by omega), digitsOf_of_lt h, Nat.mod_eq_of_lt h]
        simp
      · rw [if_pos (by omega), ih, digitsOf_of_le h]
        simp only [List.length_cons, Nat.add_le_add_iff_right, List.map_cons]
        split_ifs <;> rfl

section Signed

variable {w : Nat} {i : Int}

/-- **`sen_str_itoa` and `sen_str_lltoa` write the text** of every number but the least one, if
there is room for it. -/
theorem iton_eq (hi : -2 ^ w < i ∧ i < 2 ^ w) (room : Nat) :
    iton (w + 1) i room =
      if (decimalText i).length ≤ room then some (decimalText i) else none := by
  have hpos := List.length_pos_of_ne_nil (digitsOf_ne_nil i.natAbs)
  unfold iton decimalText
  by_cases hroom : room = 0
  · rw [if_pos hroom, if_neg]
    simp only [List.length_append, List.length_reverse, List.length_map]
    omega
  rw [if_neg hroom]
  by_cases hneg : i < 0
  · have habs : (-i).bmod (2 ^ (w + 1)) = i.natAbs := by
      rw [show -i = i.natAbs by omega]
      rw [pow_succ]
      have : (i.natAbs : Int) < 2 ^ w := by omega
      have : i.natAbs < 2 ^ w := by exact_mod_cast this
      apply Int.bmod_eq_of_le_mul_two <;> omega
    rw [if_pos hneg, habs, itonLoop_natCast]
    have hlen : (digitsOf i.natAbs).length ≤ room - 1 ↔
        1 + (digitsOf i.natAbs).length ≤ room := by omega
    simp only [hneg, if_true, List.length_append, List.length_reverse, List.length_map, hlen,
      List.length_singleton]
    split_ifs <;> rfl
  · have habs : i = i.natAbs := by omega
    rw [if_neg hneg]
    nth_rewrite 1 [habs]
    rw [itonLoop_natCast]
    simp only [hneg, if_false, List.nil_append, List.length_reverse, List.length_map]
    split_ifs <;> rfl

theorem isDigit_digitChar {d : Nat} (h : d < 10) : isDigit (digitChar d) = true := by
  interval_cases d <;> decide

theorem toNat_digitChar {d : Nat} (h : d < 10) : (digitChar d).toNat - 0x30 = d := by
  interval_cases d <;> decide

theorem decimalRun_map {ds : List Nat} (h : ∀ d ∈ ds, d < 10) :
    decimalRun (ds.map digitChar) = ds := by
  induction ds with
  | nil => rfl
  | cons d ds ih =>
      have hd := h d List.mem_cons_self
      rw [List.map_cons, decimalRun_cons, if_pos (isDigit_digitChar hd), toNat_digitChar hd,
        ih fun e he => h e (List.mem_cons_of_mem _ he)]

theorem head?_digits (n : Nat) : (((digitsOf n).map digitChar).reverse).head? ≠ some 0x2d := by
  intro h
  obtain ⟨d, hd, hchar⟩ := List.mem_map.mp (List.mem_reverse.mp (List.mem_of_head? h))
  have hdigit := isDigit_digitChar (digitsOf_lt n d hd)
  rw [hchar] at hdigit
  exact absurd hdigit (by decide)

theorem head?_decimalText (i : Int) : (decimalText i).head? = some 0x2d ↔ i < 0 := by
  unfold decimalText
  split_ifs with hneg
  · simp [hneg]
  · simpa [hneg] using head?_digits i.natAbs

theorem unsigned_decimalText (i : Int) :
    unsigned (decimalText i) = (digitsOf i.natAbs).reverse.map digitChar := by
  unfold unsigned
  by_cases hneg : i < 0
  · rw [if_pos ((head?_decimalText i).mpr hneg), decimalText, if_pos hneg, List.map_reverse]
    rfl
  · rw [if_neg (mt (head?_decimalText i).mp hneg), decimalText, if_neg hneg, List.map_reverse]
    rfl

/-- The text of a number is read as that number, up to its end. -/
theorem aton_decimalText (hi : -2 ^ w < i ∧ i < 2 ^ w) :
    aton (w + 1) (decimalText i) = (i, []) := by
  have hdigits : ∀ d ∈ (digitsOf i.natAbs).reverse, d < 10 := fun d hd =>
    digitsOf_lt i.natAbs d (List.mem_reverse.mp hd)
  have hrun : decimalRun (unsigned (decimalText i)) = (digitsOf i.natAbs).reverse := by
    rw [unsigned_decimalText, decimalRun_map hdigits]
  have hvalue : numeral 10 0 (decimalRun (unsigned (decimalText i))) = i.natAbs := by
    rw [hrun, numeral_reverse, ofDigits_digitsOf]
  have hrest : (unsigned (decimalText i)).dropWhile isDigit = [] := by
    rw [unsigned_decimalText, List.dropWhile_eq_nil_iff]
    rintro b hb
    obtain ⟨d, hd, rfl⟩ := List.mem_map.mp hb
    exact isDigit_digitChar (hdigits d hd)
  have hlt : i.natAbs < 2 ^ w := by
    have : (i.natAbs : Int) < 2 ^ w := by omega
    exact_mod_cast this
  rw [aton_run (hvalue.trans_lt hlt), signedRun, signedRest, hvalue, hrun, hrest]
  rw [if_neg (mt List.reverse_eq_nil_iff.mp (digitsOf_ne_nil _))]
  by_cases hneg : i < 0
  · rw [if_pos ((head?_decimalText i).mpr hneg), show -(i.natAbs : Int) = i by omega]
  · rw [if_neg (mt (head?_decimalText i).mp hneg), show (i.natAbs : Int) = i by omega]

end Signed

/-- What a signed reader `ato` and a writer `toa` of words of `w + 1` bits promise of each other
and of the least number of the word. -/
structure SignedExact (w : Nat) (ato : List UInt8 → Int × List UInt8)
    (toa : Int → Nat → Option (List UInt8)) : Prop where
  run : ∀ p, -2 ^ w < signedRun p → signedRun p < 2 ^ w → ato p = (signedRun p, signedRest p)
  least : ∀ p, signedRun p = -2 ^ w → (ato p).1 = 0
  back : ∀ i, -2 ^ w < i → i < 2 ^ w → ∀ room ≥ (decimalText i).length,
    ∃ text, toa i room = some text ∧ ato text = (i, [])

theorem signedExact (w : Nat) : SignedExact w (aton (w + 1)) (iton (w + 1)) where
  run p hlow hhigh := by
    apply aton_run
    have hlt : (numeral 10 0 (decimalRun (unsigned p)) : Int) < 2 ^ w := by
      unfold signedRun at hlow hhigh
      split_ifs at hlow hhigh <;> omega
    exact_mod_cast hlt
  least p h := aton_least h
  back i hlow hhigh room hroom := by
    refine ⟨decimalText i, ?_, aton_decimalText ⟨hlow, hhigh⟩⟩
    rw [iton_eq ⟨hlow, hhigh⟩, if_pos hroom]

/-- **Numbers are read exactly**, and read back as they were written. A signed run may be any
number of its word but the least, which is read as 0 and not written. A hexadecimal run has to
reach the end of the range; where another byte ends it the number is 0. -/
theorem numbers_exact :
    (∀ p, numeral 10 0 (decimalRun p) < 2 ^ 32 →
      senAtoui p = (numeral 10 0 (decimalRun p), p.dropWhile isDigit)) ∧
    (∀ p, numeral 16 0 (hexRun p) < 2 ^ 32 →
      senHtoui p =
        let rest := p.dropWhile fun b => (hexDigit? b).isSome
        (if rest = [] then numeral 16 0 (hexRun p) else 0, rest)) ∧
    SignedExact 31 senAtoi senStrItoa ∧ SignedExact 63 senAtoll senStrLltoa := by
  refine ⟨fun p h => senAtouiLoop_run h, fun p h => senHtouiLoop_run h, ?_, signedExact 63⟩
  rw [show senAtoi = aton 32 from funext senAtoi_eq]
  exact signedExact 31

/-- `"-70 "` as an `int`, and `"2F"`. -/
theorem numbers_exact_run :
    senAtoi [0x2d, 0x37, 0x30, 0x20] = (-70, [0x20]) ∧ senHtoui [0x32, 0x46] = (47, []) :=
  ⟨numbers_exact.2.2.1.run [0x2d, 0x37, 0x30, 0x20] (by decide) (by decide),
    numbers_exact.2.1 [0x32, 0x46] (by decide)⟩

/-- `"12g"` is read as 0 and not as `0x12`, the least `int` is written as `"-("`, and
`"9999999999"` is read as what is left of it in the word. -/
theorem numbers_exact_fails :
    (senHtoui [0x31, 0x32, 0x67] = (0, [0x67]) ∧
      numeral 16 0 (hexRun [0x31, 0x32, 0x67]) = 0x12) ∧
    senStrItoa (-2 ^ 31) 11 = some [0x2d, 0x28] ∧
    senAtoui (List.replicate 10 0x39) = (1410065407, []) := by
  decide

end Senna.Str
