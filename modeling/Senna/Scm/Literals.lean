/-
# Literals of objects and times

The interpreter prints an object of a database as `#p<`, its class and itself in five characters
each, and `>`. A time is printed as `#:<`, two decimal numbers with a point between them, and `>`.
The reader makes constants of what follows the `#`; it is given a buffer and the length of the
token in it, and looks at places of an object literal without a look at the length.

The numbers with `#o`, `#d` and `#x` are read by the C library and left as their texts.
-/

import Mathlib.Data.Nat.Bitwise
import Senna.Scm.JsonRead
import Senna.Str.Rbuf

namespace Senna.Scm

open Senna.Query (isDigit senAtoi)
open Senna.Str

/-- The characters of `I2B`. -/
def i2b (i : Nat) : UInt8 :=
  "ABCDEFGHIJKLMNOPQRSTUVWXYZabcdefghijklmnopqrstuvwxyz0123456789+/".toUTF8.toList.getD i 0

/-- The table of `B2I`, from `+` on. -/
def b2iTable : List UInt8 :=
  [0x3e, 0xff, 0xff, 0xff, 0x3f, 0x34, 0x35, 0x36, 0x37, 0x38, 0x39, 0x3a, 0x3b, 0x3c, 0x3d,
    0xff, 0xff, 0xff, 0xff, 0xff, 0xff, 0xff, 0x00, 0x01, 0x02, 0x03, 0x04, 0x05, 0x06, 0x07,
    0x08, 0x09, 0x0a, 0x0b, 0x0c, 0x0d, 0x0e, 0x0f, 0x10, 0x11, 0x12, 0x13, 0x14, 0x15, 0x16,
    0x17, 0x18, 0x19, 0xff, 0xff, 0xff, 0xff, 0xff, 0xff, 0x1a, 0x1b, 0x1c, 0x1d, 0x1e, 0x1f,
    0x20, 0x21, 0x22, 0x23, 0x24, 0x25, 0x26, 0x27, 0x28, 0x29, 0x2a, 0x2b, 0x2c, 0x2d, 0x2e,
    0x2f, 0x30, 0x31, 0x32, 0x33]

/-- `B2I`. A character from 128 on is negative in C, and so below `+`. -/
def b2i (c : UInt8) : UInt8 :=
  if c < 0x2b ∨ 0x7a < c then 0xff else b2iTable.getD (c.toNat - 0x2b) 0xff

/-- The loop of `sen_str_btoi`. -/
def btoiLoop : Nat → Nat → List UInt8 → Option Nat
  | 0, id, _ => some id
  | len + 1, id, b =>
      if b2i (b.headD 0) = 0xff then none
      else btoiLoop len ((id <<< 6 + (b2i (b.headD 0)).toNat) % 2 ^ 32) b.tail

/-- `sen_str_btoi` -/
def senStrBtoi (b : List UInt8) : Nat := (btoiLoop 5 0 b).elim 0 (· ^^^ 0x34d34d34)

theorem b2i_i2b {d : Nat} (h : d < 64) : b2i (i2b d) ≠ 0xff ∧ (b2i (i2b d)).toNat = d := by
  have hall : ∀ d < 64, b2i (i2b d) ≠ 0xff ∧ (b2i (i2b d)).toNat = d := by decide +kernel
  exact hall d h

theorem i2b_b2i {c : UInt8} (h : b2i c ≠ 0xff) : (b2i c).toNat < 64 ∧ i2b (b2i c).toNat = c := by
  have hall : ∀ n < 256, b2i (UInt8.ofNat n) ≠ 0xff →
      (b2i (UInt8.ofNat n)).toNat < 64 ∧ i2b (b2i (UInt8.ofNat n)).toNat = UInt8.ofNat n := by
    decide +kernel
  have hc := hall c.toNat c.toNat_lt
  rw [UInt8.ofNat_toNat] at hc
  exact hc h

/-- The loop reads digits. -/
theorem btoiLoop_eq_some {n id x : Nat} {b : List UInt8} (hid : (id + 1) * 64 ^ n ≤ 2 ^ 30) :
    btoiLoop n id b = some x ↔
      ∃ ds : List Nat, ds.length = n ∧ (∀ d ∈ ds, d < 64) ∧ ds.map i2b <+: b ∧
        numeral 64 id ds = x := by
  induction n generalizing id b with
  | zero =>
      constructor
      · intro h
        exact ⟨[], rfl, by simp, List.nil_prefix, Option.some.inj h⟩
      · rintro ⟨ds, hlen, -, -, rfl⟩
        rw [List.length_eq_zero_iff.mp hlen]
        rfl
  | succ n ih =>
      cases b with
      | nil =>
          constructor
          · intro h
            exact absurd h (by simp [btoiLoop, b2i])
          · rintro ⟨ds, hlen, -, hpre, -⟩
            have hnil := List.map_eq_nil_iff.mp (List.prefix_nil.mp hpre)
            rw [hnil] at hlen
            exact absurd hlen (by simp)
      | cons c b =>
          rw [btoiLoop, List.headD_cons, List.tail_cons]
          by_cases hc : b2i c = 0xff
          · rw [if_pos hc]
            refine ⟨by simp, ?_⟩
            rintro ⟨ds, hlen, hds, hpre, -⟩
            obtain ⟨d, ds, rfl⟩ := List.exists_cons_of_length_eq_add_one hlen
            have hd : i2b d = c := (List.cons_prefix_cons.mp hpre).1
            exact absurd (hd ▸ hc) (b2i_i2b (hds d List.mem_cons_self)).1
          · obtain ⟨hlt, hback⟩ := i2b_b2i hc
            have hstep : (id + 1) * 64 * 64 ^ n ≤ 2 ^ 30 := by
              rw [pow_succ] at hid
              calc (id + 1) * 64 * 64 ^ n = (id + 1) * (64 ^ n * 64) := by ring
                _ ≤ 2 ^ 30 := hid
            have hnext : (id * 64 + (b2i c).toNat + 1) * 64 ^ n ≤ 2 ^ 30 :=
              le_trans (Nat.mul_le_mul_right _ (by omega)) hstep
            have hsmall : id * 64 + (b2i c).toNat < 2 ^ 32 := by
              have hone : 1 ≤ 64 ^ n := Nat.one_le_pow _ _ (by decide)
              have hle := Nat.le_mul_of_pos_right (id * 64 + (b2i c).toNat + 1) hone
              omega
            rw [if_neg hc, Nat.shiftLeft_eq, Nat.mod_eq_of_lt hsmall, ih hnext]
            constructor
            · rintro ⟨ds, hlen, hds, hpre, hval⟩
              refine ⟨(b2i c).toNat :: ds, by simp [hlen], ?_, ?_, hval⟩
              · intro d hd
                rcases List.mem_cons.mp hd with rfl | hd
                · exact hlt
                · exact hds d hd
              · rw [List.map_cons, hback]
                exact List.cons_prefix_cons.mpr ⟨rfl, hpre⟩
            · rintro ⟨ds, hlen, hds, hpre, hval⟩
              obtain ⟨d, ds, rfl⟩ := List.exists_cons_of_length_eq_add_one hlen
              obtain ⟨hd, hpre⟩ := List.cons_prefix_cons.mp hpre
              have hdig : (b2i c).toNat = d := by
                rw [← hd]
                exact (b2i_i2b (hds d List.mem_cons_self)).2
              have hrest : ∀ e ∈ ds, e < 64 := fun e he => hds e (List.mem_cons_of_mem _ he)
              refine ⟨ds, by simpa using hlen, hrest, hpre, ?_⟩
              rw [hdig]
              exact hval

/-- The five digits of a number. -/
def fiveDigits (x : Nat) : List Nat := [24, 18, 12, 6, 0].map fun k => x >>> k &&& 0x3f

theorem senStrItob_eq (id : Nat) :
    senStrItob id = (fiveDigits (id ^^^ 0x34d34d34)).map i2b := rfl

theorem fiveDigits_lt {x d : Nat} (hd : d ∈ fiveDigits x) : d < 64 := by
  obtain ⟨k, -, rfl⟩ := List.mem_map.mp hd
  exact Nat.lt_of_le_of_lt Nat.and_le_right (by decide)

theorem numeral_five {x : Nat} {ds : List Nat} (hlen : ds.length = 5) (hds : ∀ d ∈ ds, d < 64) :
    numeral 64 0 ds = x ↔ x < 2 ^ 30 ∧ ds = fiveDigits x := by
  have hdigit : ∀ k, x >>> k &&& 0x3f = x / 2 ^ k % 64 := fun k => by
    rw [Nat.shiftRight_eq_div_pow]
    exact Nat.and_two_pow_sub_one_eq_mod _ 6
  obtain ⟨a, ds, rfl⟩ := List.exists_cons_of_length_eq_add_one hlen
  obtain ⟨b, ds, rfl⟩ := List.exists_cons_of_length_eq_add_one (Nat.succ.inj hlen)
  obtain ⟨c, ds, rfl⟩ := List.exists_cons_of_length_eq_add_one
    (Nat.succ.inj (Nat.succ.inj hlen))
  obtain ⟨d, e, rfl⟩ := List.length_eq_two.mp (Nat.succ.inj (Nat.succ.inj (Nat.succ.inj hlen)))
  have ha := hds a (by simp)
  have hb := hds b (by simp)
  have hc := hds c (by simp)
  have hd := hds d (by simp)
  have he := hds e (by simp)
  simp only [fiveDigits, List.map_cons, List.map_nil, hdigit, numeral, List.foldl_cons,
    List.foldl_nil, List.cons.injEq, and_true]
  omega

theorem xor_lt_iff {id : Nat} : id ^^^ 0x34d34d34 < 2 ^ 30 ↔ id < 2 ^ 30 := by
  constructor
  · intro h
    rw [← Nat.xor_xor_cancel_right id 0x34d34d34]
    exact Nat.xor_lt_two_pow h (by decide)
  · exact fun h => Nat.xor_lt_two_pow h (by decide)

/-- A number that is not 0 is read where `sen_str_itob` has written it, and nowhere else. -/
theorem senStrBtoi_eq_iff {b : List UInt8} {id : Nat} (hid : id ≠ 0) :
    senStrBtoi b = id ↔ id < 2 ^ 30 ∧ senStrItob id <+: b := by
  have hread : senStrBtoi b = id ↔ btoiLoop 5 0 b = some (id ^^^ 0x34d34d34) := by
    rw [senStrBtoi]
    cases btoiLoop 5 0 b with
    | none => simpa using Ne.symm hid
    | some x =>
        rw [Option.elim_some, Option.some.injEq]
        constructor
        · rintro rfl
          rw [Nat.xor_xor_cancel_right]
        · rintro rfl
          rw [Nat.xor_xor_cancel_right]
  rw [hread, btoiLoop_eq_some (by decide), senStrItob_eq]
  constructor
  · rintro ⟨ds, hlen, hds, hpre, hval⟩
    obtain ⟨hlt, rfl⟩ := (numeral_five hlen hds).mp hval
    exact ⟨xor_lt_iff.mp hlt, hpre⟩
  · rintro ⟨hlt, hpre⟩
    exact ⟨_, rfl, fun d => fiveDigits_lt, hpre,
      (numeral_five rfl fun d => fiveDigits_lt).mpr ⟨xor_lt_iff.mpr hlt, rfl⟩⟩

/-- What `mk_const` makes. -/
inductive Const
  | t
  | f
  | object (cls self : Nat)
  | slot (cls self : Nat) (name : List UInt8)
  | time (sec usec : Int)
  | illegal
  | number (base : Nat) (text : List UInt8)
  deriving DecidableEq

/-- The branch of `mk_const` for times, which raises an error for other texts. -/
def mkTime (text : List UInt8) : Const :=
  let sec := senAtoi text
  if sec.2.head? ≠ some 0x2e then .illegal
  else
    let usec := senAtoi sec.2.tail
    if usec.2.head? ≠ some 0x3e then .illegal else .time sec.1 usec.1

/-- `mk_const`, for a token of `len` bytes at the start of `name`. -/
def mkConst (name : List UInt8) (len : Nat) : Option Const :=
  if len = 1 then
    if name.head? = some 0x74 then some .t
    else if name.head? = some 0x66 then some .f
    else none
  else if 1 < len then
    if name.head? = some 0x70 ∧ name[1]? = some 0x3c ∧ name[12]? = some 0x3e then
      let cls := senStrBtoi (name.drop 2)
      let self := senStrBtoi (name.drop 7)
      if cls = 0 ∨ self = 0 then none
      else if 13 < len ∧ name[13]? = some 0x2e then
        some (.slot cls self ((name.take len).drop 13))
      else some (.object cls self)
    else if name.head? = some 0x3a ∧ name[1]? = some 0x3c then
      some (mkTime ((name.take len).drop 2))
    else if name.head? = some 0x6f then some (.number 8 ((name.take len).drop 1))
    else if name.head? = some 0x64 then some (.number 10 ((name.take len).drop 1))
    else if name.head? = some 0x78 then some (.number 16 ((name.take len).drop 1))
    else none
  else none

/-- The part of `sen_obj_inspect` for objects, behind the `#`. -/
def inspectObject (cls self : Nat) : List UInt8 :=
  [0x70, 0x3c] ++ senStrItob cls ++ senStrItob self ++ [0x3e]

/-- The part of `sen_obj_inspect` for times, behind the `#`. -/
def inspectTime (sec usec : Int) : List UInt8 :=
  [0x3a, 0x3c] ++ decimalText sec ++ [0x2e] ++ decimalText usec ++ [0x3e]

theorem append_prefix_iff {l₁ l₂ l : List UInt8} :
    l₁ ++ l₂ <+: l ↔ l₁ <+: l ∧ l₂ <+: l.drop l₁.length := by
  constructor
  · rintro ⟨t, rfl⟩
    rw [List.append_assoc, List.drop_left]
    exact ⟨List.prefix_append _ _, List.prefix_append _ _⟩
  · rintro ⟨⟨t, rfl⟩, hpre⟩
    rw [List.drop_left] at hpre
    exact (List.prefix_append_right_inj l₁).mpr hpre

theorem inspectObject_prefix_iff {cls self : Nat} {name : List UInt8} :
    inspectObject cls self <+: name ↔
      (name.head? = some 0x70 ∧ name[1]? = some 0x3c ∧ name[12]? = some 0x3e) ∧
        senStrItob cls <+: name.drop 2 ∧ senStrItob self <+: name.drop 7 := by
  have hlen : ∀ id, (senStrItob id).length = 5 := fun id => rfl
  have hone : ∀ (c : UInt8) (n : Nat), [c] <+: name.drop n ↔ name[n]? = some c := fun c n => by
    rw [← List.head?_drop]
    cases name.drop n with
    | nil => simp
    | cons b rest => simp [List.cons_prefix_cons, eq_comm]
  have htwo : [0x70, 0x3c] <+: name ↔ name.head? = some 0x70 ∧ name[1]? = some 0x3c := by
    have hsplit : [0x70] ++ [0x3c] <+: name ↔ [0x70] <+: name ∧ [0x3c] <+: name.drop 1 :=
      append_prefix_iff
    rw [← hone, List.head?_eq_getElem?, ← hone, List.drop_zero]
    exact hsplit
  rw [inspectObject, append_prefix_iff, append_prefix_iff, append_prefix_iff, htwo]
  simp only [List.length_append, hlen, List.length_cons, List.length_nil, hone]
  tauto

theorem mkTime_ne_object (text : List UInt8) (cls self : Nat) :
    mkTime text ≠ .object cls self := by
  unfold mkTime
  dsimp only
  split_ifs <;> simp

/-- **Objects.** The reader makes an object of a token exactly where the buffer begins with what is
printed for this object, unless a point follows within the token. -/
theorem mkConst_object_iff (name : List UInt8) (len cls self : Nat) :
    mkConst name len = some (.object cls self) ↔
      1 < len ∧ (cls ≠ 0 ∧ cls < 2 ^ 30) ∧ (self ≠ 0 ∧ self < 2 ^ 30) ∧
        inspectObject cls self <+: name ∧ ¬ (13 < len ∧ name[13]? = some 0x2e) := by
  rw [inspectObject_prefix_iff]
  by_cases hone : len = 1
  · rw [mkConst, if_pos hone]
    split_ifs <;> simp [hone]
  by_cases hlen : 1 < len
  swap
  · simp [mkConst, hone, hlen]
  by_cases hp : name.head? = some 0x70 ∧ name[1]? = some 0x3c ∧ name[12]? = some 0x3e
  swap
  · rw [mkConst, if_neg hone, if_pos hlen, if_neg hp]
    by_cases htime : name.head? = some 0x3a ∧ name[1]? = some 0x3c
    · rw [if_pos htime]
      simp [hp, mkTime_ne_object]
    · rw [if_neg htime]
      split_ifs <;> simp [hp]
  rw [mkConst, if_neg hone, if_pos hlen, if_pos hp]
  dsimp only
  by_cases hzero : senStrBtoi (name.drop 2) = 0 ∨ senStrBtoi (name.drop 7) = 0
  · rw [if_pos hzero]
    refine ⟨by simp, ?_⟩
    rintro ⟨-, ⟨hcls, hcls'⟩, ⟨hself, hself'⟩, ⟨-, hpre, hpre'⟩, -⟩
    rcases hzero with hzero | hzero
    · exact absurd (hzero ▸ (senStrBtoi_eq_iff hcls).mpr ⟨hcls', hpre⟩).symm hcls
    · exact absurd (hzero ▸ (senStrBtoi_eq_iff hself).mpr ⟨hself', hpre'⟩).symm hself
  · rw [if_neg hzero]
    obtain ⟨hcls, hself⟩ := not_or.mp hzero
    by_cases hpoint : 13 < len ∧ name[13]? = some 0x2e
    · rw [if_pos hpoint]
      simp [hpoint]
    · rw [if_neg hpoint, Option.some.injEq, Const.object.injEq]
      constructor
      · rintro ⟨rfl, rfl⟩
        obtain ⟨hlt, hpre⟩ := (senStrBtoi_eq_iff hcls).mp rfl
        obtain ⟨hlt', hpre'⟩ := (senStrBtoi_eq_iff hself).mp rfl
        exact ⟨hlen, ⟨hcls, hlt⟩, ⟨hself, hlt'⟩, ⟨hp, hpre, hpre'⟩, hpoint⟩
      · rintro ⟨-, ⟨hne, hlt⟩, ⟨hne', hlt'⟩, ⟨-, hpre, hpre'⟩, -⟩
        exact ⟨(senStrBtoi_eq_iff hne).mpr ⟨hlt, hpre⟩, (senStrBtoi_eq_iff hne').mpr ⟨hlt', hpre'⟩⟩

/-- The text of a number is read as that number, up to a byte that is no digit. -/
theorem aton_decimalText_append {w : Nat} {i : Int} (hi : -2 ^ w < i ∧ i < 2 ^ w) {c : UInt8}
    (hc : isDigit c = false) (rest : List UInt8) :
    aton (w + 1) (decimalText i ++ c :: rest) = (i, c :: rest) := by
  have hdigits : ∀ d ∈ (digitsOf i.natAbs).reverse, d < 10 := fun d hd =>
    digitsOf_lt i.natAbs d (List.mem_reverse.mp hd)
  have hne : decimalText i ≠ [] := decimalText_ne_nil i
  have hhead : (decimalText i ++ c :: rest).head? = (decimalText i).head? := by
    rw [List.head?_append_of_ne_nil _ hne]
  have hall : ∀ b ∈ (digitsOf i.natAbs).reverse.map digitChar, isDigit b = true := by
    intro b hb
    obtain ⟨d, hd, rfl⟩ := List.mem_map.mp hb
    exact isDigit_digitChar (hdigits d hd)
  have hunsigned : unsigned (decimalText i ++ c :: rest) =
      (digitsOf i.natAbs).reverse.map digitChar ++ c :: rest := by
    rw [← unsigned_decimalText, unsigned, unsigned, hhead]
    split_ifs
    · exact List.tail_append_of_ne_nil hne
    · rfl
  have hrun : decimalRun (unsigned (decimalText i ++ c :: rest)) = (digitsOf i.natAbs).reverse := by
    rw [hunsigned, decimalRun, List.takeWhile_append_of_pos hall,
      List.takeWhile_cons_of_neg (by simp [hc]), List.append_nil, List.map_map]
    refine (List.map_congr_left fun d hd => ?_).trans (List.map_id _)
    exact toNat_digitChar (hdigits d hd)
  have hvalue : numeral 10 0 (decimalRun (unsigned (decimalText i ++ c :: rest))) = i.natAbs := by
    rw [hrun, numeral_reverse, ofDigits_digitsOf]
  have hlt : i.natAbs < 2 ^ w := by
    have : (i.natAbs : Int) < 2 ^ w := by omega
    exact_mod_cast this
  rw [aton_run (hvalue.trans_lt hlt), signedRun, signedRest, hvalue, hrun, hhead,
    if_neg (mt List.reverse_eq_nil_iff.mp (digitsOf_ne_nil _)), hunsigned,
    List.dropWhile_append_of_pos hall, List.dropWhile_cons_of_neg (by simp [hc])]
  by_cases hneg : i < 0
  · rw [if_pos ((head?_decimalText i).mpr hneg), show -(i.natAbs : Int) = i by omega]
  · rw [if_neg (mt (head?_decimalText i).mp hneg), show (i.natAbs : Int) = i by omega]

theorem mkTime_eq {text after rest : List UInt8} {sec usec : Int}
    (hsec : senAtoi text = (sec, 0x2e :: after)) (husec : senAtoi after = (usec, 0x3e :: rest)) :
    mkTime text = .time sec usec := by
  simp [mkTime, hsec, husec]

/-- **Times.** What is printed for a time is read as this time. -/
theorem mkConst_inspectTime {sec usec : Int} (hsec : -2 ^ 31 < sec ∧ sec < 2 ^ 31)
    (husec : -2 ^ 31 < usec ∧ usec < 2 ^ 31) (rest : List UInt8) :
    mkConst (inspectTime sec usec ++ rest) (inspectTime sec usec).length =
      some (.time sec usec) := by
  have hlen : 1 < (inspectTime sec usec).length := by simp [inspectTime]
  have hhead : (inspectTime sec usec ++ rest).head? = some 0x3a := by simp [inspectTime]
  have hsecond : (inspectTime sec usec ++ rest)[1]? = some 0x3c := by simp [inspectTime]
  have hdrop : (inspectTime sec usec).drop 2 =
      decimalText sec ++ 0x2e :: (decimalText usec ++ [0x3e]) := by simp [inspectTime]
  have hfirst : senAtoi (decimalText sec ++ 0x2e :: (decimalText usec ++ [0x3e])) =
      (sec, 0x2e :: (decimalText usec ++ [0x3e])) := by
    rw [senAtoi_eq]
    exact aton_decimalText_append hsec (by decide) _
  have hlast : senAtoi (decimalText usec ++ [0x3e]) = (usec, [0x3e]) := by
    rw [senAtoi_eq]
    exact aton_decimalText_append husec (by decide) _
  rw [mkConst, if_neg hlen.ne', if_pos hlen, if_neg (by simp [hhead]), if_pos ⟨hhead, hsecond⟩,
    List.take_left, hdrop, mkTime_eq hfirst hlast]

/-- A time before 1970. -/
theorem mkConst_inspectTime_before :
    mkConst (inspectTime (-5) 250 ++ [0x29]) (inspectTime (-5) 250).length =
      some (.time (-5) 250) :=
  mkConst_inspectTime ⟨by decide, by decide⟩ ⟨by decide, by decide⟩ [0x29]

end Senna.Scm
