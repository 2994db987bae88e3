/-
# Comparisons of the query language

`=`, `<`, `>`, `<=` and `>=` compare each argument with the next one. Integers are
compared as numbers and strings by their bytes. The case for times has no `break`: it runs on into
the case for all other objects, which compares the first eight bytes of the values. In
memory those are the seconds and the microseconds of a time, each with its lowest byte first.

So times are compared in a total order, but not always in that of time. They are where the lowest
byte in which the seconds differ, or the microseconds when the seconds are equal, is
ordered as these numbers are.
-/

import Senna.Scm.Arith
import Mathlib.Data.List.Lex

namespace Senna.Scm

universe u

variable {Flt : Type u}

/-- Bytes are ordered as unsigned numbers. -/
instance byteOrder : LinearOrder UInt8 where
  le_refl _ := UInt8.le_refl _
  le_trans _ _ _ := UInt8.le_trans
  le_antisymm _ _ := UInt8.le_antisymm
  le_total := UInt8.le_total
  lt_iff_le_not_ge a b := by
    simp only [UInt8.lt_iff_toNat_lt, UInt8.le_iff_toNat_le]
    omega
  toDecidableLE := inferInstance
  toDecidableLT := inferInstance

namespace Rel

variable {K : Type u} [LinearOrder K]

/-- A relation on the values of an order. -/
def On : Rel → K → K → Prop
  | eq, a, b => a = b
  | lt, a, b => a < b
  | gt, a, b => b < a
  | le, a, b => a ≤ b
  | ge, a, b => b ≤ a

instance (rel : Rel) (a b : K) : Decidable (rel.On a b) :=
  match rel with
  | eq => inferInstanceAs (Decidable (a = b))
  | lt => inferInstanceAs (Decidable (a < b))
  | gt => inferInstanceAs (Decidable (b < a))
  | le => inferInstanceAs (Decidable (a ≤ b))
  | ge => inferInstanceAs (Decidable (b ≤ a))

/-- Relations are decided by the sign of a comparison. -/
theorem on_zero_iff {r : Int} {a b : K} (hlt : r < 0 ↔ a < b) (heq : r = 0 ↔ a = b) (rel : Rel) :
    rel.On r 0 ↔ rel.On a b := by
  have hgt : 0 < r ↔ b < a := by
    rw [← not_le, le_iff_lt_or_eq, hlt, heq, ← le_iff_lt_or_eq, not_le]
  cases rel with
  | eq => exact heq
  | lt => exact hlt
  | gt => exact hgt
  | le => exact not_lt.symm.trans ((not_congr hgt).trans not_lt)
  | ge => exact not_lt.symm.trans ((not_congr hlt).trans not_lt)

end Rel

/-- `memcmp` of the first `n` bytes -/
def memcmp : Nat → List UInt8 → List UInt8 → Int
  | n + 1, x :: xs, y :: ys => if x = y then memcmp n xs ys else if x < y then -1 else 1
  | _, _, _ => 0

/-- The comparison of two strings. -/
def bulkCompare (a b : List UInt8) : Int :=
  let la := a.length
  let lb := b.length
  if la > lb then
    let r := memcmp lb a b
    if r = 0 then 1 else r
  else
    let r := memcmp la a b
    if r = 0 then (if la = lb then 0 else -1) else r

/-- The `n` lowest bytes of a number in memory. -/
def lowBytes : Nat → Int → List UInt8
  | 0, _ => []
  | n + 1, i => .ofNat (i % 256).toNat :: lowBytes n (i / 256)

/-- A `sen_timeval` in memory. -/
def timeBytes (sec usec : Int) : List UInt8 := lowBytes 4 sec ++ lowBytes 4 usec

section Functions

variable (fl : FloatOps Flt) (raw : Obj Flt → List UInt8)

/-- A relation of floats. `=` is made of the two others. -/
def FloatOps.relation : Rel → Flt → Flt → Bool
  | .eq, d, e => fl.rel .le d e && fl.rel .ge d e
  | rel, d, e => fl.rel rel d e

/-- The first `sizeof(sen_timeval)` bytes of an object's value. `raw` gives those of objects that
are no times. -/
def Obj.tvBytes : Obj Flt → List UInt8
  | .time sec usec => timeBytes sec usec
  | o => raw o

/-- `do_compare(x, y, r, op)`, and the same for `=`. -/
def doCompare (rel : Rel) (m : Heap Flt) (x y : Nat) : Except Fault Bool × Heap Flt :=
  match m.cell x, m.cell y with
  | .int i, .int j => (.ok (rel.On i.val j.val), m)
  | .int i, .float e => (.ok (fl.relation rel (fl.ofInt i.val) e), m)
  | .int i, _ =>
      match senObj2int m y with
      | none => (.error (.error "can't convert into numeric value"), m)
      | some (j, m) => (.ok (rel.On i.val j.val), m)
  | .float d, .int j => (.ok (fl.relation rel d (fl.ofInt j.val)), m)
  | .float d, .float e => (.ok (fl.relation rel d e), m)
  | .float d, _ =>
      match senObj2int m y with
      | none => (.error (.error "can't convert into numeric value"), m)
      | some (j, m) => (.ok (fl.relation rel d (fl.ofInt j.val)), m)
  | .bulk a, .bulk b => (.ok (rel.On (bulkCompare a b) 0), m)
  | .bulk _, _ => (.error (.error "can't compare"), m)
  -- no `break` ends this case: the comparison of the seconds and microseconds is overwritten
  | .time sec usec, .time sec' usec' =>
      (.ok (rel.On (memcmp 8 (timeBytes sec usec) (timeBytes sec' usec')) 0), m)
  | .time _ _, _ => (.error (.error "can't compare"), m)
  | o, p => (.ok (rel.On (memcmp 8 (o.tvBytes raw) (p.tvBytes raw)) 0), m)

/-- `do { POP(y, args); do_compare(x, y, r, op); x = y; } while (PAIRP(args) && r);` for the
objects `ys` of a list, which is not empty at first. -/
def compareLoop (rel : Rel) : List Nat → Heap Flt → Nat → Except Fault Bool × Heap Flt
  | [], m, _ => (.ok true, m)
  | y :: ys, m, x =>
      match doCompare fl raw rel m x y with
      | (.ok true, m) => compareLoop rel ys m y
      | ended => ended

/-- The function that compares its arguments with a relation. -/
def compareArgs (rel : Rel) (m : Heap Flt) (args : List Nat) : Except Fault Nat × Heap Flt :=
  match args with
  | x :: y :: ys =>
      match compareLoop fl raw rel (y :: ys) m x with
      | (.ok r, m) => (.ok (if r then senQlT else senQlF), m)
      | (.error e, m) => (.error e, m)
  | _ => (.error (.error "Few arguments"), m)

/-- `nf_neq` -/
def nfNeq : Heap Flt → List Nat → Except Fault Nat × Heap Flt := compareArgs fl raw .eq

/-- `nf_less` -/
def nfLess : Heap Flt → List Nat → Except Fault Nat × Heap Flt := compareArgs fl raw .lt

/-- `nf_gre` -/
def nfGre : Heap Flt → List Nat → Except Fault Nat × Heap Flt := compareArgs fl raw .gt

/-- `nf_leq` -/
def nfLeq : Heap Flt → List Nat → Except Fault Nat × Heap Flt := compareArgs fl raw .le

/-- `nf_geq` -/
def nfGeq : Heap Flt → List Nat → Except Fault Nat × Heap Flt := compareArgs fl raw .ge

/-- The functions `=`, `<`, `>`, `<=` and `>=`. -/
def Rel.run : Rel → Heap Flt → List Nat → Except Fault Nat × Heap Flt
  | .eq => nfNeq fl raw
  | .lt => nfLess fl raw
  | .gt => nfGre fl raw
  | .le => nfLeq fl raw
  | .ge => nfGeq fl raw

theorem Rel.run_eq (rel : Rel) : rel.run fl raw = compareArgs fl raw rel := by
  cases rel <;> rfl

end Functions

@[simp]
theorem memcmp_zero (a b : List UInt8) : memcmp 0 a b = 0 := by
  unfold memcmp
  rfl

theorem memcmp_succ_cons (n : Nat) (x y : UInt8) (a b : List UInt8) :
    memcmp (n + 1) (x :: a) (y :: b) = if x = y then memcmp n a b else if x < y then -1 else 1 :=
  rfl

/-- Two strings are compared by their first bytes, if these differ. -/
theorem bulkCompare_cons (x y : UInt8) (a b : List UInt8) :
    bulkCompare (x :: a) (y :: b) =
      if x = y then bulkCompare a b else if x < y then -1 else 1 := by
  unfold bulkCompare
  simp only [List.length_cons, memcmp_succ_cons, gt_iff_lt, Nat.add_lt_add_iff_right,
    Nat.add_right_cancel_iff]
  split_ifs <;> simp_all

/-- **Strings are compared by their bytes, and a string comes before its extensions.** -/
theorem bulkCompare_iff (a b : List UInt8) :
    (bulkCompare a b < 0 ↔ a < b) ∧ (bulkCompare a b = 0 ↔ a = b) := by
  induction a generalizing b with
  | nil => cases b <;> simp [bulkCompare]
  | cons x a ih =>
      cases b with
      | nil => simp [bulkCompare]
      | cons y b =>
          rw [bulkCompare_cons, List.cons_lt_cons_iff, List.cons_eq_cons]
          rcases lt_trichotomy x y with hlt | rfl | hgt
          · simp [hlt, hlt.ne]
          · simpa using ih b
          · simp [hgt.ne', hgt.not_gt]

/-- Strings of one length are compared like memory. -/
theorem memcmp_eq_bulkCompare (n : Nat) {a b : List UInt8} (ha : a.length = n) (hb : b.length = n) :
    memcmp n a b = bulkCompare a b := by
  simp only [bulkCompare, ha, hb, gt_iff_lt, lt_irrefl, if_false, if_true]
  split_ifs with hzero <;> simp_all

@[simp]
theorem length_lowBytes (n : Nat) (i : Int) : (lowBytes n i).length = n := by
  induction n generalizing i with
  | zero => rfl
  | succ n ih => simp [lowBytes, ih]

/-- Times are compared by their bytes in memory. -/
theorem memcmp_timeBytes_iff (s us s' us' : Int) :
    (memcmp 8 (timeBytes s us) (timeBytes s' us') < 0 ↔ timeBytes s us < timeBytes s' us') ∧
      (memcmp 8 (timeBytes s us) (timeBytes s' us') = 0 ↔ timeBytes s us = timeBytes s' us') := by
  rw [memcmp_eq_bulkCompare 8 (by simp [timeBytes]) (by simp [timeBytes])]
  exact bulkCompare_iff ..

/-- The lowest byte in which two numbers differ is ordered like them. -/
def LowFirst (i j : Int) : Prop :=
  ∀ k : Nat, i % 256 ^ k = j % 256 ^ k → i % 256 ^ (k + 1) ≠ j % 256 ^ (k + 1) →
    (i % 256 ^ (k + 1) < j % 256 ^ (k + 1) ↔ i < j)

/-- Two times are in the order of their bytes. -/
def TimesAgree (t t' : Int × Int) : Prop :=
  if t.1 = t'.1 then LowFirst t.2 t'.2 else LowFirst t.1 t'.1

theorem lowByte_toNat (i : Int) : (UInt8.ofNat (i % 256).toNat).toNat = (i % 256).toNat := by
  rw [UInt8.toNat_ofNat']
  omega

theorem lowByte_lt_iff (i j : Int) :
    UInt8.ofNat (i % 256).toNat < .ofNat (j % 256).toNat ↔ i % 256 < j % 256 := by
  rw [UInt8.lt_iff_toNat_lt, lowByte_toNat, lowByte_toNat]
  omega

theorem lowByte_eq_iff (i j : Int) :
    UInt8.ofNat (i % 256).toNat = .ofNat (j % 256).toNat ↔ i % 256 = j % 256 := by
  rw [← UInt8.toNat_inj, lowByte_toNat, lowByte_toNat]
  omega

/-- The rest of a number, by its lowest byte and the others. -/
theorem emod_pow_succ (i : Int) (n : Nat) :
    i % 256 ^ (n + 1) = i % 256 + 256 * (i / 256 % 256 ^ n) := by
  have hquot : i / (256 * 256 ^ n) = i / 256 / 256 ^ n := by
    rw [Int.ediv_ediv_of_nonneg (by decide)]
  rw [pow_succ', Int.emod_def i (256 * 256 ^ n), hquot, Int.emod_def (i / 256), Int.emod_def i 256]
  ring

/-- The lowest byte that differs decides the order of the low bytes. -/
theorem lowBytes_lt_iff {n k : Nat} (hk : k < n) {i j : Int} (s t : List UInt8)
    (heq : i % 256 ^ k = j % 256 ^ k) (hne : i % 256 ^ (k + 1) ≠ j % 256 ^ (k + 1)) :
    lowBytes n i ++ s < lowBytes n j ++ t ↔ i % 256 ^ (k + 1) < j % 256 ^ (k + 1) := by
  induction k generalizing n i j with
  | zero =>
      obtain ⟨n, rfl⟩ : ∃ p, n = p + 1 := ⟨n - 1, by omega⟩
      have hbyte : i % 256 ≠ j % 256 := by simpa using hne
      simp [lowBytes, List.cons_lt_cons_iff, lowByte_lt_iff, lowByte_eq_iff, hbyte]
  | succ k ih =>
      obtain ⟨n, rfl⟩ : ∃ p, n = p + 1 := ⟨n - 1, by omega⟩
      rw [emod_pow_succ i, emod_pow_succ j] at heq hne ⊢
      have hbyte : i % 256 = j % 256 := by omega
      have hstep := ih (n := n) (i := i / 256) (j := j / 256) (by omega) (by omega) (by omega)
      simp only [lowBytes, List.cons_append, List.cons_lt_cons_iff, hbyte, lt_irrefl, false_or,
        true_and, hstep]
      omega

/-- `int32_t` -/
def IsInt32 (i : Int) : Prop := -2 ^ 31 ≤ i ∧ i < 2 ^ 31

instance (i : Int) : Decidable (IsInt32 i) := inferInstanceAs (Decidable (_ ∧ _))

theorem emod_pow_of_le {i j : Int} {k l : Nat} (hle : l ≤ k)
    (heq : i % 256 ^ k = j % 256 ^ k) : i % 256 ^ l = j % 256 ^ l := by
  have hdvd : (256 ^ l : Int) ∣ 256 ^ k := pow_dvd_pow _ hle
  rw [← Int.emod_emod_of_dvd i hdvd, heq, Int.emod_emod_of_dvd j hdvd]

theorem append_lt_append_iff (a s t : List UInt8) : a ++ s < a ++ t ↔ s < t := by
  induction a with
  | nil => rfl
  | cons x a ih => simpa [List.cons_lt_cons_iff] using ih

/-- Two words differ in one of their four bytes. -/
theorem exists_lowest {i j : Int} (hi : IsInt32 i) (hj : IsInt32 j) (hne : i ≠ j) :
    ∃ k < 4, i % 256 ^ k = j % 256 ^ k ∧ i % 256 ^ (k + 1) ≠ j % 256 ^ (k + 1) := by
  unfold IsInt32 at hi hj
  by_contra hnone
  push Not at hnone
  have hsame (n : Nat) (hn : n ≤ 4) : i % 256 ^ n = j % 256 ^ n := by
    induction n with
    | zero => simp
    | succ n ih => exact hnone n (by omega) (ih (by omega))
  have hall := hsame 4 le_rfl
  omega

/-- A word is ordered by its bytes in memory like its value if the lowest byte that differs is. -/
theorem lowFirst_iff {i j : Int} (hi : IsInt32 i) (hj : IsInt32 j) (hne : i ≠ j)
    (s t : List UInt8) :
    (lowBytes 4 i ++ s < lowBytes 4 j ++ t ↔ i < j) ↔ LowFirst i j := by
  obtain ⟨k, hk, heq, hbyte⟩ := exists_lowest hi hj hne
  rw [lowBytes_lt_iff hk s t heq hbyte]
  refine ⟨fun h l hleq hlne => ?_, fun h => h k heq hbyte⟩
  have hlk : l = k := by
    rcases Nat.lt_trichotomy l k with hlt | hlk | hgt
    · exact absurd (emod_pow_of_le hlt heq) hlne
    · exact hlk
    · exact absurd (emod_pow_of_le hgt hleq) hbyte
  rwa [hlk]

theorem lowFirst_self (i : Int) : LowFirst i i := fun _ _ hne => absurd rfl hne

/-- **The bytes of two times are in their order if the times agree.** -/
theorem timesAgree_iff (t t' : Int × Int) (hs : IsInt32 t.1) (hs' : IsInt32 t'.1)
    (hus : IsInt32 t.2) (hus' : IsInt32 t'.2) :
    (timeBytes t.1 t.2 < timeBytes t'.1 t'.2 ↔ t.1 < t'.1 ∨ t.1 = t'.1 ∧ t.2 < t'.2) ↔
      TimesAgree t t' := by
  unfold TimesAgree timeBytes
  split_ifs with hsec
  · rw [hsec, append_lt_append_iff]
    by_cases husec : t.2 = t'.2
    · simp [husec, lowFirst_self]
    · simpa using lowFirst_iff hus hus' husec [] []
  · simpa [hsec] using lowFirst_iff hs hs' hsec (lowBytes 4 t.2) (lowBytes 4 t'.2)

/-- The objects are integers, or they are strings, or they are times. -/
inductive Homogeneous (m : Heap Flt) (S : Set Nat) : Prop
  | ints (h : ∀ x ∈ S, ∃ i, m.cell x = .int i)
  | bulks (h : ∀ x ∈ S, ∃ value, m.cell x = .bulk value)
  | times (h : ∀ x ∈ S, ∃ sec usec, m.cell x = .time sec usec ∧ IsInt32 sec ∧
      0 ≤ usec ∧ usec < 1000000)

/-- Integers are ordered as numbers, strings by their bytes with a string before its
extensions, and times by their seconds and then by their microseconds. -/
def Obj.Before : Obj Flt → Obj Flt → Prop
  | .int i, .int j => i.val < j.val
  | .bulk a, .bulk b => a < b
  | .time sec usec, .time sec' usec' => sec < sec' ∨ sec = sec' ∧ usec < usec'
  | _, _ => False

section Order

variable (fl : FloatOps Flt) (raw : Obj Flt → List UInt8) (m : Heap Flt)

/-- A function returns `T`. -/
def Rel.Says (rel : Rel) (xs : List Nat) : Prop := (rel.run fl raw m xs).1 = .ok senQlT

/-- The comparisons of some objects make a total order, which is the order of their values, and a
list of them is in order when each is in order with the next one. -/
structure TotallyOrdered (S : Set Nat) : Prop where
  one : ∀ x ∈ S, ∀ y ∈ S,
    Rel.Says fl raw m .lt [x, y] ∧ ¬ Rel.Says fl raw m .eq [x, y] ∧ ¬ Rel.Says fl raw m .gt [x, y] ∨
    ¬ Rel.Says fl raw m .lt [x, y] ∧ Rel.Says fl raw m .eq [x, y] ∧ ¬ Rel.Says fl raw m .gt [x, y] ∨
    ¬ Rel.Says fl raw m .lt [x, y] ∧ ¬ Rel.Says fl raw m .eq [x, y] ∧ Rel.Says fl raw m .gt [x, y]
  le_iff : ∀ x ∈ S, ∀ y ∈ S, Rel.Says fl raw m .le [x, y] ↔
    Rel.Says fl raw m .lt [x, y] ∨ Rel.Says fl raw m .eq [x, y]
  ge_iff : ∀ x ∈ S, ∀ y ∈ S, Rel.Says fl raw m .ge [x, y] ↔
    Rel.Says fl raw m .gt [x, y] ∨ Rel.Says fl raw m .eq [x, y]
  trans : ∀ x ∈ S, ∀ y ∈ S, ∀ z ∈ S, Rel.Says fl raw m .lt [x, y] →
    Rel.Says fl raw m .lt [y, z] → Rel.Says fl raw m .lt [x, z]
  before : ∀ x ∈ S, ∀ y ∈ S, Rel.Says fl raw m .lt [x, y] ↔ (m.cell x).Before (m.cell y)
  chain : ∀ (rel : Rel) (xs : List Nat), (∀ x ∈ xs, x ∈ S) → 2 ≤ xs.length →
    (Rel.Says fl raw m rel xs ↔ List.IsChain (fun x y => Rel.Says fl raw m rel [x, y]) xs)

/-- The objects are compared by a key. -/
def ComparedBy {K : Type} [LinearOrder K] (S : Set Nat) (key : Nat → K) : Prop :=
  ∀ rel, ∀ x ∈ S, ∀ y ∈ S,
    doCompare fl raw rel m x y = (.ok (decide (Rel.On rel (key x) (key y))), m)

variable {fl raw m} {S : Set Nat} {K : Type} [LinearOrder K] {key : Nat → K}

/-- A loop over objects that are compared by a key. -/
theorem ComparedBy.loop (hkey : ComparedBy fl raw m S key) (rel : Rel) {x : Nat} {ys : List Nat}
    (hall : ∀ y ∈ x :: ys, y ∈ S) :
    compareLoop fl raw rel ys m x =
      (.ok (decide (List.IsChain (fun x y => rel.On (key x) (key y)) (x :: ys))), m) := by
  induction ys generalizing x with
  | nil => simp [compareLoop]
  | cons y ys ih =>
      have hx : x ∈ S := hall x (by simp)
      have hy : y ∈ S := hall y (by simp)
      rw [compareLoop, hkey rel x hx y hy]
      by_cases hxy : rel.On (key x) (key y)
      · simp only [hxy, decide_true, List.isChain_cons_cons, true_and]
        exact ih fun z hz => hall z (List.mem_cons_of_mem _ hz)
      · simp [hxy]

theorem ComparedBy.says_iff (hkey : ComparedBy fl raw m S key) (rel : Rel) {xs : List Nat}
    (hall : ∀ y ∈ xs, y ∈ S) (hlen : 2 ≤ xs.length) :
    Rel.Says fl raw m rel xs ↔ List.IsChain (fun x y => rel.On (key x) (key y)) xs := by
  match xs, hlen with
  | x :: y :: ys, _ =>
      rw [Rel.Says, Rel.run_eq, compareArgs, hkey.loop rel hall]
      by_cases hchain : List.IsChain (fun x y => rel.On (key x) (key y)) (x :: y :: ys)
      · simp [hchain]
      · simp [hchain, senQlT, senQlF]

theorem ComparedBy.says_pair (hkey : ComparedBy fl raw m S key) (rel : Rel) {x y : Nat}
    (hx : x ∈ S) (hy : y ∈ S) : Rel.Says fl raw m rel [x, y] ↔ rel.On (key x) (key y) := by
  rw [hkey.says_iff rel (by simp [hx, hy]) (by simp)]
  simp

/-- Objects that are compared by a key are totally ordered, if that is the order of
their values. -/
theorem ComparedBy.totallyOrdered_iff (hkey : ComparedBy fl raw m S key) :
    TotallyOrdered fl raw m S ↔
      ∀ x ∈ S, ∀ y ∈ S, key x < key y ↔ (m.cell x).Before (m.cell y) := by
  constructor
  · intro h x hx y hy
    rw [← h.before x hx y hy, hkey.says_pair .lt hx hy]
    rfl
  · intro hbefore
    constructor
    case one =>
      intro x hx y hy
      simp only [hkey.says_pair _ hx hy, Rel.On]
      rcases lt_trichotomy (key x) (key y) with hlt | heq | hgt
      · exact .inl ⟨hlt, hlt.ne, hlt.not_gt⟩
      · exact .inr (.inl ⟨heq.not_lt, heq, heq.not_gt⟩)
      · exact .inr (.inr ⟨hgt.not_gt, hgt.ne', hgt⟩)
    case le_iff =>
      intro x hx y hy
      simpa only [hkey.says_pair _ hx hy, Rel.On] using le_iff_lt_or_eq
    case ge_iff =>
      intro x hx y hy
      simp only [hkey.says_pair _ hx hy, Rel.On]
      rw [le_iff_lt_or_eq, @eq_comm _ (key y)]
    case trans =>
      intro x hx y hy z hz
      simpa only [hkey.says_pair _ hx hy, hkey.says_pair _ hy hz, hkey.says_pair _ hx hz, Rel.On]
        using lt_trans
    case before =>
      intro x hx y hy
      rw [← hbefore x hx y hy, hkey.says_pair .lt hx hy]
      rfl
    case chain =>
      intro rel xs hall hlen
      rw [hkey.says_iff rel hall hlen]
      exact List.IsChain.iff_of_mem_imp fun _ _ hx hy =>
        (hkey.says_pair rel (hall _ hx) (hall _ hy)).symm

/-- Integers are compared by their values. -/
theorem comparedBy_ints (h : ∀ x ∈ S, ∃ i, m.cell x = .int i) :
    ComparedBy fl raw m S fun x => ((m.cell x).toInt?.getD (.wrap 0)).val := by
  intro rel x hx y hy
  obtain ⟨i, hi⟩ := h x hx
  obtain ⟨j, hj⟩ := h y hy
  simp [doCompare, hi, hj, Obj.toInt?]

/-- The bytes that strings and times are compared by. -/
def Obj.sortBytes : Obj Flt → List UInt8
  | .bulk value => value
  | o => o.tvBytes fun _ => []

theorem comparedBy_bulks (h : ∀ x ∈ S, ∃ value, m.cell x = .bulk value) :
    ComparedBy fl raw m S fun x => (m.cell x).sortBytes := by
  intro rel x hx y hy
  obtain ⟨a, ha⟩ := h x hx
  obtain ⟨b, hb⟩ := h y hy
  obtain ⟨hlt, heq⟩ := bulkCompare_iff a b
  simp [doCompare, ha, hb, Obj.sortBytes, Rel.on_zero_iff hlt heq]

theorem comparedBy_times (h : ∀ x ∈ S, ∃ sec usec, m.cell x = .time sec usec) :
    ComparedBy fl raw m S fun x => (m.cell x).sortBytes := by
  intro rel x hx y hy
  obtain ⟨s, us, ht⟩ := h x hx
  obtain ⟨s', us', ht'⟩ := h y hy
  obtain ⟨hlt, heq⟩ := memcmp_timeBytes_iff s us s' us'
  simp [doCompare, ht, ht', Obj.sortBytes, Obj.tvBytes, Rel.on_zero_iff hlt heq]

/-- **Comparisons of integers and strings are a total order, and those of times are where all of
them agree with their bytes in memory.** -/
theorem comparisons_ordered_iff (fl : FloatOps Flt) (raw : Obj Flt → List UInt8) (m : Heap Flt)
    (S : Set Nat) (hS : Homogeneous m S) :
    TotallyOrdered fl raw m S ↔ ∀ x ∈ S, ∀ y ∈ S, ∀ t t' : Int × Int,
      m.cell x = .time t.1 t.2 → m.cell y = .time t'.1 t'.2 → TimesAgree t t' := by
  cases hS with
  | ints h =>
      rw [(comparedBy_ints h).totallyOrdered_iff]
      refine iff_of_true (fun x hx y hy => ?_) fun x hx y _ t t' ht => ?_
      · obtain ⟨i, hi⟩ := h x hx
        obtain ⟨j, hj⟩ := h y hy
        simp [hi, hj, Obj.toInt?, Obj.Before]
      · obtain ⟨i, hi⟩ := h x hx
        simp [hi] at ht
  | bulks h =>
      rw [(comparedBy_bulks h).totallyOrdered_iff]
      refine iff_of_true (fun x hx y hy => ?_) fun x hx y _ t t' ht => ?_
      · obtain ⟨a, ha⟩ := h x hx
        obtain ⟨b, hb⟩ := h y hy
        simp [ha, hb, Obj.sortBytes, Obj.Before]
      · obtain ⟨a, ha⟩ := h x hx
        simp [ha] at ht
  | times h =>
      have htime : ∀ x ∈ S, ∃ sec usec, m.cell x = .time sec usec := by
        intro x hx
        obtain ⟨sec, usec, ht, -⟩ := h x hx
        exact ⟨sec, usec, ht⟩
      rw [(comparedBy_times htime).totallyOrdered_iff]
      refine forall₂_congr fun x hx => forall₂_congr fun y hy => ?_
      obtain ⟨s, us, hx, hs, hus⟩ := h x hx
      obtain ⟨s', us', hy, hs', hus'⟩ := h y hy
      have hagree := timesAgree_iff (s, us) (s', us') hs hs'
        (by unfold IsInt32; omega) (by unfold IsInt32; omega)
      simp only [hx, hy, Obj.sortBytes, Obj.tvBytes, Obj.Before, Obj.time.injEq]
      refine hagree.trans ⟨?_, fun hall => hall _ _ ⟨rfl, rfl⟩ ⟨rfl, rfl⟩⟩
      rintro hagrees t t' ⟨rfl, rfl⟩ ⟨rfl, rfl⟩
      exact hagrees

end Order

/-- Two times, 256 seconds and 1 second. -/
theorem comparisons_ordered_iff_times :
    TotallyOrdered .unit (fun _ => []) (.ofObjs [.time 256 0, .time 1 0]) {3, 4} ↔
      ∀ x ∈ ({3, 4} : Set Nat), ∀ y ∈ ({3, 4} : Set Nat), ∀ t t' : Int × Int,
        (.ofObjs [.time 256 0, .time 1 0] : Heap Unit).cell x = .time t.1 t.2 →
        (.ofObjs [.time 256 0, .time 1 0] : Heap Unit).cell y = .time t'.1 t'.2 →
          TimesAgree t t' := by
  refine comparisons_ordered_iff _ _ _ _ (.times ?_)
  rintro x (rfl | rfl)
  · exact ⟨256, 0, rfl, by decide, by decide, by decide⟩
  · exact ⟨1, 0, rfl, by decide, by decide, by decide⟩

/-- 256 seconds come before 1 second. -/
theorem comparisons_ordered_fails :
    ¬ TotallyOrdered .unit (fun _ => []) (.ofObjs [.time 256 0, .time 1 0]) {3, 4} := by
  intro h
  have hbefore := (h.before 3 (by simp) 4 (by simp)).mp rfl
  revert hbefore
  simp [Heap.ofObjs, Obj.Before]

end Senna.Scm
