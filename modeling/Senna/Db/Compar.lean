/-
# Sorting records by a fixed-size slot

The comparison functions that `DEF_COMPAR_FUNC` makes for the slots of the classes `<int>`,
`<uint>`, `<int64>` and `<time>` return a difference as an `int`. What the sort makes of it is the
order of the values as long as no two records are too far apart: of a distance only its rest modulo
`2 ^ 32` is left, and the rest has to be below `2 ^ 31`.
-/

import Mathlib.Data.Prod.Lex
import Mathlib.Order.WithBot
import Senna.Index.RecordsHeap
import Senna.Set.SortSpec

namespace Senna.Db

open Senna.Lib Senna.Set Senna.Index

universe u v

variable {ε : Type u} {α : Type v}

/-- `sen_timeval`. -/
structure SenTimeval where
  tvSec : Int32
  tvUsec : Int32
  deriving DecidableEq

/-- `DEF_COMPAR_FUNC`. `raAt` is `sen_ra_at` on the array that the `userdata` of an object points
to; a null pointer is `none`. `key` is the id that `sen_set_element_info` finds in an entry. -/
def defComparFunc (expr : α → α → Int) (raAt : RecordsObj ε → Nat → Option α) (key : ε → Nat) :
    RecCompar ε := fun ra a rb b _ =>
  match raAt ra (key a), raAt rb (key b) with
  | some va, some vb => expr va vb
  | some _, none => 1
  | none, some _ => -1
  | none, none => 0

/-- `compar_int`. -/
def comparInt : (RecordsObj ε → Nat → Option Int32) → (ε → Nat) → RecCompar ε :=
  defComparFunc fun va vb => (va - vb).toInt

/-- `compar_uint`. -/
def comparUint : (RecordsObj ε → Nat → Option UInt32) → (ε → Nat) → RecCompar ε :=
  defComparFunc fun va vb => (va - vb).toInt32.toInt

/-- `compar_int64`. -/
def comparInt64 : (RecordsObj ε → Nat → Option Int64) → (ε → Nat) → RecCompar ε :=
  defComparFunc fun va vb => (va - vb).toInt32.toInt

/-- `compar_time`. -/
def comparTime : (RecordsObj ε → Nat → Option SenTimeval) → (ε → Nat) → RecCompar ε :=
  defComparFunc fun va vb =>
    if va.tvSec ≠ vb.tvSec then (va.tvSec - vb.tvSec).toInt else (va.tvUsec - vb.tvUsec).toInt

/-- The classes of slots whose elements are numbers or times. -/
inductive SlotClass
  | int
  | uint
  | int64
  | time
  deriving DecidableEq, Repr

/-- The elements of a slot. -/
abbrev SlotClass.Elem : SlotClass → Type
  | .int => Int32
  | .uint => UInt32
  | .int64 => Int64
  | .time => SenTimeval

/-- The comparison function that `:sort` chooses for a slot. -/
def slotCompar : (c : SlotClass) → (RecordsObj ε → Nat → Option c.Elem) → (ε → Nat) → RecCompar ε
  | .int => comparInt
  | .uint => comparUint
  | .int64 => comparInt64
  | .time => comparTime

/-- The number an element stands for; a time is its seconds and then its microseconds. -/
def SlotClass.value : (c : SlotClass) → c.Elem → Int ×ₗ Int
  | .int, (v : Int32) => toLex (v.toInt, 0)
  | .uint, (v : UInt32) => toLex (v.toNat, 0)
  | .int64, (v : Int64) => toLex (v.toInt, 0)
  | .time, (v : SenTimeval) => toLex (v.tvSec.toInt, v.tvUsec.toInt)

/-- How far apart two elements are: two times by their seconds, or by their microseconds in the
same second. -/
def SlotClass.distance : (c : SlotClass) → c.Elem → c.Elem → Int
  | .int, (a : Int32), (b : Int32) => a.toInt - b.toInt
  | .uint, (a : UInt32), (b : UInt32) => a.toNat - b.toNat
  | .int64, (a : Int64), (b : Int64) => a.toInt - b.toInt
  | .time, (a : SenTimeval), (b : SenTimeval) =>
      if a.tvSec ≠ b.tvSec then a.tvSec.toInt - b.tvSec.toInt
      else a.tvUsec.toInt - b.tvUsec.toInt

/-- Equal elements, or elements whose distance has a rest above 0 and below `2 ^ 31`. -/
def SlotClass.Near (c : SlotClass) (a b : c.Elem) : Prop :=
  c.distance a b = 0 ∨
    0 < |c.distance a b| % 2 ^ 32 ∧ |c.distance a b| % 2 ^ 32 < 2 ^ 31

section

variable (c : SlotClass)

theorem distance_pos (a b : c.Elem) : 0 < c.distance a b ↔ c.value b < c.value a := by
  cases c with
  | int => simp [SlotClass.distance, SlotClass.value, Prod.Lex.lt_iff]
  | uint => simp [SlotClass.distance, SlotClass.value, Prod.Lex.lt_iff]
  | int64 => simp [SlotClass.distance, SlotClass.value, Prod.Lex.lt_iff]
  | time =>
      simp only [SlotClass.distance, SlotClass.value, Prod.Lex.lt_iff, ofLex_toLex]
      by_cases hsec : a.tvSec = b.tvSec
      · simp [hsec]
      · have hne : a.tvSec.toInt ≠ b.tvSec.toInt := fun h => hsec (Int32.toInt_inj.mp h)
        rw [if_pos hsec]
        omega

theorem distance_comm (a b : c.Elem) : c.distance b a = -c.distance a b := by
  cases c with
  | int => simp [SlotClass.distance]
  | uint => simp [SlotClass.distance]
  | int64 => simp [SlotClass.distance]
  | time =>
      simp only [SlotClass.distance, ne_eq, @eq_comm _ b.tvSec]
      split <;> omega

/-- What a comparison function makes of two elements. -/
def SlotClass.expr : (c : SlotClass) → c.Elem → c.Elem → Int
  | .int, (va : Int32), (vb : Int32) => (va - vb).toInt
  | .uint, (va : UInt32), (vb : UInt32) => (va - vb).toInt32.toInt
  | .int64, (va : Int64), (vb : Int64) => (va - vb).toInt32.toInt
  | .time, (va : SenTimeval), (vb : SenTimeval) =>
      if va.tvSec ≠ vb.tvSec then (va.tvSec - vb.tvSec).toInt else (va.tvUsec - vb.tvUsec).toInt

theorem slotCompar_eq (raAt : RecordsObj ε → Nat → Option c.Elem) (key : ε → Nat) :
    slotCompar c raAt key = defComparFunc c.expr raAt key := by
  cases c <;> rfl

/-- A comparison returns the distance as an `int`. -/
theorem expr_eq (a b : c.Elem) : c.expr a b = (c.distance a b).bmod (2 ^ 32) := by
  cases c with
  | int => exact Int32.toInt_sub a b
  | uint =>
      obtain ⟨a⟩ := a
      obtain ⟨b⟩ := b
      show (a - b).toInt = ((a.toNat : Int) - b.toNat).bmod (2 ^ 32)
      have ha := a.isLt
      have hb := b.isLt
      rw [BitVec.toInt_eq_toNat_bmod, BitVec.toNat_sub]
      simp only [Int.bmod]
      omega
  | int64 =>
      show (Int64.toInt32 (a - b)).toInt = _
      rw [Int64.toInt_toInt32, Int64.toInt_sub, Int.bmod_bmod_of_dvd (by decide)]
      rfl
  | time =>
      simp only [SlotClass.expr, SlotClass.distance]
      split
      · exact Int32.toInt_sub _ _
      · exact Int32.toInt_sub _ _

/-- An `int` keeps the sign of a number and of its negative if the rest is small. -/
theorem bmod_signs {d : Int} (h : d = 0 ∨ 0 < |d| % 2 ^ 32 ∧ |d| % 2 ^ 32 < 2 ^ 31) :
    (0 < d.bmod (2 ^ 32) ↔ 0 < d) ∧ (d.bmod (2 ^ 32) < 0 ↔ d < 0) := by
  simp only [Int.bmod]
  rcases abs_cases d with ⟨habs, hd⟩ | ⟨habs, hd⟩ <;> rw [habs] at h <;> omega

/-- It keeps both only then. -/
theorem near_of_signs {d : Int} (h : 0 < d.bmod (2 ^ 32) ↔ 0 < d)
    (h' : 0 < (-d).bmod (2 ^ 32) ↔ 0 < -d) :
    d = 0 ∨ 0 < |d| % 2 ^ 32 ∧ |d| % 2 ^ 32 < 2 ^ 31 := by
  simp only [Int.bmod] at h h'
  rcases abs_cases d with ⟨habs, hd⟩ | ⟨habs, hd⟩ <;> rw [habs] <;> omega

end

section

variable (c : SlotClass) (raAt : RecordsObj ε → Nat → Option c.Elem) (key : ε → Nat)

/-- The value of the record with an id, below all numbers if its element cannot be read. -/
def slotValue (obj : RecordsObj ε) (e : ε) : WithBot (Int ×ₗ Int) :=
  (raAt obj (key e)).elim ⊥ fun v => c.value v

/-- In the order of the values, one record may stand before another. -/
def ValueBefore (obj : RecordsObj ε) (x y : ε) : SortMode → Prop
  | .ascending => slotValue c raAt key obj x ≤ slotValue c raAt key obj y
  | .descending => slotValue c raAt key obj y ≤ slotValue c raAt key obj x

/-- What a sort of the records with the comparison function of the slot does: it ends, and
everything up to the limit stands before what comes after it. -/
def SortsRecords (m : Entries ε) (obj : RecordsObj ε) : Prop :=
  ∀ (r : SenRecords ε) (buf : Nat × List ε) (limit : Int) (o : SenSortOptarg ε), r.obj = obj →
    obj.table.nEntries ≠ 0 → buf.2.length = obj.table.nEntries →
    o.compar = some (slotCompar c raAt key) →
    ∃ r' s, Settles (senRecordsSort m r (some buf) limit (some o)) (.success, r') ∧
      r'.sorted = some (buf.1, s) ∧ s.Perm (live obj.table.index) ∧
      ∀ (i j : Nat) (x y : ε), i < j → (limit = 0 ∨ (i : Int) < limit) → s[i]? = some x →
        s[j]? = some y → ValueBefore c raAt key obj x y o.mode

/-- The comparison function of the slot is the order of the values, and a sort with it puts the
records in this order. -/
structure SortsByValue (m : Entries ε) (obj : RecordsObj ε) : Prop where
  pos : ∀ x ∈ live obj.table.index, ∀ y ∈ live obj.table.index, ∀ arg,
    0 < slotCompar c raAt key obj x obj y arg ↔
      slotValue c raAt key obj y < slotValue c raAt key obj x
  neg : ∀ x ∈ live obj.table.index, ∀ y ∈ live obj.table.index, ∀ arg,
    slotCompar c raAt key obj x obj y arg < 0 ↔
      slotValue c raAt key obj x < slotValue c raAt key obj y
  sorts : SortsRecords c raAt key m obj

/-- No two records with a value are too far apart. -/
def NearValues (obj : RecordsObj ε) : Prop :=
  ∀ x ∈ live obj.table.index, ∀ y ∈ live obj.table.index, ∀ a b, raAt obj (key x) = some a →
    raAt obj (key y) = some b → c.Near a b

end

section

variable {c : SlotClass} {raAt : RecordsObj ε → Nat → Option c.Elem} {key : ε → Nat}
  {m : Entries ε} {obj : RecordsObj ε}

theorem slotCompar_of_some {x y : ε} {arg : Nat} {a b : c.Elem} (ha : raAt obj (key x) = some a)
    (hb : raAt obj (key y) = some b) :
    slotCompar c raAt key obj x obj y arg = (c.distance a b).bmod (2 ^ 32) := by
  rw [slotCompar_eq, defComparFunc, ha, hb]
  exact expr_eq c a b

theorem slotValue_of_some {x : ε} {a : c.Elem} (ha : raAt obj (key x) = some a) :
    slotValue c raAt key obj x = (c.value a : WithBot (Int ×ₗ Int)) := by
  rw [slotValue, ha]
  rfl

/-- The signs of a comparison of two records whose values are near, and its bounds. -/
theorem slotCompar_spec {x y : ε} (arg : Nat) (hnear : ∀ a b, raAt obj (key x) = some a →
    raAt obj (key y) = some b → c.Near a b) :
    (0 < slotCompar c raAt key obj x obj y arg ↔
        slotValue c raAt key obj y < slotValue c raAt key obj x) ∧
      (slotCompar c raAt key obj x obj y arg < 0 ↔
        slotValue c raAt key obj x < slotValue c raAt key obj y) ∧
      -2 ^ 31 < slotCompar c raAt key obj x obj y arg ∧
      slotCompar c raAt key obj x obj y arg < 2 ^ 31 := by
  cases ha : raAt obj (key x) with
  | none =>
      cases hb : raAt obj (key y) with
      | none => simp [slotCompar_eq, defComparFunc, slotValue, ha, hb]
      | some b => simp [slotCompar_eq, defComparFunc, slotValue, ha, hb, WithBot.bot_lt_coe]
  | some a =>
      cases hb : raAt obj (key y) with
      | none => simp [slotCompar_eq, defComparFunc, slotValue, ha, hb, WithBot.bot_lt_coe]
      | some b =>
          have hab := hnear a b ha hb
          obtain ⟨hpos, hneg⟩ := bmod_signs hab
          have hcomm : c.distance a b < 0 ↔ c.value a < c.value b := by
            rw [← distance_pos, distance_comm c a b]
            omega
          rw [slotCompar_of_some ha hb, slotValue_of_some ha, slotValue_of_some hb,
            WithBot.coe_lt_coe, WithBot.coe_lt_coe, hpos, hneg, distance_pos, hcomm]
          refine ⟨Iff.rfl, Iff.rfl, ?_⟩
          unfold SlotClass.Near at hab
          simp only [Int.bmod]
          rcases abs_cases (c.distance a b) with ⟨habs, hd⟩ | ⟨habs, hd⟩ <;>
            rw [habs] at hab <;> omega

/-- Among near values the comparison function is a total preorder. -/
theorem slotCompar_ok (hnear : NearValues c raAt key obj) {dir : Int} (hdir : dir = 1 ∨ dir = -1)
    (arg : Nat) :
    FuncOk (· ∈ live obj.table.index) (fun x y => slotCompar c raAt key obj x obj y arg) dir where
  fits hx hy := by
    obtain ⟨-, -, hlow, hhigh⟩ := slotCompar_spec arg (hnear _ hx _ hy)
    unfold FitsInt
    rcases hdir with rfl | rfl <;> omega
  symm hx hy := by
    obtain ⟨hpos, -, -⟩ := slotCompar_spec arg (hnear _ hx _ hy)
    obtain ⟨-, hneg, -⟩ := slotCompar_spec arg (hnear _ hy _ hx)
    exact hpos.trans hneg.symm
  trans hx hy hz hxy hyz := by
    obtain ⟨hpos, -, -⟩ := slotCompar_spec arg (hnear _ hx _ hy)
    obtain ⟨hpos', -, -⟩ := slotCompar_spec arg (hnear _ hy _ hz)
    obtain ⟨hpos'', -, -⟩ := slotCompar_spec arg (hnear _ hx _ hz)
    rw [← not_lt, hpos, not_lt] at hxy
    rw [← not_lt, hpos', not_lt] at hyz
    rw [← not_lt, hpos'', not_lt]
    exact hxy.trans hyz

theorem sortsRecords_of_near (ht : obj.table.Ok) (hnear : NearValues c raAt key obj) :
    SortsRecords c raAt key m obj := by
  rintro r buf limit o rfl hne hbuf ho
  have hby : sortBy r.obj.table m r.obj (some (setOptarg r.obj (some o))) =
      .func (slotCompar c raAt key) o.comparArg r.obj := by
    simp only [sortBy, setOptarg, ho, Option.getD_some]
  have hdir : sortDir (some (setOptarg r.obj (some o))) = 1 ∨
      sortDir (some (setOptarg r.obj (some o))) = -1 := by
    simp only [sortDir]
    split
    · exact .inl rfl
    · exact .inr rfl
  have hord : (sortBy r.obj.table m r.obj (some (setOptarg r.obj (some o)))).Ok
      (· ∈ live r.obj.table.index) m (sortDir (some (setOptarg r.obj (some o)))) := by
    rw [hby]
    exact slotCompar_ok hnear hdir o.comparArg
  obtain ⟨limit', hlimit'⟩ : ∃ l, l = if limit > r.obj.table.nEntries then
      (r.obj.table.nEntries : Int) else limit := ⟨_, rfl⟩
  obtain ⟨s, hset, hlen, hperm, hbefore⟩ :=
    @senSetSort_sorts _ _ _ _ _ _ limit' _ ht hne hord hbuf
  refine ⟨{ r.cursorClear with sorted := some (buf.1, s), limit := limit' }, s, ?_, rfl, hperm, ?_⟩
  · exact senRecordsSort_settles hne hlimit' hset
  · intro i j x y hij hi hx hy
    have hj : j < s.length := (List.getElem?_eq_some_iff.mp hy).1
    have hb := hbefore i j x y hij (by rw [hlimit']; split <;> omega) hx hy
    have hxm := hperm.mem_iff.mp (List.mem_of_getElem? hx)
    have hym := hperm.mem_iff.mp (List.mem_of_getElem? hy)
    obtain ⟨hpos, hneg, -⟩ := slotCompar_spec o.comparArg (hnear x hxm y hym)
    rw [hby] at hb
    show ValueBefore c raAt key r.obj x y (sortMode (some (setOptarg r.obj (some o))))
    cases hmode : sortMode (some (setOptarg r.obj (some o))) with
    | ascending =>
        rw [hmode] at hb
        exact not_lt.mp (hpos.not.mp (not_lt.mpr hb))
    | descending =>
        rw [hmode] at hb
        exact not_lt.mp (hneg.not.mp (not_lt.mpr hb))

theorem SortsByValue.near (h : SortsByValue c raAt key m obj) : NearValues c raAt key obj := by
  intro x hx y hy a b ha hb
  have hxy := h.pos x hx y hy 0
  have hyx := h.pos y hy x hx 0
  rw [slotCompar_of_some ha hb, slotValue_of_some ha, slotValue_of_some hb, WithBot.coe_lt_coe,
    ← distance_pos] at hxy
  rw [slotCompar_of_some hb ha, slotValue_of_some ha, slotValue_of_some hb, WithBot.coe_lt_coe,
    ← distance_pos, distance_comm c a b] at hyx
  exact near_of_signs hxy hyx

/-- **A sort by a slot is a sort by its values as long as no two records are too far apart.** -/
theorem sortsByValue_iff (ht : obj.table.Ok) :
    SortsByValue c raAt key m obj ↔ NearValues c raAt key obj := by
  constructor
  · exact SortsByValue.near
  · intro h
    exact ⟨fun x hx y hy arg => (slotCompar_spec arg (h x hx y hy)).1,
      fun x hx y hy arg => (slotCompar_spec arg (h x hx y hy)).2.1, sortsRecords_of_near ht h⟩

end

/-- A set of the two records 1 and 2. -/
def twoRecords : RecordsObj Nat where
  self := 0
  indexAddr := 0
  table := ⟨4, 1, 2, [.entry 1, .entry 2]⟩
  userdef := false
  recordSize := 4
  keys := none

/-- Their entries are their ids. -/
def idEntries : Entries Nat := ⟨fun e _ => e, fun _ => [], fun _ => []⟩

/-- A slot with the value `a` for the record 1 and `b` for all others. -/
def twoValues {c : SlotClass} (a b : c.Elem) : RecordsObj Nat → Nat → Option c.Elem :=
  fun _ id => some (if id = 1 then a else b)

theorem sortsByValue_iff_int :
    SortsByValue .int (twoValues (-5 : Int32) 7) id idEntries twoRecords ↔
      NearValues .int (twoValues (-5 : Int32) 7) id twoRecords :=
  sortsByValue_iff ⟨rfl, ⟨1, rfl⟩, rfl⟩

/-- In each class there are two values whose records come in the wrong order. -/
theorem sortsByValue_fails :
    ¬ SortsByValue .int (twoValues (-1 : Int32) 0x7fffffff) id idEntries twoRecords ∧
      ¬ SortsByValue .uint (twoValues (0 : UInt32) 0x80000000) id idEntries twoRecords ∧
      ¬ SortsByValue .int64 (twoValues (0 : Int64) 0x100000000) id idEntries twoRecords ∧
      ¬ SortsByValue .time (twoValues ⟨-1, 0⟩ ⟨0x7fffffff, 0⟩) id idEntries twoRecords := by
  have hnear : ∀ (c : SlotClass) (a b : c.Elem),
      SortsByValue c (twoValues a b) id idEntries twoRecords → c.Near a b := fun c a b h =>
    h.near 1 (by decide) 2 (by decide) a b rfl rfl
  have hfar : ∀ d : Int, d = -2 ^ 31 ∨ d = -2 ^ 32 →
      ¬ (d = 0 ∨ 0 < |d| % 2 ^ 32 ∧ |d| % 2 ^ 32 < 2 ^ 31) := by
    rintro d (rfl | rfl) <;> norm_num
  refine ⟨fun h => hfar _ (.inl ?_) (hnear _ _ _ h), fun h => hfar _ (.inl ?_) (hnear _ _ _ h),
    fun h => hfar _ (.inr ?_) (hnear _ _ _ h), fun h => hfar _ (.inl ?_) (hnear _ _ _ h)⟩
  · rfl
  · rfl
  · rfl
  · rfl

end Senna.Db
