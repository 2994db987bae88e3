/-
# Relation tables

A class of kind `rel1` is an array with a cell for every id. Bit 0 of a cell tells whether the id
is a record, the number of records is kept in the header. The ids are those of the keys of a target
class, or new numbers if there is none. `nf_rel1` answers the messages `:new`, `:delete`, `:nrecs`,
`:` and `:+` and `:scan-select` with the records, that is with a set of ids to which `:new` adds and
from which `:delete` takes; only `:scan-select` looks at all ids up to the largest one and not at
their cells.
-/

import Senna.Lib.Fuel
import Senna.Str.Number
import Senna.Sym.TableRuns
import Mathlib.Data.Finset.Sort

namespace Senna.Db

open Senna.Lib Senna.Query Senna.Str

/-- `SEN_ID_MAX` -/
def senIdMax : Nat := 0x3fffffff

/-- `SEN_SYM_MAX_ID` -/
def senSymMaxId : Nat := 0xfffffff

/-- The array of a relation: `curr_max` and `nrecords` of its header, and the first bytes of its
elements. -/
structure Rel1 where
  currMax : Nat
  nrecords : Nat
  cells : Nat → UInt8

/-- A new array. -/
def Rel1.create : Rel1 := ⟨0, 0, fun _ => 0⟩

/-- `sen_ra_at`: ids above `curr_max` have the cell 0. -/
def Rel1.at (s : Rel1) (id : Nat) : UInt8 := if id > s.currMax then 0 else s.cells id

/-- `sen_ra_get` -/
def Rel1.get (s : Rel1) (id : Nat) : Option Rel1 :=
  if id > senIdMax then none else some { s with currMax := max s.currMax id }

/-- `*v |= 1` with the count of the records. -/
def Rel1.add (s : Rel1) (id : Nat) : Rel1 :=
  { s with
    nrecords := (s.nrecords + 1) % 2 ^ 32
    cells := Function.update s.cells id (s.cells id ||| 1) }

/-- `*v &= ~1` with the count of the records. -/
def Rel1.remove (s : Rel1) (id : Nat) : Rel1 :=
  { s with
    nrecords := u32Sub s.nrecords 1
    cells := Function.update s.cells id (s.cells id &&& 0xfe) }

/-- `*v & 1` -/
def Rel1.marked (s : Rel1) (id : Nat) : Bool := s.at id &&& 1 != 0

/-- What a message names an instance by. -/
inductive Rel1Key
  | bulk (value : List UInt8)
  | int (i : Int)
  | symbol (name : List UInt8)
  | other

/-- `str_value` -/
def Rel1Key.strValue : Rel1Key → Option (List UInt8)
  | .bulk value => some value
  | .int i => senStrLltoa i 32
  | .symbol name => some (if name.head? = some 0x3a then name.tail else name)
  | .other => none

/-- The keys of a target class: `sen_sym_at`, which returns ids of a symbol table. -/
structure SymKeys where
  «at» : List UInt8 → Nat
  at_le : ∀ name, «at» name ≤ senSymMaxId

/-- `sen_sym_at` returns no id above `SEN_SYM_MAX_ID`. -/
theorem atLoop_le {s : Sym.SenSym} {key : List UInt8} {len : Nat} {k : Nat} {c : Int} {r id : Nat}
    (h : s.atLoop key len k c r = some id) : id ≤ senSymMaxId := by
  induction k generalizing c r with
  | zero => exact absurd h nofun
  | succ k ih =>
      unfold Sym.SenSym.atLoop at h
      by_cases hr : r = 0
      · rw [if_pos hr] at h
        exact Option.some.inj h ▸ Nat.zero_le _
      · rw [if_neg hr] at h
        cases hat : s.patAt r with
        | none =>
            rw [hat] at h
            exact Option.some.inj h ▸ Nat.zero_le _
        | some rn =>
            have hle : r ≤ senSymMaxId := by
              by_contra hgt
              rw [Sym.SenSym.patAt, if_neg fun h => hgt h.1] at hat
              cases hat
            simp only [hat] at h
            split_ifs at h with hlen hcheck
            · exact Option.some.inj h ▸ Nat.zero_le _
            · rw [← Option.some.inj h]
              cases s.patNodeGetKey rn with
              | none => exact Nat.zero_le _
              | some p =>
                  show (if _ then r else 0) ≤ _
                  split_ifs
                  · exact hle
                  · exact Nat.zero_le _
            · exact ih h

/-- The keys of a symbol table of strings. -/
def SymKeys.ofSenSym (s : Sym.SenSym) (k : Nat) : SymKeys where
  «at» name := (s.senSymAt (name ++ [0]) k).getD 0
  at_le name := by
    cases h : s.senSymAt (name ++ [0]) k with
    | none => exact Nat.zero_le _
    | some id => exact atLoop_le h

/-- The target of a relation while a message is handled: there is none, or its class is found or
not. -/
inductive Rel1Target
  | none
  | missing
  | keys (k : SymKeys)

/-- `REL1_GET_INSTANCE_BY_KEY` -/
def rel1GetInstanceByKey : Rel1Target → Rel1Key → Nat
  | .keys k, key => (key.strValue.map k.at).getD 0
  | .missing, _ => 0
  | .none, .bulk value => ((senAtoi value).1 % 2 ^ 32).toNat
  | .none, .int i => (i % 2 ^ 32).toNat
  | .none, _ => 0

/-- `:new` under the lock: the id of the object that is returned, if it is one. -/
def Rel1.new (s : Rel1) : Rel1Target → Rel1Key → Option Nat × Rel1
  | .missing, _ => (none, s)
  | .keys k, key =>
      match key.strValue.map k.at with
      | none => (none, s)
      | some id =>
          if id = 0 then (none, s)
          else
            match s.get id with
            | none => (some id, s)
            | some s => (some id, if s.cells id = 0 then s.add id else s)
  | .none, _ =>
      let id := (s.currMax + 1) % 2 ^ 32
      match s.get id with
      | none => (none, s)
      | some s => (some id, s.add id)

/-- `:delete` -/
def Rel1.delete (s : Rel1) (id : Nat) : Rel1 :=
  if id = 0 ∨ ¬ s.marked id then s else s.remove id

/-- `:nrecs` -/
def Rel1.nrecs (s : Rel1) : Nat := s.nrecords

/-- The loop of `:` over the ids up to `curr_max`. -/
def Rel1.beginLoop (s : Rel1) : Nat → Nat → Option Nat
  | left, id =>
      if s.marked id then some id
      else
        match left with
        | 0 => none
        | left + 1 => beginLoop s left (id + 1)

/-- `:` -/
def Rel1.begin (s : Rel1) : Option Nat := s.beginLoop (s.currMax - 1) 1

/-- The loop of `:+` over the ids up to `curr_max`. -/
def Rel1.nextLoop (s : Rel1) : Nat → Nat → Option Nat
  | 0, _ => none
  | left + 1, id => if s.marked (id + 1) then some (id + 1) else nextLoop s left (id + 1)

/-- `:+` -/
def Rel1.next (s : Rel1) (id : Nat) : Option Nat := s.nextLoop (s.currMax - id) id

/-- The ids that `:+` yields one after another. -/
def Rel1.walk (s : Rel1) : Nat → Nat → Option (List Nat)
  | 0, _ => none
  | fuel + 1, id =>
      match s.next id with
      | none => some []
      | some id => (walk s fuel id).map fun ids => id :: ids

/-- The ids that `:` and then `:+` yield until they return false. -/
def Rel1.iterate (s : Rel1) (fuel : Nat) : Option (List Nat) :=
  match s.begin with
  | none => some []
  | some id => (s.walk fuel id).map fun ids => id :: ids

/-- The loop of `:scan-select` with the operator or: `sen_set_get` for every id that matches. -/
def Rel1.scanLoop (cond : Nat → Bool) : Nat → Nat → List Nat → List Nat
  | 0, _, res => res
  | left + 1, id, res =>
      scanLoop cond left (id + 1)
        (if cond (id + 1) ∧ id + 1 ∉ res then res ++ [id + 1] else res)

/-- `:scan-select` into a set of records; `cond` is `match_exec` on the objects of the class. -/
def Rel1.scanSelect (s : Rel1) (cond : Nat → Bool) (res : List Nat) : List Nat :=
  Rel1.scanLoop cond s.currMax 0 res

/-- The messages that change a relation; `locked` tells whether the lock of the database is got. -/
inductive Rel1Msg
  | new (locked : Bool) (key : Rel1Key)
  | delete (key : Rel1Key)

/-- A message, with the target class as it is by then. -/
def Rel1.step (s : Rel1) (target : Rel1Target) : Rel1Msg → Option Nat × Rel1
  | .new false _ => (none, s)
  | .new true key => s.new target key
  | .delete key => (none, s.delete (rel1GetInstanceByKey target key))

/-- What a message means for the live ids: the id that `:new` returns is live, the one that
`:delete` names is not. -/
def liveStep (live : Finset Nat) (target : Rel1Target) (msg : Rel1Msg) (created : Option Nat) :
    Finset Nat :=
  match msg with
  | .new _ _ => created.elim live fun id => insert id live
  | .delete key => live.erase (rel1GetInstanceByKey target key)

/-- A run: the table and the set of the live ids. -/
def rel1Run (events : List (Rel1Target × Rel1Msg)) : Rel1 × Finset Nat :=
  events.foldl
    (fun s e => ((s.1.step e.1 e.2).2, liveStep s.2 e.1 e.2 (s.1.step e.1 e.2).1))
    (Rel1.create, ∅)

/-- The answers are those of the set of the live ids. -/
structure Rel1Ok (s : Rel1) (live : Finset Nat) (cond : Nat → Bool) : Prop where
  nrecs : s.nrecs = live.card
  iterate : Settles s.iterate (live.sort (· ≤ ·))
  scan_nodup : (s.scanSelect cond []).Nodup
  scan : ∀ id, id ∈ s.scanSelect cond [] ↔ id ∈ live ∧ cond id

/-- The table holds a set of live ids. -/
structure Rel1.Holds (s : Rel1) (live : Finset Nat) : Prop where
  cells : ∀ id, s.cells id = if id ∈ live then 1 else 0
  mem : ∀ id ∈ live, 1 ≤ id ∧ id ≤ s.currMax
  max_le : s.currMax ≤ senIdMax
  count : s.nrecords = live.card

section

variable {s s' : Rel1} {live : Finset Nat} {id : Nat}

theorem Rel1.Holds.marked_iff (h : s.Holds live) : s.marked id ↔ id ∈ live := by
  unfold marked Rel1.at
  rw [h.cells]
  by_cases hid : id ∈ live
  · have hle := (h.mem id hid).2
    simp [hid, Nat.not_lt.mpr hle]
  · simp [hid]

theorem Rel1.Holds.card_le (h : s.Holds live) : live.card ≤ senIdMax := by
  have hsub : live ⊆ Finset.Icc 1 s.currMax := fun id hid => Finset.mem_Icc.mpr (h.mem id hid)
  have hcard := Finset.card_le_card hsub
  rw [Nat.card_Icc] at hcard
  have hle := h.max_le
  omega

theorem Rel1.Holds.get (h : s.Holds live) (hget : s.get id = some s') :
    s'.Holds live ∧ id ≤ s'.currMax ∧ s'.cells = s.cells := by
  unfold Rel1.get at hget
  split at hget
  · cases hget
  · obtain rfl := Option.some.inj hget
    have hle := h.max_le
    exact ⟨⟨h.cells, fun id hid => ⟨(h.mem id hid).1, (h.mem id hid).2.trans (le_max_left _ _)⟩,
      by dsimp only; omega, h.count⟩, le_max_right _ _, rfl⟩

theorem Rel1.Holds.add (h : s.Holds live) (hid : id ∉ live) (hpos : 1 ≤ id)
    (hle : id ≤ s.currMax) : (s.add id).Holds (insert id live) where
  cells k := by
    simp only [Rel1.add, Function.update_apply, Finset.mem_insert, h.cells]
    by_cases hk : k = id
    · simp [hk, hid]
    · simp [hk]
  mem k hk := by
    rcases Finset.mem_insert.mp hk with rfl | hk
    · exact ⟨hpos, hle⟩
    · exact h.mem k hk
  max_le := h.max_le
  count := by
    have hcard := h.card_le
    unfold senIdMax at hcard
    rw [Finset.card_insert_of_notMem hid]
    show (s.nrecords + 1) % 2 ^ 32 = _
    rw [h.count, Nat.mod_eq_of_lt (by omega)]

theorem Rel1.Holds.remove_cells (h : s.Holds live) (hid : id ∈ live) (k : Nat) :
    (s.remove id).cells k = if k ∈ live.erase id then 1 else 0 := by
  have hbits : (1 &&& 0xfe : UInt8) = 0 := by decide
  simp only [Rel1.remove, Function.update_apply, Finset.mem_erase, h.cells, if_pos hid]
  by_cases hk : k = id
  · rw [if_pos hk, hbits, if_neg fun hmem => hmem.1 hk]
  · simp only [hk, if_false, ne_eq, not_false_eq_true, true_and]

theorem Rel1.Holds.remove_nrecords (h : s.Holds live) (hid : id ∈ live) :
    (s.remove id).nrecords = (live.erase id).card := by
  have hcard := h.card_le
  have hpos := Finset.card_pos.mpr ⟨id, hid⟩
  unfold senIdMax at hcard
  have hsub : u32Sub live.card 1 = live.card - 1 := u32Sub_of_le hpos (by omega)
  rw [Finset.card_erase_of_mem hid, ← hsub, ← h.count]
  rfl

theorem Rel1.remove_currMax (s : Rel1) (id : Nat) : (s.remove id).currMax = s.currMax := by
  unfold Rel1.remove
  rfl

theorem Rel1.Holds.remove (h : s.Holds live) (hid : id ∈ live) :
    (s.remove id).Holds (live.erase id) := by
  constructor
  · exact h.remove_cells hid
  · intro k hk
    rw [Rel1.remove_currMax]
    exact h.mem k (Finset.mem_of_mem_erase hk)
  · rw [Rel1.remove_currMax]
    exact h.max_le
  · exact h.remove_nrecords hid

theorem Rel1.Holds.delete (h : s.Holds live) (id : Nat) : (s.delete id).Holds (live.erase id) := by
  unfold Rel1.delete
  by_cases hid : id ∈ live
  · have hpos := (h.mem id hid).1
    rw [if_neg (not_or.mpr ⟨by omega, not_not.mpr (h.marked_iff.mpr hid)⟩)]
    exact h.remove hid
  · rw [if_pos (.inr (mt h.marked_iff.mp hid)), Finset.erase_eq_of_notMem hid]
    exact h

/-- `:new` adds the id of the object that it returns. -/
theorem Rel1.Holds.new (h : s.Holds live) (target : Rel1Target) (key : Rel1Key) :
    (s.new target key).2.Holds ((s.new target key).1.elim live fun id => insert id live) := by
  have hmax := h.max_le
  unfold senIdMax at hmax
  cases target with
  | missing => exact h
  | keys k =>
      cases hname : key.strValue.map k.at with
      | none =>
          simp only [Rel1.new, hname]
          exact h
      | some id =>
          obtain ⟨name, -, hid⟩ := Option.map_eq_some_iff.mp hname
          have hle : id ≤ senSymMaxId := hid ▸ k.at_le name
          unfold senSymMaxId at hle
          by_cases hzero : id = 0
          · simp only [Rel1.new, hname, hzero, if_true]
            exact h
          · have hsome : s.get id = some { s with currMax := max s.currMax id } := by
              unfold Rel1.get senIdMax
              rw [if_neg (by omega)]
            obtain ⟨h', hmax', -⟩ := h.get hsome
            simp only [Rel1.new, hname, if_neg hzero, hsome]
            by_cases hmem : id ∈ live
            · have hcell : s.cells id ≠ 0 := by
                rw [h.cells, if_pos hmem]
                decide
              rw [if_neg hcell]
              show Rel1.Holds _ (insert id live)
              rw [Finset.insert_eq_of_mem hmem]
              exact h'
            · have hcell : s.cells id = 0 := by rw [h.cells, if_neg hmem]
              rw [if_pos hcell]
              exact h'.add hmem (by omega) hmax'
  | none =>
      have hnext : (s.currMax + 1) % 2 ^ 32 = s.currMax + 1 := Nat.mod_eq_of_lt (by omega)
      cases hget : s.get (s.currMax + 1) with
      | none =>
          simp only [Rel1.new, hnext, hget]
          exact h
      | some s' =>
          obtain ⟨h', hid, -⟩ := h.get hget
          have hfresh : s.currMax + 1 ∉ live := fun hmem => by
            have := (h.mem _ hmem).2
            omega
          simp only [Rel1.new, hnext, hget]
          exact h'.add hfresh (by omega) hid

theorem Rel1.Holds.step (h : s.Holds live) (target : Rel1Target) (msg : Rel1Msg) :
    (s.step target msg).2.Holds (liveStep live target msg (s.step target msg).1) := by
  cases msg with
  | delete key => exact h.delete _
  | new locked key =>
      cases locked with
      | false => exact h
      | true => exact h.new target key

/-- In every run the table holds the live ids. -/
theorem rel1Run_holds (events : List (Rel1Target × Rel1Msg)) :
    (rel1Run events).1.Holds (rel1Run events).2 := by
  have hrun : ∀ (events : List (Rel1Target × Rel1Msg)) (s : Rel1 × Finset Nat),
      s.1.Holds s.2 → (events.foldl
        (fun s e => ((s.1.step e.1 e.2).2, liveStep s.2 e.1 e.2 (s.1.step e.1 e.2).1)) s).1.Holds
        (events.foldl
          (fun s e => ((s.1.step e.1 e.2).2, liveStep s.2 e.1 e.2 (s.1.step e.1 e.2).1)) s).2 := by
    intro events
    induction events with
    | nil => exact fun s h => h
    | cons e events ih => exact fun s h => ih _ (h.step e.1 e.2)
  refine hrun events _ ⟨fun id => ?_, fun id hid => ?_, Nat.zero_le _, ?_⟩
  · rw [if_neg (Finset.notMem_empty id)]
    rfl
  · exact absurd hid (Finset.notMem_empty id)
  · rfl

end

section

variable {s : Rel1} {live : Finset Nat}

/-- The marked ids above an id, up to `curr_max`. -/
def Rel1.above (s : Rel1) (id : Nat) : List Nat :=
  (List.range' (id + 1) (s.currMax - id)).filter s.marked

theorem nextLoop_above {left id : Nat} (hleft : left = s.currMax - id) :
    s.above id = match s.nextLoop left id with
      | none => []
      | some j => j :: s.above j := by
  induction left generalizing id with
  | zero => rw [Rel1.above, ← hleft, Rel1.nextLoop, List.range'_zero, List.filter_nil]
  | succ left ih =>
      have hstep : s.above id = if s.marked (id + 1) then (id + 1) :: s.above (id + 1)
          else s.above (id + 1) := by
        rw [Rel1.above, ← hleft, List.range'_succ, List.filter_cons, Rel1.above,
          show s.currMax - (id + 1) = left by omega]
      rw [hstep, Rel1.nextLoop]
      by_cases hmark : s.marked (id + 1)
      · rw [if_pos hmark, if_pos hmark]
      · rw [if_neg hmark, if_neg hmark]
        exact ih (by omega)

theorem nextLoop_bounds {left id j : Nat} (h : s.nextLoop left id = some j) :
    id < j ∧ j ≤ id + left := by
  induction left generalizing id with
  | zero => simp [Rel1.nextLoop] at h
  | succ left ih =>
      rw [Rel1.nextLoop] at h
      split at h
      · obtain rfl := Option.some.inj h
        omega
      · have := ih h
        omega

/-- `:+` from an id yields the marked ids above it. -/
theorem walk_settles (s : Rel1) (id : Nat) : Settles (fun fuel => s.walk fuel id) (s.above id) := by
  obtain ⟨n, hn⟩ : ∃ n, n = s.currMax - id := ⟨_, rfl⟩
  induction n using Nat.strong_induction_on generalizing id with
  | _ n ih =>
      have habove := @nextLoop_above s _ id rfl
      change _ = match s.next id with | none => [] | some j => j :: s.above j at habove
      cases hnext : s.next id with
      | none =>
          rw [hnext] at habove
          rw [habove]
          exact Settles.succ (fun fuel => by rw [Rel1.walk, hnext]) (Settles.pure [])
      | some j =>
          rw [hnext] at habove
          obtain ⟨hlt, hle⟩ := nextLoop_bounds hnext
          rw [habove]
          exact Settles.succ (fun fuel => by rw [Rel1.walk, hnext])
            ((ih (s.currMax - j) (by omega) j rfl).map fun ids => j :: ids)

theorem beginLoop_eq (s : Rel1) (left id : Nat) :
    s.beginLoop left (id + 1) = s.nextLoop (left + 1) id := by
  induction left generalizing id with
  | zero => rfl
  | succ left ih =>
      rw [Rel1.beginLoop, Rel1.nextLoop, ← ih]

/-- `:` finds what `:+` would find above 0. -/
theorem begin_eq (s : Rel1) : s.begin = s.next 0 := by
  rw [Rel1.begin, beginLoop_eq, Rel1.next]
  by_cases hmax : s.currMax = 0
  · have hnone : s.marked 1 = false := by simp [Rel1.marked, Rel1.at, hmax]
    simp [hmax, Rel1.nextLoop, hnone]
  · rw [Nat.sub_add_cancel (by omega), Nat.sub_zero]

theorem Rel1.Holds.above_zero (h : s.Holds live) : s.above 0 = live.sort (· ≤ ·) := by
  have hsorted : (s.above 0).Pairwise (· < ·) :=
    List.Pairwise.filter _ List.pairwise_lt_range'
  have hset : (s.above 0).toFinset = live := by
    ext id
    have hmem := h.mem id
    rw [List.mem_toFinset, Rel1.above, List.mem_filter, h.marked_iff, List.mem_range'_1]
    exact ⟨fun hid => hid.2, fun hid => ⟨by have := hmem hid; omega, hid⟩⟩
  rw [← hset]
  exact ((List.toFinset_sort _ (hsorted.imp Nat.ne_of_lt)).mpr (hsorted.imp Nat.le_of_lt)).symm

theorem Rel1.Holds.iterate (h : s.Holds live) : Settles s.iterate (live.sort (· ≤ ·)) := by
  have hwalk := walk_settles s 0
  rw [← h.above_zero]
  obtain ⟨n, hn⟩ := hwalk
  refine ⟨n, fun k hk => ?_⟩
  have hsucc := hn (k + 1) (by omega)
  simp only [Rel1.walk] at hsucc
  rw [Rel1.iterate, begin_eq]
  exact hsucc

end

theorem mem_scanLoop {cond : Nat → Bool} {left i id : Nat} {res : List Nat} :
    id ∈ Rel1.scanLoop cond left i res ↔ id ∈ res ∨ i < id ∧ id ≤ i + left ∧ cond id := by
  induction left generalizing i res with
  | zero =>
      rw [Rel1.scanLoop]
      exact ⟨.inl, fun h => h.resolve_right fun h => by omega⟩
  | succ left ih =>
      rw [Rel1.scanLoop, ih]
      have hres : id ∈ (if cond (i + 1) ∧ i + 1 ∉ res then res ++ [i + 1] else res) ↔
          id ∈ res ∨ id = i + 1 ∧ cond (i + 1) := by
        split
        · simp_all
        · constructor
          · exact .inl
          · rintro (hid | ⟨rfl, hcond⟩)
            · exact hid
            · by_contra hnot
              simp_all
      rw [hres, or_assoc]
      apply or_congr_right
      constructor
      · rintro (⟨rfl, hcond⟩ | ⟨hlt, hle, hcond⟩)
        · exact ⟨by omega, by omega, hcond⟩
        · exact ⟨by omega, by omega, hcond⟩
      · rintro ⟨hlt, hle, hcond⟩
        by_cases hid : id = i + 1
        · exact .inl ⟨hid, hid ▸ hcond⟩
        · exact .inr ⟨by omega, by omega, hcond⟩

theorem nodup_scanLoop {cond : Nat → Bool} {left i : Nat} {res : List Nat} (h : res.Nodup) :
    (Rel1.scanLoop cond left i res).Nodup := by
  induction left generalizing i res with
  | zero => exact h
  | succ left ih =>
      rw [Rel1.scanLoop]
      apply ih
      split
      · rename_i hnew
        exact List.nodup_append.mpr ⟨h, List.nodup_singleton _, by
          rintro a ha b hb rfl
          rw [List.mem_singleton] at hb
          exact hnew.2 (hb ▸ ha)⟩
      · exact h

/-- **A relation table is the set of its live ids as long as no other id matches.** -/
theorem rel1Ok_iff (events : List (Rel1Target × Rel1Msg)) (cond : Nat → Bool) :
    Rel1Ok (rel1Run events).1 (rel1Run events).2 cond ↔
      ∀ id, 1 ≤ id → id ≤ (rel1Run events).1.currMax → id ∉ (rel1Run events).2 →
        cond id = false := by
  have h := rel1Run_holds events
  have hmem : ∀ id, id ∈ (rel1Run events).1.scanSelect cond [] ↔
      1 ≤ id ∧ id ≤ (rel1Run events).1.currMax ∧ cond id := fun id => by
    rw [Rel1.scanSelect, mem_scanLoop, Nat.zero_add]
    simp [Nat.succ_le_iff]
  constructor
  · intro hok id hpos hle hdead
    by_contra hcond
    exact hdead ((hok.scan id).mp ((hmem id).mpr ⟨hpos, hle, by simpa using hcond⟩)).1
  · intro hnone
    refine ⟨h.count, h.iterate, nodup_scanLoop List.nodup_nil, fun id => ?_⟩
    rw [hmem]
    constructor
    · rintro ⟨hpos, hle, hcond⟩
      refine ⟨?_, hcond⟩
      by_contra hdead
      rw [hnone id hpos hle hdead] at hcond
      cases hcond
    · rintro ⟨hid, hcond⟩
      exact ⟨(h.mem id hid).1, (h.mem id hid).2, hcond⟩

/-- With the strings "hi" and "h" in the target class: the id of "h" is created, deleted and
created again. -/
example :
    let words := SymKeys.ofSenSym (((Sym.senSymCreate 0).getAll 0x10000
      [[104, 105, 0], [104, 0]]).elim (Sym.senSymCreate 0) Prod.snd) 0x10000
    let run := rel1Run [(.keys words, .new true (.bulk [104])),
      (.keys words, .delete (.bulk [104])), (.keys words, .new true (.bulk [104]))]
    run.1.nrecs = 1 ∧ run.2 = {2} := by
  decide

/-- The first id of two is deleted, and a selection by a condition that is always true finds it. -/
theorem rel1Ok_fails :
    ¬ Rel1Ok (rel1Run [(.none, .new true .other), (.none, .new true .other),
        (.none, .delete (.int 1))]).1
      (rel1Run [(.none, .new true .other), (.none, .new true .other),
        (.none, .delete (.int 1))]).2 (fun _ => true) := by
  intro h
  have hscan := (h.scan 1).mp (by decide)
  revert hscan
  decide

end Senna.Db
