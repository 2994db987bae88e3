/-
# Runs of a symbol table

Keys that are put into a new table are numbered in the order in which they first come, whatever
the order. The number of a key never changes, the key of a number is read back byte for byte, and
the table lists its numbers.
-/

import Senna.Lib.Numbering
import Senna.Sym.TableGet

namespace Senna.Sym

open Senna.Lib Senna.Lib.BitTree SenSym

namespace SenSym

/-- Keys put into a table, one after the other, with the numbers that are returned. -/
def getAll (k : Nat) : List (List UInt8) → SenSym → Option (List Nat × SenSym)
  | [], s => some ([], s)
  | key :: keys, s =>
      (s.senSymGet key k).bind fun r =>
        (getAll k keys r.2).map fun q => (r.1 :: q.1, q.2)

/-- `sen_sym_size` -/
def senSymSize (s : SenSym) : Nat := s.nrecords

/-- `sen_sym_curr_id` -/
def senSymCurrId (s : SenSym) : Nat := s.currRec

/-- `strlen`, of at most `k` bytes. -/
def strlen (p : Memory UInt8) : Nat → Nat → Option Nat
  | 0, _ => none
  | k + 1, i => if p i = 0 then some i else strlen p k (i + 1)

/-- `sen_sym_key`: the size of the key, and what is put into the buffer. -/
def senSymKey (s : SenSym) (id bufsize k : Nat) : Option (Nat × List UInt8) :=
  match s.patAt id with
  | none => some (0, [])
  | some n =>
      match s.patNodeGetKey n with
      | none => some (0, [])
      | some key =>
          (if s.keySize = 0 then (strlen key k 0).map (· + 1) else some s.keySize).map fun len =>
            (len, if len ≤ bufsize then key.read 0 len else [])

/-- The loop of `sen_sym_next`, from the number `id` on. -/
def nextLoop (s : SenSym) (k : Nat) : Nat → Nat → Option Nat
  | 0, _ => some 0
  | n + 1, id =>
      ((s.senSymKey id (senSymMaxKeyLength / 8) k).bind fun key => s.senSymAt key.2 k).bind fun r =>
        if id = r then some id else nextLoop s k n ((id + 1) % 2 ^ 32)

/-- `sen_sym_next`. An id is a `uint32_t`. -/
def senSymNext (s : SenSym) (id k : Nat) : Option Nat :=
  let start := (id + 1) % 2 ^ 32
  s.nextLoop k (s.currRec + 1 - start) start

end SenSym

section

variable {s : SenSym} {ks keys : List (List UInt8)} {t : BitTree Nat} {key : List UInt8}
  {k a id : Nat}

theorem number_keyOf (hnodup : ks.Nodup) (ha : Live ks a) : number ks (keyOf ks a) = a := by
  have hlt : a - 1 < ks.length := by have := ha.pos; have := ha.le; omega
  rw [keyOf, List.getD_eq_getElem ks [] hlt, number_getElem hnodup hlt]
  exact Nat.sub_add_cancel ha.pos

/-- A new table holds nothing. -/
theorem holds_create (keySize : Nat) : Holds (senSymCreate keySize) [] nil where
  count := rfl
  total := rfl
  idLe := Nat.zero_le _
  pat := by simp [senSymCreate]
  sis := rfl
  noGarbage _ := rfl
  top := .inl ⟨rfl, rfl⟩
  isKey _ h := absurd h List.not_mem_nil
  nodup := List.nodup_nil
  own _ h := absurd (le_trans h.pos h.le) (by decide)
  ok := trivial
  leaves _ := ⟨fun h => absurd h List.not_mem_nil,
    fun h => absurd (le_trans h.pos h.le) (by decide)⟩
  inners _ h := absurd h List.not_mem_nil
  distinct := List.nodup_nil
  rep := rfl
  inside _ h := absurd (le_trans h.pos h.le) (by decide)
  whole _ h := absurd (le_trans h.pos h.le) (by decide)

theorem Fits.of_prefix {ls : List (List UInt8)} (h : Fits ls) (hp : ks <+: ls) : Fits ks := by
  obtain ⟨r, rfl⟩ := hp
  obtain ⟨hids, hsegments⟩ := h
  have hbytes : bytes (ks ++ r) = bytes ks + bytes r := by
    rw [bytes, bytes, bytes, List.map_append, List.sum_append]
  rw [List.length_append] at hids hsegments
  rw [hbytes] at hsegments
  have hdiv : bytes ks / (senSymSegmentSize - 0x2000) ≤
      (bytes ks + bytes r) / (senSymSegmentSize - 0x2000) :=
    Nat.div_le_div_right (Nat.le_add_right _ _)
  exact ⟨by omega, by omega⟩

/-- One key put into a table, whether it is new or not. -/
theorem Holds.get (h : Holds s ks t) (hfits : Fits (enter ks key)) (hkey : IsKey s.keySize key)
    (hk : senSymMaxKeyLength < k) :
    ∃ s' t', s.senSymGet key k = some (number (enter ks key) key, s') ∧
      Holds s' (enter ks key) t' ∧ s'.keySize = s.keySize := by
  have hlong : bitLen key < k := lt_of_le_of_lt hkey.short hk
  by_cases hmem : key ∈ ks
  · obtain ⟨a, ha, rfl⟩ := exists_live hmem
    rw [enter_of_mem hmem, number_keyOf h.nodup ha]
    exact ⟨s, t, h.get_old ha hlong, h, rfl⟩
  · rw [enter_of_not_mem hmem] at hfits ⊢
    rw [number_new hmem]
    exact h.get_new hfits hkey hmem hlong

/-- Keys put into a table that holds some. -/
theorem Holds.getAll (h : Holds s ks t) (hkeys : ∀ key ∈ keys, IsKey s.keySize key)
    (hfits : Fits (enterAll ks keys)) (hk : senSymMaxKeyLength < k) :
    ∃ s' t', s.getAll k keys = some (keys.map (number (enterAll ks keys)), s') ∧
      Holds s' (enterAll ks keys) t' ∧ s'.keySize = s.keySize := by
  induction keys generalizing s ks t with
  | nil => exact ⟨s, t, rfl, h, rfl⟩
  | cons key keys ih =>
      rw [enterAll_cons] at hfits ⊢
      have hp : enter ks key <+: enterAll (enter ks key) keys := prefix_enterAll _ _
      obtain ⟨s₁, t₁, hrun, h₁, hsize₁⟩ :=
        h.get (hfits.of_prefix hp) (hkeys key List.mem_cons_self) hk
      obtain ⟨s₂, t₂, hrest, h₂, hsize₂⟩ := ih h₁
        (fun x hx => hsize₁ ▸ hkeys x (List.mem_cons_of_mem key hx)) hfits
      refine ⟨s₂, t₂, ?_, h₂, hsize₂.trans hsize₁⟩
      have hsame : number (enter ks key) key = number (enterAll (enter ks key) keys) key :=
        (number_of_begins hp (mem_enter.mpr (.inr rfl))).symm
      rw [SenSym.getAll, hrun, Option.bind_some, hrest, hsame]
      rfl

theorem Holds.at (h : Holds s ks t) (hkey : IsKey s.keySize key) (hk : senSymMaxKeyLength < k) :
    s.senSymAt key k = some (number ks key) := by
  have hlong : bitLen key < k := lt_of_le_of_lt hkey.short hk
  by_cases hmem : key ∈ ks
  · obtain ⟨a, ha, rfl⟩ := exists_live hmem
    rw [number_keyOf h.nodup ha]
    exact h.at_old ha hlong
  · rw [number_of_not_mem hmem]
    exact h.at_new hkey hmem hlong

theorem strlen_eq {p : Memory UInt8} {w : List UInt8} {i : Nat} (hw : (0 : UInt8) ∉ w)
    (hp : p.read i (w ++ [0]).length = w ++ [0]) (hk : w.length < k) :
    strlen p k i = some (i + w.length) := by
  induction w generalizing i k with
  | nil =>
      obtain ⟨k, rfl⟩ := Nat.exists_eq_add_one_of_ne_zero (Nat.ne_zero_of_lt hk)
      have hzero : p i = 0 := (List.cons.inj hp).1
      rw [strlen, if_pos hzero]
      rfl
  | cons b w ih =>
      obtain ⟨k, rfl⟩ := Nat.exists_eq_add_one_of_ne_zero (Nat.ne_zero_of_lt hk)
      obtain ⟨hb, hrest⟩ := List.cons.inj hp
      have hne : p i ≠ 0 := fun hzero => hw (by rw [← hzero, hb]; exact List.mem_cons_self)
      rw [strlen, if_neg hne, ih (fun hmem => hw (List.mem_cons_of_mem b hmem)) hrest
        (Nat.lt_of_succ_lt_succ hk), List.length_cons, Nat.add_assoc, Nat.add_comm 1]

/-- The size of a key and its bytes. -/
theorem Holds.getKeyOf (h : Holds s ks t) (ha : Live ks a) (bufsize : Nat)
    (hk : senSymMaxKeyLength < k) :
    s.senSymKey a bufsize k = some ((keyOf ks a).length,
      if (keyOf ks a).length ≤ bufsize then keyOf ks a else []) := by
  obtain ⟨p, hget, hp⟩ := h.getKey ha
  obtain ⟨hsize, hshort⟩ := h.isKey _ ha.mem
  have hlen : (if s.keySize = 0 then (strlen p k 0).map (· + 1) else some s.keySize) =
      some (keyOf ks a).length := by
    split_ifs at hsize ⊢
    · obtain ⟨w, hw, heq⟩ := hsize
      rw [heq, List.length_append, List.length_singleton] at hshort
      rw [heq] at hp ⊢
      rw [strlen_eq hw hp (by omega), Option.map_some, List.length_append, List.length_singleton,
        Nat.zero_add]
    · rw [hsize]
  rw [senSymKey, h.patAt ha.le]
  dsimp only
  rw [hget]
  dsimp only
  rw [hlen, Option.map_some, hp]

/-- The next number, if there is one. -/
theorem Holds.next (h : Holds s ks t) (hk : senSymMaxKeyLength < k) {id : Nat}
    (hwide : id + 1 < 2 ^ 32) :
    s.senSymNext id k = some (if id < ks.length then id + 1 else 0) := by
  simp only [senSymNext, h.count, Nat.mod_eq_of_lt hwide]
  rw [Nat.add_sub_add_right]
  split_ifs with hid
  · have ha : Live ks (id + 1) := ⟨Nat.succ_pos id, hid⟩
    obtain ⟨n, hn⟩ := Nat.exists_eq_add_one_of_ne_zero (Nat.sub_ne_zero_of_lt hid)
    have hkey := h.isKey _ ha.mem
    have hfull : (keyOf ks (id + 1)).length ≤ senSymMaxKeyLength / 8 := by
      have := hkey.short
      omega
    rw [hn, nextLoop, h.getKeyOf ha _ hk, Option.bind_some, if_pos hfull, h.at hkey hk,
      Option.bind_some, number_keyOf h.nodup ha, if_pos rfl]
  · rw [Nat.sub_eq_zero_of_le (not_lt.mp hid)]
    rfl

end

section

variable {keySize k : Nat} {keys : List (List UInt8)}

/-- **Numbers.** Each key that is put into a new table gets the number that tells when a key like it
has first come, and is found under this number later on; and other keys are not found. -/
theorem getAll_numbers (hkeys : ∀ key ∈ keys, IsKey keySize key)
    (hfits : Fits (enterAll [] keys)) (hk : senSymMaxKeyLength < k) :
    ∃ s, (senSymCreate keySize).getAll k keys =
        some (keys.map (number (enterAll [] keys)), s) ∧
      s.senSymSize = (enterAll [] keys).length ∧ s.senSymCurrId = (enterAll [] keys).length ∧
      ∀ key, IsKey keySize key → s.senSymAt key k = some (number (enterAll [] keys) key) := by
  obtain ⟨s, t, hrun, h, hsize⟩ := (holds_create keySize).getAll hkeys hfits hk
  exact ⟨s, hrun, h.total, h.count, fun key hkey => h.at (hsize ▸ hkey) hk⟩

/-- A string with its terminator is a key. -/
theorem isKey_string {w : List UInt8} (hw : (0 : UInt8) ∉ w)
    (hshort : (w ++ [0]).length * 8 ≤ senSymMaxKeyLength) : IsKey 0 (w ++ [0]) :=
  ⟨⟨w, hw, rfl⟩, hshort⟩

/-- Two strings, one of which comes twice. -/
theorem getAll_numbers_two :
    ∃ s, (senSymCreate 0).getAll 0x10000 [[104, 105, 0], [104, 0], [104, 105, 0]] =
        some ([1, 2, 1], s) ∧ s.senSymSize = 2 ∧ s.senSymAt [104, 0] 0x10000 = some 2 := by
  have hlong : IsKey 0 [104, 105, 0] := isKey_string (w := [104, 105]) (by decide) (by decide)
  have hshort : IsKey 0 [104, 0] := isKey_string (w := [104]) (by decide) (by decide)
  have hkeys : ∀ key ∈ [[104, 105, 0], [104, 0], [104, 105, 0]], IsKey 0 key := by
    intro key hkey
    rcases List.mem_cons.mp hkey with rfl | hkey
    · exact hlong
    · rcases List.mem_cons.mp hkey with rfl | hkey
      · exact hshort
      · exact List.mem_singleton.mp hkey ▸ hlong
  obtain ⟨s, hrun, hsize, -, hat⟩ := getAll_numbers (k := 0x10000) hkeys
    ⟨by decide, by decide⟩ (by decide)
  exact ⟨s, hrun, hsize, hat [104, 0] hshort⟩

/-- **Keys.** The bytes of each key are read back with its number, and `sen_sym_next` lists the
numbers, from every number on whose successor is one. -/
theorem getAll_keys (hkeys : ∀ key ∈ keys, IsKey keySize key)
    (hfits : Fits (enterAll [] keys)) (hk : senSymMaxKeyLength < k) :
    ∃ ids s, (senSymCreate keySize).getAll k keys = some (ids, s) ∧
      (∀ i < keys.length, ∀ bufsize, s.senSymKey (ids.getD i 0) bufsize k =
        some ((keys.getD i []).length,
          if (keys.getD i []).length ≤ bufsize then keys.getD i [] else [])) ∧
      ∀ id, id + 1 < 2 ^ 32 →
        s.senSymNext id k = some (if id < s.senSymSize then id + 1 else 0) := by
  obtain ⟨s, t, hrun, h, -⟩ := (holds_create keySize).getAll hkeys hfits hk
  refine ⟨_, s, hrun, fun i hi bufsize => ?_, fun id hwide => ?_⟩
  · have hid : (keys.map (number (enterAll [] keys))).getD i 0 =
        number (enterAll [] keys) (keys.getD i []) := by
      rw [List.getD_eq_getElem keys [] hi, List.getD_eq_getElem _ 0 (by rwa [List.length_map]),
        List.getElem_map]
    have hmem : keys.getD i [] ∈ enterAll [] keys := by
      rw [List.getD_eq_getElem keys [] hi]
      exact mem_enterAll.mpr (.inr (List.getElem_mem hi))
    obtain ⟨a, ha, heq⟩ := exists_live hmem
    rw [hid, ← heq, number_keyOf h.nodup ha]
    exact h.getKeyOf ha bufsize hk
  · rw [h.next hk hwide, senSymSize, h.total]

/-- Two keys of four bytes, read back. -/
theorem getAll_keys_two :
    ∃ ids s, (senSymCreate 4).getAll 0x10000 [[1, 2, 3, 4], [0, 0, 0, 9]] = some (ids, s) ∧
      s.senSymKey (ids.getD 1 0) 4 0x10000 = some (4, [0, 0, 0, 9]) ∧
      s.senSymNext 0 0x10000 = some (if 0 < s.senSymSize then 1 else 0) := by
  have hkeys : ∀ key ∈ [[1, 2, 3, 4], [0, 0, 0, 9]], IsKey 4 key := by
    intro key hkey
    rcases List.mem_cons.mp hkey with rfl | hkey
    · exact ⟨rfl, by decide⟩
    · exact List.mem_singleton.mp hkey ▸ ⟨rfl, by decide⟩
  obtain ⟨ids, s, hrun, hkey, hnext⟩ := getAll_keys (k := 0x10000) hkeys
    ⟨by decide, by decide⟩ (by decide)
  exact ⟨ids, s, hrun, hkey 1 (by decide) 4, hnext 0 (by decide)⟩

end

end Senna.Sym
