/-
# The default ranking of a records object

Without an argument `sen_records_sort` is to sort by score, the highest first. It leaves
that to `sen_set_sort`, which compares the `int` at an offset of the entries: the key
size. The entry of a 4-byte key is the key and then the value, so the word at this offset
is the score. The entry of a longer key begins with its hash value, so the word at the
same offset is the last one of the key. Records of documents are ranked by score; records
of sections are ranked by section number, and records of positions by position.
-/

import Mathlib.Logic.Equiv.Basic
import Senna.Index.RecordsStream
import Senna.Set.SortMap

namespace Senna.Index

open Senna.Lib Senna.Set

universe u

/-- `sen_rec_unit`. -/
inductive RecUnit
  | recDocument
  | recSection
  | recPosition
  | recUserdef
  | recNone
  deriving DecidableEq, Repr

/-- `rec_unit_size`. -/
def recUnitSize : RecUnit → Int
  | .recDocument => 4
  | .recSection => 4 + 4
  | .recPosition => 4 + 4 + 4
  | _ => -1

/-- The entry of a record, as words: `key` is the document and, for smaller units, the
section and the position; `score`, `nSubrecs` and `subrecs` are its `recinfo`. -/
structure RecEntry where
  hash : Int
  key : List Int
  score : Int
  nSubrecs : Int
  subrecs : List Int
  deriving DecidableEq, Repr

/-- A `struct _sen_set_element`: a key of 4 bytes takes the place of the hash value, a
longer one comes after it. The value follows the key. -/
def RecEntry.words (keySize : Nat) (e : RecEntry) : List Int :=
  (if keySize = 4 then e.key else e.hash :: e.key) ++ e.score :: e.nSubrecs :: e.subrecs

/-- The four bytes of a word. -/
def wordBytes (w : Int) : List UInt8 :=
  (List.range 4).map fun i => UInt8.ofNat ((w % 2 ^ 32).toNat / 256 ^ i)

/-- What a sort can read of the entries of a set with keys of `keySize` bytes. -/
def recEntries (keySize : Nat) : Entries RecEntry where
  word e off := (e.words keySize)[off.toNat]?.getD 0
  strKey _ := []
  binKey e := e.key.flatMap wordBytes

/-- An entry of a record of unit `u`, made of words. -/
structure RecEntry.Ok (u : RecUnit) (e : RecEntry) : Prop where
  key_length : ((4 * e.key.length : Nat) : Int) = recUnitSize u
  key_fits : ∀ w ∈ e.key, FitsInt w
  score_fits : FitsInt e.score

/-- The word of a record that the default ranking compares. -/
def rankWord (u : RecUnit) (e : RecEntry) : Int :=
  match u with
  | .recDocument => e.score
  | _ => e.key.getLastD 0

/-- The word with the sign of the direction: the sort puts the records in ascending order
of this `int`. -/
def rankKey (u : RecUnit) (e : RecEntry) : Int := mulInt (rankWord u e) (-1)

/-- **The word at the key size** is the score of a document's record, and the last word of
the key of any other record. -/
theorem RecEntry.Ok.word_keySize {u : RecUnit} {e : RecEntry} (he : e.Ok u) {keySize : Nat}
    (hk : (keySize : Int) = recUnitSize u) :
    (recEntries keySize).word e (((keySize / 4 : Nat) : Int).bmod (2 ^ 32)) = rankWord u e := by
  have hlen := he.key_length
  have hsmall : ((keySize / 4 : Nat) : Int).bmod (2 ^ 32) = (keySize / 4 : Nat) := by
    have hle : recUnitSize u ≤ 12 := by cases u <;> decide
    apply Int.bmod_eq_of_le <;> norm_num <;> omega
  rw [hsmall]
  show ((e.words keySize)[((keySize / 4 : Nat) : Int).toNat]?).getD 0 = _
  rw [Int.toNat_natCast, RecEntry.words]
  cases u with
  | recDocument =>
      have h4 : keySize = 4 := by
        change (keySize : Int) = 4 at hk
        omega
      have h1 : e.key.length = 1 := by
        change _ = (4 : Int) at hlen
        omega
      rw [if_pos h4, List.getElem?_append_right (by omega), h1, h4]
      rfl
  | recSection =>
      change _ = (4 + 4 : Int) at hlen hk
      have hne : e.key ≠ [] := by
        rintro hnil
        rw [hnil] at hlen
        simp at hlen
      rw [if_neg (by omega), List.getElem?_append_left (by rw [List.length_cons]; omega),
        show keySize / 4 = (e.key.length - 1) + 1 by omega, List.getElem?_cons_succ]
      show e.key[e.key.length - 1]?.getD 0 = e.key.getLastD 0
      rw [← List.getLast?_eq_getElem?, List.getLastD_eq_getLast?]
  | recPosition =>
      change _ = (4 + 4 + 4 : Int) at hlen hk
      have hne : e.key ≠ [] := by
        rintro hnil
        rw [hnil] at hlen
        simp at hlen
      rw [if_neg (by omega), List.getElem?_append_left (by rw [List.length_cons]; omega),
        show keySize / 4 = (e.key.length - 1) + 1 by omega, List.getElem?_cons_succ]
      show e.key[e.key.length - 1]?.getD 0 = e.key.getLastD 0
      rw [← List.getLast?_eq_getElem?, List.getLastD_eq_getLast?]
  | recUserdef =>
      change _ = (-1 : Int) at hlen
      omega
  | recNone =>
      change _ = (-1 : Int) at hlen
      omega

/-- An object that holds the records `es` of unit `u`, wherever they stand in the index. -/
structure Holds (u : RecUnit) (es : List RecEntry) (obj : RecordsObj RecEntry) : Prop where
  table : obj.table.Ok
  keySize : (obj.table.keySize : Int) = recUnitSize u
  recordSize : obj.recordSize = obj.table.keySize
  unit : obj.userdef = decide (u = .recUserdef)
  entries : (live obj.table.index).Perm es

/-- The records `es` have different keys, and each is an entry of unit `u`. -/
structure RecordsOf (u : RecUnit) (es : List RecEntry) : Prop where
  entry : ∀ e ∈ es, e.Ok u
  keys : (es.map RecEntry.key).Nodup

section

variable {ε : Type u}

/-- The record whose score `sen_records_next` stores, where it stores one. -/
def visited (r : SenRecords ε) : Option ε := r.advance.bind SenRecords.currEntry

/-- The records that `n` calls of `sen_records_next` come to, one after the other. -/
def walk : Nat → SenRecords ε → List ε
  | 0, _ => []
  | n + 1, r => (visited r).toList ++ walk n (senRecordsNext r).2

/-- The walk through a sorted array comes to its first `limit` elements. -/
theorem walk_sorted {r : SenRecords ε} {a : Nat} {s : List ε} (hs : r.sorted = some (a, s))
    (hlim : r.limit ≤ s.length) (n : Nat) :
    walk n r = ((s.take r.limit.toNat).drop r.pos).take n := by
  induction n generalizing r with
  | zero => rfl
  | succ n ih =>
      rcases Nat.lt_or_ge r.pos r.limit.toNat with hpos | hpos
      · have hlen : r.pos < (s.take r.limit.toNat).length := by
          rw [List.length_take]
          omega
        obtain ⟨e, he⟩ : ∃ e, s[r.pos]? = some e := ⟨_, List.getElem?_eq_getElem (by omega)⟩
        have hget : (s.take r.limit.toNat)[r.pos] = e := by
          rw [List.getElem_take]
          exact Option.some.inj ((List.getElem?_eq_getElem _).symm.trans he)
        have hcurr : SenRecords.currEntry { r with currRec := some r.pos } = some e := by
          simp only [SenRecords.currEntry, hs, Option.bind_some, he]
        have hvisit : visited r = some e := by
          rw [visited, SenRecords.advance_of_lt hs hpos, Option.bind_some, hcurr]
        have hrest := ih (r := { r with currRec := some r.pos }) hs hlim
        rw [walk, hvisit, senRecordsNext_of_lt hs hpos he, hrest,
          List.drop_eq_getElem_cons hlen, hget]
        rfl
      · have hvisit : visited r = none := by
          rcases SenRecords.advance_of_ge hs hpos with h | ⟨h, he⟩
          · rw [visited, h, Option.bind_none]
          · rw [visited, h, Option.bind_some, he]
        have hnil : (s.take r.limit.toNat).drop r.pos = [] := by
          rw [List.drop_eq_nil_iff, List.length_take]
          omega
        rw [walk, hvisit, senRecordsNext_of_ge hs hpos, ih hs hlim, hnil, List.take_nil,
          List.take_nil]
        rfl

theorem cursorNext_of_live_nil {index : List (Slot ε)} (h : live index = []) (i ep : Nat) :
    cursorNext index i ep = none := by
  induction i generalizing ep with
  | zero => rfl
  | succ i ih =>
      rw [cursorNext]
      cases hs : index[ep]? with
      | none => exact ih _
      | some s =>
          cases s with
          | null => exact ih _
          | garbage => exact ih _
          | entry e =>
              have hmem : e ∈ live index :=
                List.mem_filterMap.mpr ⟨_, List.mem_of_getElem? hs, rfl⟩
              rw [h] at hmem
              cases hmem

/-- The walk through an empty object comes to nothing. -/
theorem walk_empty {r : SenRecords ε} (hs : r.sorted = none) (h : live r.obj.table.index = [])
    (n : Nat) : walk n r = [] := by
  induction n generalizing r with
  | zero => rfl
  | succ n ih =>
      have hadv : r.advance = some { r with
          cursor := some ((r.cursor.getD (0, r.obj.table.maxOffset + 1)).1, 0)
          currRec := none } := by
        rw [SenRecords.advance, hs]
        dsimp only
        rw [cursorNext_of_live_nil h]
      have hvisit : visited r = none := by
        rw [visited, hadv]
        rfl
      rw [walk, hvisit, senRecordsNext, hadv]
      exact ih hs h

end

/-- `out` enumerates the best `limit` of the records `es`: each once, by descending score,
and no record left out has a greater score. -/
structure RanksByScore (es : List RecEntry) (limit : Int) (out : List RecEntry) : Prop where
  length : out.length = min limit.toNat es.length
  nodup : out.Nodup
  mem : ∀ x ∈ out, x ∈ es
  sorted : out.Pairwise fun x y => y.score ≤ x.score
  best : ∀ x ∈ out, ∀ y ∈ es, y ∉ out → y.score ≤ x.score

/-- `sen_records_sort(r, limit, NULL)` followed by calls of `sen_records_next` ranks the
records by score. -/
def RanksDefault (r₀ : SenRecords RecEntry) (es : List RecEntry) (limit : Int) : Prop :=
  ∀ buf : Nat × List RecEntry, buf.2.length = r₀.obj.table.nEntries →
    ∃ rc r out,
      Settles (senRecordsSort (recEntries r₀.obj.table.keySize) r₀ (some buf) limit none) (rc, r) ∧
      (∀ n, walk n r = out.take n) ∧ RanksByScore es limit out

/-- No record that may come within the limit has a smaller score than one that may come
after it. -/
def ScoresFollow (u : RecUnit) (es : List RecEntry) (limit : Int) : Prop :=
  ∀ x ∈ es, ∀ y ∈ es, rankKey u x ≤ rankKey u y →
    ((es.countP fun z => decide (rankKey u z < rankKey u x) : Nat) : Int) < limit →
    y.score ≤ x.score

section

variable {u : RecUnit} {es : List RecEntry} {limit : Int} {obj : RecordsObj RecEntry}

/-- The order of the ranking. -/
def gtRank (u : RecUnit) (x y : RecEntry) : Bool := decide (rankKey u x > rankKey u y)

theorem gtRank_total (u : RecUnit) (S : RecEntry → Prop) : TotalPreorderOn S (gtRank u) where
  asymm _ _ h := by
    simp only [gtRank, decide_eq_true_eq, decide_eq_false_iff_not] at h ⊢
    omega
  trans _ _ _ hxy hyz := by
    simp only [gtRank, decide_eq_false_iff_not] at hxy hyz ⊢
    omega

/-- A prefix of an arrangement of the records ranks them when no record of the prefix has
a smaller score than one after it. -/
theorem ranksByScore_take_iff {s : List RecEntry} (hperm : s.Perm es) (hnodup : es.Nodup)
    (hlim : 0 < limit) :
    RanksByScore es limit (s.take limit.toNat) ↔
      ∀ (i j : Nat) (x y : RecEntry), i < j → (i : Int) < limit → s[i]? = some x →
        s[j]? = some y → y.score ≤ x.score := by
  have hsn : s.Nodup := hperm.nodup_iff.mpr hnodup
  have htake (i : Nat) : (s.take limit.toNat)[i]? = if i < limit.toNat then s[i]? else none :=
    List.getElem?_take
  constructor
  · intro h i j x y hij hi hx hy
    have hxi : (s.take limit.toNat)[i]? = some x := by rw [htake, if_pos (by omega), hx]
    rcases Nat.lt_or_ge j limit.toNat with hj | hj
    · have hyj : (s.take limit.toNat)[j]? = some y := by rw [htake, if_pos hj, hy]
      obtain ⟨hil, rfl⟩ := List.getElem?_eq_some_iff.mp hxi
      obtain ⟨hjl, rfl⟩ := List.getElem?_eq_some_iff.mp hyj
      exact List.pairwise_iff_getElem.mp h.sorted i j hil hjl hij
    · apply h.best x (List.mem_of_getElem? hxi) y (hperm.mem_iff.mp (List.mem_of_getElem? hy))
      intro hmem
      obtain ⟨k, hk⟩ := List.mem_iff_getElem?.mp hmem
      rw [htake] at hk
      split at hk
      · next hkl =>
          obtain ⟨hjs, hjy⟩ := List.getElem?_eq_some_iff.mp hy
          obtain ⟨hks, hky⟩ := List.getElem?_eq_some_iff.mp hk
          have := hsn.getElem_inj_iff.mp (hjy.trans hky.symm)
          omega
      · cases hk
  · intro h
    refine ⟨?_, hsn.sublist (List.take_sublist _ _), fun x hx =>
      hperm.mem_iff.mp (List.mem_of_mem_take hx), ?_, ?_⟩
    · rw [List.length_take, hperm.length_eq]
    · rw [List.pairwise_iff_getElem]
      intro i j hi hj hij
      rw [List.length_take] at hi hj
      rw [List.getElem_take, List.getElem_take]
      exact h i j _ _ hij (by omega) (List.getElem?_eq_getElem _) (List.getElem?_eq_getElem _)
    · intro x hx y hy hny
      obtain ⟨i, hi⟩ := List.mem_iff_getElem?.mp hx
      rw [htake] at hi
      obtain ⟨j, hj⟩ := List.mem_iff_getElem?.mp (hperm.mem_iff.mpr hy)
      split at hi
      · next hil =>
          have hjl : ¬ j < limit.toNat := by
            intro hjl
            exact hny (List.mem_iff_getElem?.mpr ⟨j, by rw [htake, if_pos hjl, hj]⟩)
          exact h i j x y (by omega) (by omega) hi hj
      · cases hi

theorem RecordsOf.nodup (h : RecordsOf u es) : es.Nodup := h.keys.of_map

/-- The comparison of the sort is the order of the ranking. -/
theorem Holds.cmp_agrees (hobj : Holds u es obj) (hes : RecordsOf u es) {x y : RecEntry}
    (hx : x ∈ es) (hy : y ∈ es) :
    (intCmp (recEntries obj.table.keySize).word
      (((obj.table.keySize / 4 : Nat) : Int).bmod (2 ^ 32)) (-1)).gt x y = gtRank u x y := by
  show decide (mulInt _ _ > mulInt _ _) = _
  rw [(hes.entry x hx).word_keySize hobj.keySize, (hes.entry y hy).word_keySize hobj.keySize]
  rfl

theorem Holds.cmp_ok (hobj : Holds u es obj) (hes : RecordsOf u es) :
    (intCmp (recEntries obj.table.keySize).word
      (((obj.table.keySize / 4 : Nat) : Int).bmod (2 ^ 32)) (-1)).Ok
        (· ∈ live obj.table.index) where
  lt_eq _ _ := rfl
  total :=
    { asymm := by
        intro x y hx hy
        have hx' := hobj.entries.mem_iff.mp hx
        have hy' := hobj.entries.mem_iff.mp hy
        rw [hobj.cmp_agrees hes hx' hy', hobj.cmp_agrees hes hy' hx']
        exact (gtRank_total u (· ∈ es)).asymm hx' hy'
      trans := by
        intro x y z hx hy hz
        have hx' := hobj.entries.mem_iff.mp hx
        have hy' := hobj.entries.mem_iff.mp hy
        have hz' := hobj.entries.mem_iff.mp hz
        rw [hobj.cmp_agrees hes hx' hy', hobj.cmp_agrees hes hy' hz', hobj.cmp_agrees hes hx' hz']
        exact (gtRank_total u (· ∈ es)).trans hx' hy' hz' }

/-- The limit that `sen_records_sort` passes on and stores. -/
def cutLimit (limit : Int) (n : Nat) : Int := if limit > n then (n : Int) else limit

/-- `sen_records_sort` without an argument sorts by the word at the key size. -/
theorem Holds.senRecordsSort_eq {r₀ : SenRecords RecEntry} (hobj : Holds u es r₀.obj)
    (hne : r₀.obj.table.nEntries ≠ 0) (hlim : 0 < limit) (buf : Nat × List RecEntry) (k : Nat) :
    senRecordsSort (recEntries r₀.obj.table.keySize) r₀ (some buf) limit none k =
      (sortInt (recEntries r₀.obj.table.keySize).word r₀.obj.table buf.2
        (cutLimit limit r₀.obj.table.nEntries)
        (((r₀.obj.table.keySize / 4 : Nat) : Int).bmod (2 ^ 32)) (-1) k).map fun s =>
          (.success, { r₀.cursorClear with
            sorted := some (buf.1, s), limit := cutLimit limit r₀.obj.table.nEntries }) := by
  have hkey : r₀.obj.table.keySize ≠ 0 := by
    have hk := hobj.keySize
    intro hzero
    rw [hzero] at hk
    revert hk
    cases u <;> decide
  have hby : sortBy r₀.obj.table (recEntries r₀.obj.table.keySize) r₀.obj
      (some (setOptarg r₀.obj none)) =
        .int (((r₀.obj.table.keySize / 4 : Nat) : Int).bmod (2 ^ 32)) := by
    show (if r₀.obj.table.keySize ≠ 0 then _ else _) = _
    rw [if_pos hkey]
    rfl
  have hcut : (if cutLimit limit r₀.obj.table.nEntries = 0 ∨
      cutLimit limit r₀.obj.table.nEntries > r₀.obj.table.nEntries then
        (r₀.obj.table.nEntries : Int) else cutLimit limit r₀.obj.table.nEntries) =
      cutLimit limit r₀.obj.table.nEntries := by
    unfold cutLimit
    split <;> split <;> omega
  have hset (L : Int) : senSetSort r₀.obj.table (recEntries r₀.obj.table.keySize) r₀.obj
      (some buf.2) L (some (setOptarg r₀.obj none)) k =
      (sortInt (recEntries r₀.obj.table.keySize).word r₀.obj.table buf.2
        (if L = 0 ∨ L > r₀.obj.table.nEntries then (r₀.obj.table.nEntries : Int) else L)
        (((r₀.obj.table.keySize / 4 : Nat) : Int).bmod (2 ^ 32)) (-1) k).map some := by
    rw [senSetSort_eq hne, hby]
    rfl
  show (if r₀.obj.table.nEntries = 0 then _ else
    (senSetSort r₀.obj.table (recEntries r₀.obj.table.keySize) r₀.obj (some buf.2)
      (cutLimit limit r₀.obj.table.nEntries) (some (setOptarg r₀.obj none)) k).map _) = _
  rw [if_neg hne, hset, hcut, Option.map_map]
  rfl

/-- What the sort leaves in the array settles whether the records are ranked. -/
theorem Holds.ranks_iff {r₀ : SenRecords RecEntry} (hobj : Holds u es r₀.obj)
    (hne : r₀.obj.table.nEntries ≠ 0) (hlim : 0 < limit) (buf : Nat × List RecEntry)
    {s : List RecEntry} (hperm : s.Perm es)
    (hsort : Settles (sortInt (recEntries r₀.obj.table.keySize).word r₀.obj.table buf.2
        (cutLimit limit r₀.obj.table.nEntries)
        (((r₀.obj.table.keySize / 4 : Nat) : Int).bmod (2 ^ 32)) (-1)) s) :
    (∃ rc r out,
      Settles (senRecordsSort (recEntries r₀.obj.table.keySize) r₀ (some buf) limit none) (rc, r) ∧
      (∀ n, walk n r = out.take n) ∧ RanksByScore es limit out) ↔
      RanksByScore es limit (s.take limit.toNat) := by
  have hrun := Settles.congr (hobj.senRecordsSort_eq hne hlim buf) (hsort.map fun s =>
    (SenRc.success, { r₀.cursorClear with
      sorted := some (buf.1, s), limit := cutLimit limit r₀.obj.table.nEntries }))
  have hlen : s.length = r₀.obj.table.nEntries := by
    rw [hperm.length_eq, ← hobj.entries.length_eq, hobj.table.count]
  have hle : cutLimit limit r₀.obj.table.nEntries ≤ s.length := by
    rw [hlen, cutLimit]
    split <;> omega
  have htake : s.take (cutLimit limit r₀.obj.table.nEntries).toNat = s.take limit.toNat := by
    rw [cutLimit]
    split
    · rw [List.take_of_length_le (by omega), List.take_of_length_le (by omega)]
    · rfl
  have hwalk (n : Nat) : walk n { r₀.cursorClear with
      sorted := some (buf.1, s), limit := cutLimit limit r₀.obj.table.nEntries } =
        (s.take limit.toNat).take n := by
    rw [walk_sorted rfl hle, htake]
    rfl
  constructor
  · rintro ⟨rc, r, out, hset, hout, hranks⟩
    obtain ⟨rfl, rfl⟩ := Prod.mk.inj (hset.unique hrun)
    have heq : out = s.take limit.toNat := by
      have hn := (hout (out.length + s.length)).symm.trans (hwalk _)
      rwa [List.take_of_length_le (by omega),
        List.take_of_length_le (by rw [List.length_take]; omega)] at hn
    rwa [← heq]
  · exact fun hranks => ⟨_, _, _, hrun, hwalk, hranks⟩

/-- The sort puts the records in the order of the ranking, up to the limit. -/
theorem Holds.sort_settles (hobj : Holds u es obj) (hes : RecordsOf u es)
    (hne : obj.table.nEntries ≠ 0) {buf : List RecEntry} (hbuf : buf.length = obj.table.nEntries)
    (limit : Int) :
    ∃ s, Settles (sortInt (recEntries obj.table.keySize).word obj.table buf
        (cutLimit limit obj.table.nEntries)
        (((obj.table.keySize / 4 : Nat) : Int).bmod (2 ^ 32)) (-1)) s ∧
      s.Perm es ∧ SortedTo (gtRank u) 0 s.length limit s := by
  obtain ⟨s, hset, hperm, hsorted⟩ := Set.sort_settles (hobj.cmp_ok hes)
    (SortBy.rule_ok (.int 0 : SortBy Unit RecEntry)) hobj.table hne hbuf
    (cutLimit limit obj.table.nEntries)
  have hes' := hperm.trans hobj.entries
  have hlen : s.length = obj.table.nEntries := by rw [hperm.length_eq, hobj.table.count]
  refine ⟨s, hset, hes', ?_⟩
  intro i j x y hi hij hj hl hx hy
  have hmem {i : Nat} {x : RecEntry} (hx : s[i]? = some x) : x ∈ es :=
    hes'.mem_iff.mp (List.mem_of_getElem? hx)
  rw [← hobj.cmp_agrees hes (hmem hx) (hmem hy)]
  apply hsorted i j x y hi hij (by omega) _ hx hy
  rw [cutLimit]
  split <;> omega

/-- Where the scores follow the order of the ranking, the records are ranked by score. -/
theorem ScoresFollow.ranks (h : ScoresFollow u es limit) (hes : RecordsOf u es)
    (hlim : 0 < limit) {r₀ : SenRecords RecEntry} (hobj : Holds u es r₀.obj) :
    RanksDefault r₀ es limit := by
  intro buf hbuf
  by_cases hne : r₀.obj.table.nEntries = 0
  · have hnil : live r₀.obj.table.index = [] := by
      rw [← List.length_eq_zero_iff, ← hobj.table.count, hne]
    have hes0 : es = [] := by
      have hp := hobj.entries
      rw [hnil] at hp
      exact hp.nil_eq.symm
    refine ⟨.invalidArgument, r₀.cursorClear, [], ?_, fun n => ?_, ?_⟩
    · refine Settles.congr (fun k => ?_) (Settles.pure _)
      show (if r₀.obj.table.nEntries = 0 then _ else _) = _
      rw [if_pos hne]
    · rw [walk_empty (r := r₀.cursorClear) rfl hnil, List.take_nil]
    · rw [hes0]
      refine ⟨by simp, List.nodup_nil, by simp, List.Pairwise.nil, by simp⟩
  · obtain ⟨s, hset, hperm, hsorted⟩ := hobj.sort_settles hes hne hbuf limit
    rw [hobj.ranks_iff hne hlim _ hperm hset, ranksByScore_take_iff hperm hes.nodup hlim]
    intro i j x y hij hi hx hy
    have hj := (List.getElem?_eq_some_iff.mp hy).1
    have hxy : gtRank u x y = false :=
      hsorted i j x y (Nat.zero_le _) hij hj (by omega) hx hy
    have hrank : s.countP (gtRank u x) ≤ i :=
      hsorted.countP_le (gtRank_total u fun _ => True) (fun _ _ => trivial) hi hx
    rw [hperm.countP_eq] at hrank
    apply h x (hperm.mem_iff.mp (List.mem_of_getElem? hx)) y
      (hperm.mem_iff.mp (List.mem_of_getElem? hy))
    · simpa [gtRank] using hxy
    · have : (es.countP fun z => decide (rankKey u z < rankKey u x)) ≤ i := hrank
      omega

/-- The records in some index: one slot after the other, then empty slots. -/
def layout (u : RecUnit) (es : List RecEntry) : SenRecords RecEntry where
  obj :=
    { self := 0
      indexAddr := 0
      table :=
        { keySize := (recUnitSize u).toNat
          maxOffset := 2 ^ es.length - 1
          nEntries := es.length
          index := es.map .entry ++ List.replicate (2 ^ es.length - es.length) .null }
      userdef := decide (u = .recUserdef)
      recordSize := (recUnitSize u).toNat
      keys := none }
  cursor := none
  sorted := none
  limit := 0
  currRec := none

theorem live_layout (es : List RecEntry) (n : Nat) :
    live (es.map Slot.entry ++ List.replicate n Slot.null) = es := by
  have hnull : live (List.replicate n (Slot.null : Slot RecEntry)) = [] := by
    rw [live, List.filterMap_eq_nil_iff]
    intro s hs
    rw [List.eq_of_mem_replicate hs]
    rfl
  rw [live, List.filterMap_append]
  change _ ++ live (List.replicate n Slot.null) = _
  rw [hnull, List.append_nil, List.filterMap_map]
  exact List.filterMap_some

theorem layout_holds (hu : 0 ≤ recUnitSize u) (es : List RecEntry) :
    Holds u es (layout u es).obj where
  table :=
    { length_eq := by
        have hlt : es.length < 2 ^ es.length := Nat.lt_two_pow_self
        show (es.map Slot.entry ++ List.replicate _ Slot.null).length = 2 ^ es.length - 1 + 1
        rw [List.length_append, List.length_map, List.length_replicate]
        omega
      pow_two := ⟨es.length, by
        have hlt : es.length < 2 ^ es.length := Nat.lt_two_pow_self
        show 2 ^ es.length - 1 + 1 = _
        omega⟩
      count := by
        show es.length = (live (es.map Slot.entry ++ List.replicate _ Slot.null)).length
        rw [live_layout] }
  keySize := Int.toNat_of_nonneg hu
  recordSize := rfl
  unit := rfl
  entries := by
    show (live (es.map Slot.entry ++ List.replicate _ Slot.null)).Perm es
    rw [live_layout]

/-- The object with its entries exchanged. -/
def SenRecords.mapEntries (f : RecEntry → RecEntry) (r : SenRecords RecEntry) :
    SenRecords RecEntry :=
  { r with obj := { r.obj with table := r.obj.table.map f, keys := none } }

theorem Holds.mapEntries {r : SenRecords RecEntry} (h : Holds u es r.obj)
    {f : RecEntry → RecEntry} (hf : (es.map f).Perm es) : Holds u es (r.mapEntries f).obj where
  table := h.table.map f
  keySize := h.keySize
  recordSize := h.recordSize
  unit := h.unit
  entries := by
    show (live (r.obj.table.index.map _)).Perm es
    rw [live_map]
    exact (h.entries.map f).trans hf

/-- Exchanging two of the records rearranges them. -/
theorem map_swap_perm (hnodup : es.Nodup) {x z : RecEntry} (hx : x ∈ es) (hz : z ∈ es) :
    (es.map (Equiv.swap x z)).Perm es := by
  rw [List.perm_ext_iff_of_nodup (hnodup.map (Equiv.swap x z).injective) hnodup]
  have hmem (a : RecEntry) (ha : a ∈ es) : Equiv.swap x z a ∈ es := by
    rw [Equiv.swap_apply_def]
    split
    · exact hz
    · split
      · exact hx
      · exact ha
  intro a
  rw [List.mem_map]
  refine ⟨?_, fun ha => ⟨Equiv.swap x z a, hmem a ha, Equiv.swap_apply_self x z a⟩⟩
  rintro ⟨b, hb, rfl⟩
  exact hmem b hb

/-- Exchanging records that compare equal exchanges them in the sorted array. -/
theorem sortInt_swap {t : Table RecEntry} {buf s : List RecEntry} {L off : Int}
    (word : RecEntry → Int → Int) {x z : RecEntry}
    (hxz : mulInt (word x off) (-1) = mulInt (word z off) (-1))
    (h : Settles (sortInt word t buf L off (-1)) s) :
    Settles (sortInt word (t.map (Equiv.swap x z)) (buf.map (Equiv.swap x z)) L off (-1))
      (s.map (Equiv.swap x z)) := by
  have hsame (a : RecEntry) : intOffsetVal word off (-1) (Equiv.swap x z a) =
      intOffsetVal word off (-1) a := by
    unfold intOffsetVal
    rw [Equiv.swap_apply_def]
    split
    · next h => rw [h, hxz]
    · split
      · next h => rw [h, hxz]
      · rfl
  have hagree : (intCmp word off (-1)).Agrees (Equiv.swap x z) (intCmp word off (-1)) :=
    { lt_eq := fun a b => by simp only [intCmp, hsame]
      gt_eq := fun a b => by simp only [intCmp, hsame] }
  exact Settles.congr (fun k => sort_map hagree (fun _ _ _ => rfl) t buf L k) (h.map _)

/-- A record within the limit may come out before any other that does not compare smaller:
in some index nothing else stands at the place of its rank. -/
theorem ScoresFollow.of_ranks (hu : 0 ≤ recUnitSize u) (hes : RecordsOf u es) (hlim : 0 < limit)
    (h : ∀ r₀, Holds u es r₀.obj → RanksDefault r₀ es limit) : ScoresFollow u es limit := by
  intro x hx y hy hxy hrank
  have hbase := layout_holds hu es
  have hne : (layout u es).obj.table.nEntries ≠ 0 := by
    show es.length ≠ 0
    exact (List.length_pos_of_mem hx).ne'
  obtain ⟨s, hset, hperm, hsorted⟩ := hbase.sort_settles hes hne
    (List.length_replicate : (List.replicate es.length x).length = es.length) limit
  have hcount : (s.countP (gtRank u x) : Int) < limit := by
    rw [hperm.countP_eq]
    exact hrank
  have hplace {i : Nat} {w : RecEntry} (hw : s[i]? = some w) :
      gtRank u x w = true ↔ i < s.countP (gtRank u x) :=
    hsorted.gt_iff_lt_countP (gtRank_total u fun _ => True) (fun _ _ => trivial) trivial
      (le_of_lt hcount) hw
  -- the place of the rank of `x` holds some `z` that compares equal
  obtain ⟨i, hi⟩ := List.mem_iff_getElem?.mp (hperm.mem_iff.mpr hx)
  have hxx : gtRank u x x = false := (gtRank_total u fun _ => True).refl trivial
  have hpi : s.countP (gtRank u x) ≤ i := by
    by_contra hlt
    rw [(hplace hi).mpr (by omega)] at hxx
    cases hxx
  have hps : s.countP (gtRank u x) < s.length :=
    lt_of_le_of_lt hpi (List.getElem?_eq_some_iff.mp hi).1
  obtain ⟨z, hz⟩ : ∃ z, s[s.countP (gtRank u x)]? = some z := ⟨_, List.getElem?_eq_getElem hps⟩
  have hzmem : z ∈ es := hperm.mem_iff.mp (List.mem_of_getElem? hz)
  have hxz : gtRank u x z = false := by
    rw [← Bool.not_eq_true, hplace hz]
    exact lt_irrefl _
  have hzx : gtRank u z x = false := by
    rcases Nat.lt_or_ge (s.countP (gtRank u x)) i with hlt | hge
    · exact hsorted _ i z x (Nat.zero_le _) hlt (List.getElem?_eq_some_iff.mp hi).1 (by omega) hz hi
    · obtain rfl : i = s.countP (gtRank u x) := by omega
      obtain rfl : x = z := Option.some.inj (hi.symm.trans hz)
      exact hxx
  have hkey : rankKey u x = rankKey u z := by
    simp only [gtRank, decide_eq_false_iff_not] at hxz hzx
    omega
  -- exchanged with `z`, it is the record that comes out there
  have hswap := map_swap_perm hes.nodup hx hzmem
  have hset' := sortInt_swap (recEntries (layout u es).obj.table.keySize).word (x := x) (z := z)
    (by
      rw [(hes.entry x hx).word_keySize hbase.keySize,
          (hes.entry z hzmem).word_keySize hbase.keySize]
      exact hkey) hset
  have hperm' : (s.map (Equiv.swap x z)).Perm es := (hperm.map _).trans hswap
  have hobj' := hbase.mapEntries hswap
  have hranks := (hobj'.ranks_iff
    hne hlim (0, (List.replicate es.length x).map (Equiv.swap x z)) hperm' hset').mp
        (h _ hobj' _ (by
      rw [List.length_map, List.length_replicate]
      rfl))
  rw [ranksByScore_take_iff hperm' hes.nodup hlim] at hranks
  by_cases hyx : y = x
  · rw [hyx]
  · have hxat : (s.map (Equiv.swap x z))[s.countP (gtRank u x)]? = some x := by
      rw [List.getElem?_map, hz, Option.map_some, Equiv.swap_apply_right]
    obtain ⟨j, hj⟩ := List.mem_iff_getElem?.mp (hperm'.mem_iff.mpr hy)
    obtain ⟨w, hw, hwy⟩ : ∃ w, s[j]? = some w ∧ Equiv.swap x z w = y := by
      rwa [List.getElem?_map, Option.map_eq_some_iff] at hj
    have hwkey : rankKey u w = rankKey u y := by
      rw [← hwy, Equiv.swap_apply_def]
      split
      · next h => rw [h, hkey]
      · split
        · next h => rw [h, hkey]
        · rfl
    have hnot : ¬ j < s.countP (gtRank u x) := by
      rw [← hplace hw, Bool.not_eq_true]
      simp only [gtRank, decide_eq_false_iff_not]
      omega
    have hjp : j ≠ s.countP (gtRank u x) := by
      rintro rfl
      exact hyx (Option.some.inj (hj.symm.trans hxat))
    exact hranks _ j x y (by omega) hcount hxat hj

/-- **The default ranking.** Sorting without an argument ranks the records of an object by
score, wherever they stand in its index, exactly when their scores follow the word that is
compared: the score of a document, but the last word of the key of any other record. -/
theorem recordsSort_ranks_iff {u : RecUnit} (hu : 0 ≤ recUnitSize u) {es : List RecEntry}
    (hes : RecordsOf u es) {limit : Int} (hlim : 0 < limit) :
    (∀ r₀, Holds u es r₀.obj → RanksDefault r₀ es limit) ↔ ScoresFollow u es limit :=
  ⟨ScoresFollow.of_ranks hu hes hlim, fun h _ hobj => h.ranks hes hlim hobj⟩

/-- Two sections of a document with the scores 5 and 1, the better one first. -/
def exampleSections : List RecEntry :=
  [{ hash := 42, key := [1, 1], score := 5, nSubrecs := 1, subrecs := [] },
    { hash := 79, key := [1, 2], score := 1, nSubrecs := 1, subrecs := [] }]

theorem exampleSections_records : RecordsOf .recSection exampleSections where
  entry e he := by
    have hcases : e = exampleSections[0] ∨ e = exampleSections[1] := by
      simpa [exampleSections] using he
    rcases hcases with rfl | rfl <;>
      exact ⟨by decide, by decide, by decide⟩
  keys := by decide

/-- A section with the score 1 is ranked before one with the score 5. -/
theorem recordsSort_sections :
    ∃ r₀, Holds .recSection exampleSections r₀.obj ∧ ¬ RanksDefault r₀ exampleSections 2 := by
  have hbase := layout_holds (u := .recSection) (by decide) exampleSections
  refine ⟨layout .recSection exampleSections, hbase, fun h => ?_⟩
  have hoff : (((8 / 4 : Nat) : Int)).bmod (2 ^ 32) = 2 := by decide
  have hset : Settles (sortInt (recEntries 8).word (layout .recSection exampleSections).obj.table
      exampleSections (cutLimit 2 2) (((8 / 4 : Nat) : Int).bmod (2 ^ 32)) (-1))
      exampleSections.reverse := by
    rw [hoff]
    refine ⟨10, fun k hk => ?_⟩
    obtain ⟨j, rfl⟩ := Nat.exists_eq_add_of_le' hk
    rfl
  have hranks := (hbase.ranks_iff (by decide) (by decide : (0 : Int) < 2)
    (0, exampleSections) (List.reverse_perm _) hset).mp (h _ rfl)
  exact absurd hranks.sorted (by decide)

/-- With the scores in the order of the section numbers the two are ranked. -/
theorem recordsSort_ranks_iff_sections :
    (∀ r₀, Holds .recSection exampleSections.reverse r₀.obj →
        RanksDefault r₀ exampleSections.reverse 1) ↔
      ScoresFollow .recSection exampleSections.reverse 1 :=
  recordsSort_ranks_iff (by decide)
    ⟨fun e he => exampleSections_records.entry e (List.mem_reverse.mp he), by decide⟩ (by decide)

end

end Senna.Index
