/-
# Runs of a hash set

A run starts from `sen_set_open` and goes on with look-ups, writes of values, deletions,
resets and array fills. In a run whose steps all meet their conditions every operation
returns, the set stands for the finite map that the operations describe, and a cursor that
no reset interrupts meets every key once.
-/

import Senna.Set.HashInv

namespace Senna.Set

open Senna.Lib

/-- The bytes of an entry before they are rounded up. -/
def entryBytes (keySize valueSize : Nat) : Nat :=
  match keySize with
  | 0 => 12 + valueSize
  | 4 => 4 + valueSize
  | n => 4 + n + valueSize

/-- The sizes that `sen_set_open` can serve: the index size and the size of an entry fit into
a word. -/
structure Sizes (keySize valueSize initSize : Nat) : Prop where
  init : initSize ≤ 2 ^ 31
  entry : entryBytes keySize valueSize ≤ 2 ^ 32 - 8

theorem entrySizeOf_ge {keySize valueSize : Nat} (h : entryBytes keySize valueSize ≤ 2 ^ 32 - 8) :
    8 ≤ entrySizeOf keySize valueSize := by
  have hsize : entrySizeOf keySize valueSize =
      if entryBytes keySize valueSize % 2 ^ 32 % 8 ≠ 0 then
        (entryBytes keySize valueSize % 2 ^ 32 +
          (8 - entryBytes keySize valueSize % 2 ^ 32 % 8)) % 2 ^ 32
      else entryBytes keySize valueSize % 2 ^ 32 := rfl
  have hpos : 4 ≤ entryBytes keySize valueSize := by
    unfold entryBytes
    split <;> omega
  rw [hsize]
  split_ifs <;> omega

/-- A set of `n` slots that was just opened has no entries. -/
theorem live_replicate_null {ε : Type*} (n : Nat) :
    live (List.replicate n (Slot.null : Slot ε)) = [] := by
  unfold live
  rw [List.filterMap_replicate_of_none rfl]

theorem Views.replicate_null (cells : Addr → Content) (n : Nat) :
    Views cells (List.replicate n .null) (List.replicate n .null) := by
  induction n with
  | zero => exact .nil
  | succ n ih => exact .cons trivial ih

/-- **`sen_set_open`.** The new set stands for the empty map. -/
theorem senSetOpen_inv {keySize valueSize initSize : Nat}
    (h : Sizes keySize valueSize initSize) :
    ∃ V, (senSetOpen keySize valueSize initSize).Inv (fun _ => none) V [] 0 := by
  have hle : initSize - 1 ≤ 2 ^ 31 - 1 := by
    have hinit := h.init
    omega
  obtain ⟨k, hk, hlow, hhigh, -⟩ := indexSize_spec hle
  have hm : indexSize (initSize - 1) - 1 + 1 = 2 ^ k := by
    rw [hk]
    exact Nat.sub_add_cancel Nat.one_le_two_pow
  have hsize : indexSize (initSize - 1) = indexSize (initSize - 1) - 1 + 1 := by
    rw [hm, hk]
  refine ⟨List.replicate (indexSize (initSize - 1)) .null, {
    views := Views.replicate_null _ _
    size := ⟨k, hlow, hhigh, hm⟩
    length := (List.length_replicate ..).trans hsize
    distinct := ⟨?_, ?_⟩
    hashed := fun _ p e hp => ?_
    map := fun key v => ?_
    count := ?_
    garbage := ?_
    room := Nat.succ_pos _
    storage := ?_ }⟩
  · rw [live_replicate_null]
    exact nofun
  · rw [live_replicate_null]
    exact List.nodup_nil
  · rw [List.getElem?_replicate] at hp
    split_ifs at hp
    exact nomatch hp
  · rw [live_replicate_null]
    exact ⟨nofun, nofun⟩
  · rw [live_replicate_null]
    rfl
  · rw [List.countP_replicate]
    rfl
  · have hlive : live (senSetOpen keySize valueSize initSize).index = [] :=
      live_replicate_null _
    rw [hlive]
    exact {
      entrySize_ge := entrySizeOf_ge h.entry
      chunk_le := Nat.zero_le _
      chunks := nofun
      later := fun _ _ _ => rfl
      boundary_lt := show 0 < 256 * 2 ^ 0 by decide
      started := fun hpos => absurd hpos (lt_irrefl _)
      fresh := fun hne => absurd rfl hne
      nodup := List.nodup_nil
      place := nofun
      freeList := rfl
      balance := rfl
      arr_lt := by
        rw [Nat.zero_mul]
        exact Nat.two_pow_pos 32 }

/-- `SEN_SET_INT_ADD` and the write through the pointer that it returns. -/
def SenSet.add (set : SenSet) (kv : List UInt8 × List UInt8) : Option SenSet :=
  (senSetIntAdd set kv.1).bind fun (set, p) => set.setValue p kv.2

/-- The map with the keys of an array added. -/
def KeyMap.addAll (M : KeyMap) (kvs : List (List UInt8 × List UInt8)) : KeyMap :=
  kvs.foldl (fun M kv => Function.update M kv.1 (some kv.2)) M

/-- An array for `size` entries, `j` of which were added. -/
structure SenSet.Adding (set : SenSet) (M : KeyMap) (V : List (Slot Entry)) (j size : Nat) :
    Prop where
  inv : set.Inv M V [] j
  keySize : set.keySize = 4
  array : set.arrayp = true
  curr : set.currEntry = j
  count : set.nEntries = j
  marks : set.nGarbages = 0
  chunk : set.chunks senSetMaxChunk = some (set.entrySize * size)
  fits : set.entrySize * size < 2 ^ 32
  room : size < set.maxOffset + 1
  clear : ∀ i, j ≤ i → set.cells ⟨senSetMaxChunk, i⟩ = .entry set.zeroEntry
  below : ∀ a ∈ live set.index, a.entry < j
  empty : ∀ p, j ≤ p → p < set.maxOffset + 1 → V[p]? = some .null

/-- A set that never had an entry: nothing was carved from its chunks. -/
theorem SenSet.Inv.unused {set : SenSet} {M : KeyMap} {V : List (Slot Entry)} {free : List Addr}
    {arr : Nat} (h : set.Inv M V free arr) (hcount : set.nEntries = 0)
    (hgarbages : set.garbages = none) :
    live set.index = [] ∧ live V = [] ∧ free = [] ∧ arr = 0 ∧ set.currChunk = 0 ∧
      set.boundary = 0 ∧ M = fun _ => none := by
  have hV : live V = [] := List.eq_nil_of_length_eq_zero (h.count.symm.trans hcount)
  have hindex : live set.index = [] :=
    List.eq_nil_of_length_eq_zero (h.views.counts.1.trans (by rw [hV]; rfl))
  obtain rfl : free = [] := by
    have hfree := h.storage.freeList
    rw [hgarbages] at hfree
    cases free with
    | nil => rfl
    | cons a L => exact nomatch hfree.1
  have hbalance := h.storage.balance
  rw [hindex] at hbalance
  have hbalance : 0 = 256 * (2 ^ set.currChunk - 1) + set.boundary + arr := hbalance
  have hpow : 2 ^ set.currChunk = 1 := by
    have hpos := Nat.two_pow_pos set.currChunk
    omega
  have hchunk : set.currChunk = 0 := by
    by_contra hne
    exact absurd hpow (Nat.one_lt_two_pow hne).ne'
  refine ⟨hindex, hV, rfl, by omega, hchunk, by omega, ?_⟩
  funext key
  apply h.map_eq_none.mpr
  rw [hV]
  exact nofun

/-- **`sen_set_array_init`.** A set that never had an entry becomes an empty array. -/
theorem SenSet.Inv.senSetArrayInit {set : SenSet} {M : KeyMap} {V : List (Slot Entry)}
    {free : List Addr} {arr : Nat} (h : set.Inv M V free arr) (hkeySize : set.keySize = 4)
    (hcount : set.nEntries = 0) (hgarbages : set.garbages = none) {size : Nat}
    (hfits : set.entrySize * size < 2 ^ 32) :
    ∃ set' V', Senna.Set.senSetArrayInit set size = some (.success, set') ∧
      set'.Adding M V' 0 size ∧ set'.serial = set.serial + 1 ∧ set'.Alike set := by
  obtain ⟨hindex, hV, rfl, rfl, hchunk, hboundary, -⟩ := h.unused hcount hgarbages
  have hsize : size < 2 ^ 29 := by
    have hmul := Nat.mul_le_mul_right size h.storage.entrySize_ge
    omega
  set pool : Pool := { set.toPool.calloc senSetMaxChunk (set.entrySize * size) with
    arrayp := true
    currEntry := 0 } with hpool
  have hs := h.storage
  have hinv : SenSet.Inv { set with toPool := pool } M V [] 0 := by
    refine { h with
      views := ?_
      hashed := nofun
      storage := ?_ }
    · apply h.views.congr
      rw [hindex]
      exact nofun
    · show Pool.Storage pool (live set.index) [] 0
      rw [hindex]
      refine { hs with
        chunks := fun c hc size hsize => hs.chunks c hc size ?_
        later := fun c hlt hc => ?_
        boundary_lt := Nat.mul_pos (by decide) (Nat.two_pow_pos _)
        started := fun hpos => absurd hpos (lt_irrefl _)
        fresh := fun hnot i _ => ?_
        nodup := List.nodup_nil
        place := nofun
        freeList := hgarbages
        balance := ?_ }
      · have hne : c ≠ senSetMaxChunk := by
          rintro rfl
          exact absurd hc (by decide)
        exact (Function.update_of_ne hne _ _).symm.trans hsize
      · have hne : c ≠ senSetMaxChunk := by
          rintro rfl
          exact absurd hc (by decide)
        exact (Function.update_of_ne hne _ _).trans (hs.later c hlt hc)
      · have hne : set.currChunk ≠ senSetMaxChunk := by
          rw [hchunk]
          decide
        have hold : set.chunks set.currChunk ≠ none := by
          intro hnone
          exact hnot ((Function.update_of_ne hne _ _).trans hnone)
        exact (if_neg hne).trans (hs.fresh hold i (by omega))
      · show 0 = 256 * (2 ^ set.currChunk - 1) + 0 + 0
        rw [hchunk]
        rfl
  have hn : (if size = 0 then set.nEntries * 2 % 2 ^ 32 else size) = size := by
    split_ifs with hzero
    · rw [hcount, hzero]
      rfl
    · rfl
  have hle : size ≤ 2 ^ 31 - 1 := by omega
  obtain ⟨k, -, -, -, hroom⟩ := indexSize_spec hle
  have hpos : set.nEntries < indexSize size := by
    rw [hcount]
    exact Nat.zero_lt_of_lt hroom
  obtain ⟨index', V', hrun, hinv', -⟩ := hinv.reset hn hle hpos
  obtain ⟨hindex', hV', -⟩ := hinv'.unused hcount hgarbages
  have hchunkSize : pool.chunks senSetMaxChunk = some (set.entrySize * size) := by
    show Function.update set.chunks senSetMaxChunk (some (set.entrySize * size)) senSetMaxChunk = _
    rw [Function.update_self]
  have hclear (i : Nat) : pool.cells ⟨senSetMaxChunk, i⟩ = .entry set.zeroEntry := by
    show (if senSetMaxChunk = senSetMaxChunk then Content.entry set.zeroEntry
      else set.cells ⟨senSetMaxChunk, i⟩) = _
    exact if_pos rfl
  refine ⟨_, V', ?_, {
    inv := hinv'
    keySize := hkeySize
    array := rfl
    curr := rfl
    count := hcount
    marks := rfl
    chunk := hchunkSize
    fits := hfits
    room := ?_
    clear := fun i _ => hclear i
    below := ?_
    empty := fun p _ hp => ?_ }, rfl, ⟨rfl, rfl, rfl⟩⟩
  · unfold Senna.Set.senSetArrayInit
    rw [if_pos ⟨hcount, hgarbages⟩, Nat.mod_eq_of_lt hfits]
    exact hrun
  · show size < indexSize size - 1 + 1
    omega
  · rw [hindex']
    exact nofun
  · have hlt : p < V'.length := hinv'.length ▸ hp
    rw [List.getElem?_eq_getElem hlt]
    cases hslot : V'[p] with
    | null => rfl
    | garbage =>
        have hmark : 0 = V'.countP Slot.isGarbage := hinv'.garbage
        have hmem : Slot.garbage ∈ V' := hslot ▸ List.getElem_mem hlt
        exact absurd hmark (List.countP_pos_iff.mpr ⟨_, hmem, rfl⟩).ne
    | entry e =>
        have hmem : e ∈ live V' := mem_live.mpr ⟨p, by rw [List.getElem?_eq_getElem hlt, hslot]⟩
        rw [hV'] at hmem
        exact nomatch hmem

/-- **`SEN_SET_INT_ADD`.** A new key is added while the array has room. -/
theorem SenSet.Adding.add {set : SenSet} {M : KeyMap} {V : List (Slot Entry)} {j size : Nat}
    (h : set.Adding M V j size) (hj : j < size) {key : List UInt8} (value : List UInt8)
    (hkey : key.length = 4) (hnew : M key = none) :
    ∃ set' V', set.add (key, value) = some set' ∧
      set'.Adding (Function.update M key (some value)) V' (j + 1) size ∧
      set'.serial = set.serial ∧ set'.Alike set := by
  have hinv := h.inv
  have hplace : set.entrySize * j + set.entrySize ≤ set.entrySize * size := by
    rw [← Nat.mul_succ]
    exact Nat.mul_le_mul_left _ hj
  have hfits := h.fits
  have hentry : set.toPool.entryAt senSetMaxChunk set.currEntry = some ⟨senSetMaxChunk, j⟩ := by
    rw [h.curr, Pool.entryAt, h.chunk, Option.bind_some, Nat.mod_eq_of_lt (by omega), if_pos hplace]
  have hnot : (⟨senSetMaxChunk, j⟩ : Addr) ∉ live set.index :=
    fun hmem => lt_irrefl _ (h.below _ hmem)
  have hroom := h.room
  have hnull : V[j]? = some .null := h.empty j le_rfl (by omega)
  have hslot : set.index[j]? = some .null := hinv.views.null hnull
  set e : Entry := { set.zeroEntry with key := intKey key, value := value } with he
  have hkeyOf : keyOf set.keySize e = key := by
    rw [h.keySize]
    exact le32_intKey hkey
  have hok : e.Ok set.keySize := by
    refine ⟨?_, ?_⟩
    · rw [hkeyOf, h.keySize]
      exact (if_neg (by decide)).mpr hkey
    · rw [hkeyOf, h.keySize]
      rfl
  set pool : Pool := { set.toPool with currEntry := set.currEntry + 1 } with hpool
  have hboundary : set.boundary = 0 := if_pos h.array
  have hcells : ∀ b ∈ live set.index, pool.cells b = set.cells b := fun _ _ => rfl
  have hchunk : set.currChunk ≠ senSetMaxChunk := by
    have hle := hinv.storage.chunk_le
    unfold senSetMaxChunk
    omega
  have hstorage : Pool.Storage { pool with
      cells := Function.update pool.cells ⟨senSetMaxChunk, j⟩ (.entry e) }
      (⟨senSetMaxChunk, j⟩ :: live set.index) [] (j + 1) := by
    have hs := hinv.storage
    have hbalance := hs.balance
    have hlt : (j + 1) * set.entrySize < 2 ^ 32 := by
      rw [Nat.succ_mul, Nat.mul_comm]
      omega
    refine { hs with
      boundary_lt := by
        show (if set.arrayp then 0 else set.currEntry + 1) < 256 * 2 ^ set.currChunk
        rw [if_pos h.array]
        exact Nat.mul_pos (by decide) (Nat.two_pow_pos _)
      started := fun hpos => absurd hpos (by
        show ¬ 0 < (if set.arrayp then 0 else set.currEntry + 1)
        rw [if_pos h.array]
        exact lt_irrefl _)
      fresh := fun hne i _ => ?_
      nodup := ?_
      place := fun a ha => ?_
      freeList := hs.freeList.congr fun _ hb => absurd hb List.not_mem_nil
      balance := ?_
      arr_lt := hlt }
    · have hother : (⟨set.currChunk, i⟩ : Addr) ≠ ⟨senSetMaxChunk, j⟩ := by
        intro heq
        exact hchunk (congrArg Addr.chunk heq)
      exact (Function.update_of_ne hother _ _).trans (hs.fresh hne i (by omega))
    · have hnodup := hs.nodup
      rw [List.append_nil] at hnodup ⊢
      exact List.nodup_cons.mpr ⟨hnot, hnodup⟩
    · rw [List.append_nil] at ha
      rcases List.mem_cons.mp ha with rfl | hmem
      · exact Or.inr (Or.inr rfl)
      · rcases hs.place a (List.mem_append_left _ hmem) with hlt | ⟨-, hlt⟩ | hmax
        · exact Or.inl hlt
        · rw [hboundary] at hlt
          exact absurd hlt (Nat.not_lt_zero _)
        · exact Or.inr (Or.inr hmax)
    · show (live set.index).length + 1 + 0 =
        256 * (2 ^ set.currChunk - 1) + (if set.arrayp then 0 else set.currEntry + 1) + (j + 1)
      rw [if_pos h.array]
      rw [hboundary, List.length_nil] at hbalance
      omega
  have hgarbage : set.nGarbages =
      set.nGarbages - if (Slot.null : Slot Entry).isGarbage then 1 else 0 :=
    rfl
  have hfull : set.nEntries + set.nGarbages + 1 < set.maxOffset + 1 := by
    rw [h.count, h.marks]
    omega
  have hresult := hinv.insert hnull rfl hnew hok hkeyOf
    (fun hfalse => Bool.noConfusion (h.array.symm.trans hfalse)) hnot hcells hstorage rfl hgarbage
        hfull
  refine ⟨_, _, ?_, {
    inv := hresult
    keySize := h.keySize
    array := h.array
    curr := congrArg (· + 1) h.curr
    count := congrArg (· + 1) h.count
    marks := h.marks
    chunk := h.chunk
    fits := h.fits
    room := h.room
    clear := fun i hi => ?_
    below := fun a ha => ?_
    empty := fun p hp hlt => ?_ }, rfl, ⟨rfl, rfl, rfl⟩⟩
  · have hself : (set.index.set j (.entry (⟨senSetMaxChunk, j⟩ : Addr)))[j]? =
        some (.entry ⟨senSetMaxChunk, j⟩) :=
      List.getElem?_set_self (List.getElem?_eq_some_iff.mp hslot).1
    have hcell := h.clear j le_rfl
    rw [SenSet.add, senSetIntAdd, hentry, Option.bind_some]
    simp only [h.count, hslot, hcell, Option.bind_some, SenSet.setValue, hself,
      Function.update_self, Function.update_idem]
    rfl
  · have hother : (⟨senSetMaxChunk, i⟩ : Addr) ≠ ⟨senSetMaxChunk, j⟩ := by
      intro heq
      have hij : i = j := congrArg Addr.entry heq
      omega
    exact (Function.update_of_ne hother _ _).trans (h.clear i (by omega))
  · have hperm := live_insert hslot rfl (⟨senSetMaxChunk, j⟩ : Addr)
    rcases List.mem_cons.mp (hperm.mem_iff.mp ha) with rfl | hmem
    · exact Nat.lt_succ_self _
    · exact Nat.lt_succ_of_lt (h.below a hmem)
  · rw [List.getElem?_set_ne (by omega)]
    exact h.empty p (by omega) hlt

/-- An array takes distinct keys up to the declared size. -/
theorem SenSet.Adding.addAll {kvs : List (List UInt8 × List UInt8)} {set : SenSet} {M : KeyMap}
    {V : List (Slot Entry)} {j size : Nat} (h : set.Adding M V j size)
    (hlen : j + kvs.length ≤ size) (hkeys : ∀ kv ∈ kvs, kv.1.length = 4)
    (hnodup : (kvs.map Prod.fst).Nodup) (hnew : ∀ kv ∈ kvs, M kv.1 = none) :
    ∃ set' V', kvs.foldlM SenSet.add set = some set' ∧
      set'.Adding (M.addAll kvs) V' (j + kvs.length) size ∧ set'.serial = set.serial ∧
      set'.Alike set := by
  induction kvs generalizing set M V j with
  | nil => exact ⟨set, V, rfl, h, rfl, .refl set⟩
  | cons kv kvs ih =>
      rw [List.length_cons] at hlen
      rw [List.map_cons, List.nodup_cons] at hnodup
      obtain ⟨set₁, V₁, hadd, h₁, hserial₁, halike₁⟩ := h.add (by omega) kv.2
        (hkeys kv List.mem_cons_self) (hnew kv List.mem_cons_self)
      have hnew₁ : ∀ kv' ∈ kvs, Function.update M kv.1 (some kv.2) kv'.1 = none := by
        intro kv' hmem
        have hne : kv'.1 ≠ kv.1 := by
          intro heq
          exact hnodup.1 (heq ▸ List.mem_map_of_mem hmem)
        rw [Function.update_of_ne hne]
        exact hnew kv' (List.mem_cons_of_mem _ hmem)
      obtain ⟨set', V', hrun, h', hserial', halike'⟩ := ih h₁ (by omega)
        (fun kv' hmem => hkeys kv' (List.mem_cons_of_mem _ hmem)) hnodup.2 hnew₁
      refine ⟨set', V', ?_, ?_, hserial'.trans hserial₁, halike'.trans halike₁⟩
      · rw [List.foldlM_cons, hadd]
        exact hrun
      · have hcount : j + (kv :: kvs).length = j + 1 + kvs.length := by
          rw [List.length_cons]
          omega
        rw [hcount]
        exact h'

/-- The key in a slot. -/
def SenSet.keyAt (set : SenSet) (p : Nat) : Option (List UInt8) :=
  match set.index[p]? with
  | some (.entry a) =>
      match set.cells a with
      | .entry e => some (keyOf set.keySize e)
      | .link _ => none
  | _ => none

theorem SenSet.keyAt_eq_some {set : SenSet} {p : Nat} {key : List UInt8} :
    set.keyAt p = some key ↔ ∃ v, set.Finds p key v := by
  constructor
  · intro h
    unfold SenSet.keyAt at h
    split at h
    · rename_i a ha
      split at h
      · rename_i e he
        exact ⟨e.value, a, e, ha, he, Option.some.inj h, rfl⟩
      · exact nomatch h
    · exact nomatch h
  · rintro ⟨v, a, e, ha, he, rfl, -⟩
    unfold SenSet.keyAt
    simp only [ha, he]

/-- What a caller does with a set. A slot is named by its number in the index. -/
inductive SetOp
  | at (key : List UInt8)
  | get (key : List UInt8)
  | write (p : Nat) (value : List UInt8)
  | del (p : Nat)
  | reset (ne : Nat)
  | array (size : Nat) (kvs : List (List UInt8 × List UInt8))

/-- The set after an operation. -/
def SetOp.exec (set : SenSet) : SetOp → Option SenSet
  | .at key => (senSetAt set key).map Prod.fst
  | .get key => (senSetGet set key).map Prod.fst
  | .write p value => set.setValue p value
  | .del p => (senSetDel set p).map Prod.snd
  | .reset ne => (senSetReset set ne).map Prod.snd
  | .array size kvs =>
      (senSetArrayInit set size).bind fun (rc, set) =>
        if rc = .success then kvs.foldlM SenSet.add set else none

/-- The map after an operation. -/
def SetOp.after (set : SenSet) (M : KeyMap) : SetOp → KeyMap
  | .at _ => M
  | .get key => Function.update M key (some ((M key).getD (List.replicate set.valueSize 0)))
  | .write p value =>
      match set.keyAt p with
      | some key => Function.update M key (some value)
      | none => M
  | .del p =>
      match set.keyAt p with
      | some key => Function.update M key none
      | none => M
  | .reset _ => M
  | .array _ kvs => M.addAll kvs

/-- The condition of an operation: keys of the set's class and slots with entries; for a key that
is new, a next chunk whose size fits into a word; a new index with room for the entries; and for an
array a chunk whose size fits into a word and distinct words up to the declared size, in a set
without entries. -/
def SetOp.Meets (set : SenSet) : SetOp → Prop
  | .at key => KeyOk set.keySize key
  | .get key => KeyOk set.keySize key ∧ ((∀ p, set.keyAt p ≠ some key) → set.toPool.Fits)
  | .write p value => set.keyAt p ≠ none ∧ value.length = set.valueSize
  | .del p => set.keyAt p ≠ none
  | .reset ne => ne ≠ 0 → ne ≤ 2 ^ 31 - 1 → set.nEntries < indexSize ne
  | .array size kvs =>
      set.keySize = 4 ∧ set.nEntries = 0 ∧ set.garbages = none ∧
        set.entrySize * size < 2 ^ 32 ∧ kvs.length ≤ size ∧ (kvs.map Prod.fst).Nodup ∧
        ∀ kv ∈ kvs, kv.1.length = 4 ∧ kv.2.length = set.valueSize

/-- Of the keys whose presence did not change, none changed its slot. -/
def SenSet.Keeps (set : SenSet) (M : KeyMap) (set' : SenSet) (M' : KeyMap) : Prop :=
  ∀ k, (M k).isSome = (M' k).isSome → ∀ p, set'.keyAt p = some k ↔ set.keyAt p = some k

section

variable {set set' : SenSet} {M M' : KeyMap} {V V' : List (Slot Entry)} {free free' : List Addr}
  {arr arr' : Nat}

/-- Keys that stay where they are, apart from one whose presence changes. -/
theorem SenSet.Keeps.of_finds {key : List UInt8}
    (hothers : ∀ q k v, k ≠ key → (set'.Finds q k v ↔ set.Finds q k v))
    (hkey : (M key).isSome = (M' key).isSome →
      ∀ p, set'.keyAt p = some key ↔ set.keyAt p = some key) :
    set.Keeps M set' M' := by
  intro k hk p
  by_cases heq : k = key
  · subst heq
    exact hkey hk p
  · rw [SenSet.keyAt_eq_some, SenSet.keyAt_eq_some]
    exact exists_congr fun v => hothers p k v heq

/-- A key is in the map when it is in a slot. -/
theorem SenSet.Inv.isSome_iff (h : set.Inv M V free arr) {key : List UInt8} :
    (M key).isSome ↔ ∃ p, set.keyAt p = some key := by
  rw [Option.isSome_iff_exists]
  constructor
  · rintro ⟨v, hv⟩
    obtain ⟨p, hp⟩ := h.map_iff_finds.mp hv
    exact ⟨p, SenSet.keyAt_eq_some.mpr ⟨v, hp⟩⟩
  · rintro ⟨p, hp⟩
    obtain ⟨v, hv⟩ := SenSet.keyAt_eq_some.mp hp
    exact ⟨v, h.map_iff_finds.mpr ⟨p, hv⟩⟩

/-- A key is in one slot. -/
theorem SenSet.Inv.keyAt_inj (h : set.Inv M V free arr) {p p' : Nat} {key : List UInt8}
    (hp : set.keyAt p = some key) (hp' : set.keyAt p' = some key) : p = p' := by
  obtain ⟨v, hv⟩ := SenSet.keyAt_eq_some.mp hp
  obtain ⟨v', hv'⟩ := SenSet.keyAt_eq_some.mp hp'
  exact h.finds_inj hv hv'

/-- **One operation.** It returns, the set stands for the map that the operation describes, and
while the index is the same, no other key changed its slot. -/
theorem SenSet.Inv.exec (h : set.Inv M V free arr) {op : SetOp} (hop : op.Meets set) :
    ∃ set' V' free' arr', op.exec set = some set' ∧
      set'.Inv (op.after set M) V' free' arr' ∧ set'.Alike set ∧
      (set'.serial = set.serial → set.Keeps M set' (op.after set M)) := by
  cases op with
  | «at» key =>
      obtain ⟨set', r, V', hrun, hinv, halike, hsame, -, -⟩ := h.senSetAt hop
      refine ⟨set', V', free, arr, ?_, hinv, halike, fun heq k _ p => by rw [hsame heq]⟩
      rw [SetOp.exec, hrun, Option.map_some]
  | get key =>
      have hfits : M key = none → set.toPool.Fits := by
        intro hnone
        refine hop.2 fun p hp => ?_
        obtain ⟨v, hfinds⟩ := SenSet.keyAt_eq_some.mp hp
        exact absurd ((h.map_iff_finds.mpr ⟨p, hfinds⟩).symm.trans hnone) nofun
      obtain ⟨set', p, V', free', hrun, hinv, halike, hfinds, hkeeps, -⟩ := h.senSetGet hfits hop.1
      refine ⟨set', V', free', arr, ?_, hinv, halike, fun heq => ?_⟩
      · rw [SetOp.exec, hrun, Option.map_some]
      · obtain ⟨hothers, hsame⟩ := hkeeps heq
        apply SenSet.Keeps.of_finds hothers
        intro hsome q
        have hlive : M key ≠ none := by
          have hafter : (SetOp.after set M (.get key)) key =
              some ((M key).getD (List.replicate set.valueSize 0)) := Function.update_self _ _ _
          rw [hafter] at hsome
          exact Option.isSome_iff_ne_none.mp hsome
        rw [hsame hlive]
  | write p value =>
      obtain ⟨key, hkey⟩ := Option.ne_none_iff_exists'.mp hop.1
      obtain ⟨v, hfinds⟩ := SenSet.keyAt_eq_some.mp hkey
      obtain ⟨set', V', hrun, hinv, halike, hserial, hfinds', hothers⟩ := h.setValue hfinds value
      have hafter : SetOp.after set M (.write p value) = Function.update M key (some value) := by
        rw [SetOp.after, hkey]
      rw [hafter]
      refine ⟨set', V', free, arr, hrun, hinv, halike, fun _ => ?_⟩
      apply SenSet.Keeps.of_finds hothers
      intro _ q
      have hkey' := SenSet.keyAt_eq_some.mpr ⟨value, hfinds'⟩
      constructor
      · intro hq
        rw [hinv.keyAt_inj hq hkey', hkey]
      · intro hq
        rw [h.keyAt_inj hq hkey, hkey']
  | del p =>
      obtain ⟨key, hkey⟩ := Option.ne_none_iff_exists'.mp hop
      obtain ⟨v, hfinds⟩ := SenSet.keyAt_eq_some.mp hkey
      obtain ⟨set', V', free', hrun, hinv, halike, hserial, hothers⟩ := h.senSetDel hfinds
      have hafter : SetOp.after set M (.del p) = Function.update M key none := by
        rw [SetOp.after, hkey]
      rw [hafter]
      refine ⟨set', V', free', arr, ?_, hinv, halike, fun _ => ?_⟩
      · rw [SetOp.exec, hrun, Option.map_some]
      · apply SenSet.Keeps.of_finds hothers
        intro hsome
        rw [Function.update_self, h.map_iff_finds.mpr ⟨p, hfinds⟩] at hsome
        exact nomatch hsome
  | reset ne =>
      by_cases hzero : ne = 0
      · subst hzero
        obtain ⟨index', V', hrun, hinv, -⟩ := h.reset_zero
        refine ⟨_, V', free, arr, ?_, hinv, ⟨rfl, rfl, rfl⟩, fun heq =>
            absurd heq (Nat.succ_ne_self _)⟩
        rw [SetOp.exec, hrun, Option.map_some]
      · by_cases hle : ne ≤ 2 ^ 31 - 1
        · obtain ⟨index', V', hrun, hinv, -⟩ := h.reset (if_neg hzero) hle (hop hzero hle)
          refine ⟨_, V', free, arr, ?_, hinv, ⟨rfl, rfl, rfl⟩, fun heq =>
              absurd heq (Nat.succ_ne_self _)⟩
          rw [SetOp.exec, hrun, Option.map_some]
        · refine ⟨set, V, free, arr, ?_, h, .refl set, fun _ _ _ _ => Iff.rfl⟩
          rw [SetOp.exec, Senna.Set.senSetReset]
          simp only [if_neg hzero]
          rw [if_pos (not_le.mp hle), Option.map_some]
  | array size kvs =>
      obtain ⟨hkeySize, hcount, hgarbages, hfits, hlen, hnodup, hkeys⟩ := hop
      obtain ⟨set₁, V₁, hinit, hadding, hserial₁, halike₁⟩ :=
        h.senSetArrayInit hkeySize hcount hgarbages hfits
      obtain ⟨-, -, -, -, -, -, hM⟩ := h.unused hcount hgarbages
      obtain ⟨set', V', hrun, hadding', hserial', halike'⟩ := hadding.addAll (by omega)
        (fun kv hkv => (hkeys kv hkv).1) hnodup (fun kv _ => congrFun hM kv.1)
      refine ⟨set', V', [], _, ?_, hadding'.inv, halike'.trans halike₁, fun heq => ?_⟩
      · rw [SetOp.exec, hinit]
        exact hrun
      · omega

end

/-- The states of a set that was opened with these sizes, and the map it stands for. -/
inductive Runs (keySize valueSize initSize : Nat) : SenSet → KeyMap → Prop
  | opened : Runs keySize valueSize initSize (senSetOpen keySize valueSize initSize) (fun _ => none)
  | step {set set' : SenSet} {M : KeyMap} {op : SetOp} (h : Runs keySize valueSize initSize set M)
      (hop : op.Meets set) (hexec : op.exec set = some set') :
      Runs keySize valueSize initSize set' (op.after set M)

/-- The invariant holds in every run. -/
theorem Runs.inv {keySize valueSize initSize : Nat} (hsizes : Sizes keySize valueSize initSize)
    {set : SenSet} {M : KeyMap} (h : Runs keySize valueSize initSize set M) :
    ∃ V free arr, set.Inv M V free arr ∧ set.keySize = keySize := by
  induction h with
  | opened =>
      obtain ⟨V, hV⟩ := senSetOpen_inv hsizes
      exact ⟨V, [], 0, hV, rfl⟩
  | step _ hop hexec ih =>
      obtain ⟨V, free, arr, hinv, hkeySize⟩ := ih
      obtain ⟨set₁, V', free', arr', hrun, hinv', halike, -⟩ := hinv.exec hop
      obtain rfl := Option.some.inj (hrun.symm.trans hexec)
      exact ⟨V', free', arr', hinv', halike.keySize.trans hkeySize⟩

/-- A cursor that was opened on `set₀`, which stood for `M₀`: the state it is used in, the keys
that it returned so far, and the keys that were inserted or deleted meanwhile. The slot that
the cursor returned last may be deleted without counting among these. -/
inductive Iter (set₀ : SenSet) (M₀ : KeyMap) :
    SenSet → KeyMap → SetCursor → List (List UInt8) → (List UInt8 → Prop) → Prop
  | opened : Iter set₀ M₀ set₀ M₀ (senSetCursorOpen set₀) [] (fun _ => False)
  | next {set : SenSet} {M : KeyMap} {c c' : SetCursor} {ys : List (List UInt8)}
      {T : List UInt8 → Prop} {p : Nat} {key : List UInt8} (h : Iter set₀ M₀ set M c ys T)
      (hnext : senSetCursorNext set c = (c', some p)) (hkey : set.keyAt p = some key) :
      Iter set₀ M₀ set M c' (ys ++ [key]) T
  | delete {set set' : SenSet} {M : KeyMap} {c : SetCursor} {ys : List (List UInt8)}
      {T : List UInt8 → Prop} {p : Nat} (h : Iter set₀ M₀ set M c ys T) (hlast : p + 1 = c.curr)
      (hop : (SetOp.del p).Meets set) (hexec : (SetOp.del p).exec set = some set') :
      Iter set₀ M₀ set' ((SetOp.del p).after set M) c ys T
  | other {set set' : SenSet} {M : KeyMap} {c : SetCursor} {ys : List (List UInt8)}
      {T : List UInt8 → Prop} {op : SetOp} (h : Iter set₀ M₀ set M c ys T) (hop : op.Meets set)
      (hexec : op.exec set = some set') (hserial : set'.serial = set.serial) :
      Iter set₀ M₀ set' (op.after set M) c ys
        (fun k => T k ∨ (M k).isSome ≠ (op.after set M k).isSome)

section

universe u

variable {ε : Type u} {index : List (Slot ε)} {i ep : Nat}

/-- At the end of the index no entry was left. -/
theorem cursorNext_none (h : cursorNext index i ep = none) {q : Nat} {e : ε} (hle : ep ≤ q)
    (hlt : q < ep + i) : index[q]? ≠ some (.entry e) := by
  induction i generalizing ep with
  | zero => omega
  | succ i ih =>
      rw [cursorNext] at h
      split at h
      · exact nomatch h
      · rename_i hslot
        rcases Nat.lt_or_eq_of_le hle with hlt' | rfl
        · exact ih h hlt' (by omega)
        · exact hslot e

/-- The next entry is the first one from `ep` on. -/
theorem cursorNext_some {p r : Nat} (h : cursorNext index i ep = some (p, r)) :
    ep ≤ p ∧ p + 1 + r = ep + i ∧ (∃ e, index[p]? = some (.entry e)) ∧
      ∀ q e, ep ≤ q → q < p → index[q]? ≠ some (.entry e) := by
  induction i generalizing ep with
  | zero => exact nomatch h
  | succ i ih =>
      rw [cursorNext] at h
      split at h
      · rename_i e hslot
        obtain ⟨rfl, rfl⟩ : ep = p ∧ i = r := by simpa using h
        exact ⟨le_rfl, by omega, ⟨e, hslot⟩, fun q e hle hlt => by omega⟩
      · rename_i hslot
        obtain ⟨hle, hsum, hentry, hbefore⟩ := ih h
        refine ⟨by omega, by omega, hentry, fun q e hq hlt => ?_⟩
        rcases Nat.lt_or_eq_of_le hq with hlt' | rfl
        · exact hbefore q e hlt' hlt
        · exact hslot e

end

/-- A slot with a key holds an entry. -/
theorem SenSet.index_of_keyAt {set : SenSet} {p : Nat} {key : List UInt8}
    (h : set.keyAt p = some key) : ∃ a, set.index[p]? = some (.entry a) := by
  obtain ⟨v, a, e, ha, -⟩ := SenSet.keyAt_eq_some.mp h
  exact ⟨a, ha⟩

/-- The key is in a slot that the cursor still comes to. -/
def SetCursor.Pending (c : SetCursor) (set : SenSet) (key : List UInt8) : Prop :=
  ∃ q, c.curr ≤ q ∧ q < c.curr + c.rest ∧ set.keyAt q = some key

/-- The key is in no slot that the cursor still comes to. -/
def SetCursor.Passed (c : SetCursor) (set : SenSet) (key : List UInt8) : Prop :=
  ∀ q, set.keyAt q = some key → c.rest = 0 ∨ q < c.curr

/-- How often a key was returned that was not inserted or deleted meanwhile. -/
def SetCursor.Returned (c : SetCursor) (set : SenSet) (ys : List (List UInt8)) (key : List UInt8)
    (live : Bool) : Prop :=
  if live then (ys.count key = 0 ∧ c.Pending set key) ∨ (ys.count key = 1 ∧ c.Passed set key)
  else ys.count key = 0 ∧ ∀ q, set.keyAt q ≠ some key

/-- A cursor on the present index goes on behind the slot that it returns. -/
theorem senSetCursorNext_some {set : SenSet} {c c' : SetCursor} {p : Nat}
    (h : senSetCursorNext set c = (c', some p)) :
    ∃ r, cursorNext set.index c.rest c.curr = some (p, r) ∧
      c' = { c with curr := p + 1, rest := r } := by
  unfold senSetCursorNext at h
  split_ifs at h
  · exact nomatch h
  · exact nomatch h
  · split at h
    · exact nomatch h
    · rename_i ep r hnext
      obtain ⟨rfl, hp⟩ := Prod.mk.inj h
      obtain rfl := Option.some.inj hp
      exact ⟨r, hnext, rfl⟩

/-- At its end a cursor on the present index has passed every key. -/
theorem senSetCursorNext_none {set : SenSet} {c c' : SetCursor} (hserial : c.serial = set.serial)
    (h : senSetCursorNext set c = (c', none)) (key : List UInt8) : ¬ c.Pending set key := by
  rintro ⟨q, hle, hlt, hkey⟩
  obtain ⟨a, ha⟩ := SenSet.index_of_keyAt hkey
  unfold senSetCursorNext at h
  rw [if_neg (by omega), if_neg (not_not.mpr hserial)] at h
  split at h
  · rename_i hnone
    exact cursorNext_none hnone hle hlt ha
  · exact nomatch h

section

variable {set set' : SenSet} {M : KeyMap} {V : List (Slot Entry)} {free : List Addr} {arr : Nat}
  {c c' : SetCursor} {ys : List (List UInt8)} {key k : List UInt8} {live : Bool} {p : Nat}

/-- The cursor returns a key: it was in a slot to come, and no longer is. -/
theorem SetCursor.Returned.next (h : c.Returned set ys k live) (hinv : set.Inv M V free arr)
    (hnext : senSetCursorNext set c = (c', some p)) (hkey : set.keyAt p = some key) :
    c'.Returned set (ys ++ [key]) k live := by
  obtain ⟨r, hslot, rfl⟩ := senSetCursorNext_some hnext
  obtain ⟨hle, hsum, -, hbefore⟩ := cursorNext_some hslot
  unfold SetCursor.Returned at h ⊢
  by_cases hk : k = key
  · subst hk
    rw [List.count_append, List.count_singleton_self]
    split_ifs at h ⊢ with hlive
    · rcases h with ⟨hcount, -⟩ | ⟨-, hpassed⟩
      · refine Or.inr ⟨by omega, fun q hq => Or.inr ?_⟩
        rw [hinv.keyAt_inj hq hkey]
        exact Nat.lt_succ_self p
      · rcases hpassed p hkey with hzero | hlt
        · rw [hzero] at hslot
          exact nomatch hslot
        · omega
    · exact absurd hkey (h.2 p)
  · have hcount : (ys ++ [key]).count k = ys.count k := by
      rw [List.count_append, List.count_singleton, beq_false_of_ne (Ne.symm hk)]
      rfl
    rw [hcount]
    split_ifs at h ⊢ with hlive
    · rcases h with ⟨hzero, q, hq, hlt, hkq⟩ | ⟨hone, hpassed⟩
      · refine Or.inl ⟨hzero, q, ?_, ?_, hkq⟩
        · show p + 1 ≤ q
          obtain ⟨a, ha⟩ := SenSet.index_of_keyAt hkq
          by_contra hge
          rcases Nat.lt_or_eq_of_le (Nat.le_of_lt_succ (not_le.mp hge)) with hlt' | rfl
          · exact hbefore q a hq hlt' ha
          · exact hk (Option.some.inj (hkq.symm.trans hkey))
        · show q < p + 1 + r
          omega
      · refine Or.inr ⟨hone, fun q hq => ?_⟩
        rcases hpassed q hq with hzero | hlt
        · rw [hzero] at hslot
          exact nomatch hslot
        · refine Or.inr ?_
          show q < p + 1
          omega
    · exact h

/-- Keys that keep their slots are returned as before. -/
theorem SetCursor.Returned.congr (h : c.Returned set ys k live)
    (hkeep : ∀ q, set'.keyAt q = some k ↔ set.keyAt q = some k) : c.Returned set' ys k live := by
  unfold SetCursor.Returned SetCursor.Pending SetCursor.Passed at h ⊢
  simpa only [hkeep, ne_eq] using h

/-- The deletion of the key that was returned last. -/
theorem SetCursor.Returned.delete (h : c.Returned set ys key live) (hinv : set.Inv M V free arr)
    (hkey : set.keyAt p = some key) (hlast : p + 1 = c.curr)
    (hgone : ∀ q, set'.keyAt q ≠ some key) : c.Returned set' ys key live := by
  unfold SetCursor.Returned at h ⊢
  split_ifs at h ⊢ with hlive
  · rcases h with ⟨-, q, hle, -, hq⟩ | ⟨hone, -⟩
    · have hsame := hinv.keyAt_inj hq hkey
      omega
    · exact Or.inr ⟨hone, fun q hq => absurd hq (hgone q)⟩
  · exact absurd hkey (h.2 p)

end

/-- What a cursor returned so far. -/
theorem Iter.returned {set₀ set : SenSet} {M₀ M : KeyMap} {c : SetCursor}
    {ys : List (List UInt8)} {T : List UInt8 → Prop} (h : Iter set₀ M₀ set M c ys T)
    (h₀ : ∃ V free arr, set₀.Inv M₀ V free arr) :
    (∃ V free arr, set.Inv M V free arr) ∧ c.serial = set.serial ∧
      ∀ k, ¬ T k → c.Returned set ys k (M₀ k).isSome := by
  induction h with
  | opened =>
      refine ⟨h₀, rfl, fun k _ => ?_⟩
      obtain ⟨V, free, arr, hinv⟩ := h₀
      unfold SetCursor.Returned
      split_ifs with hlive
      · obtain ⟨p, hp⟩ := hinv.isSome_iff.mp hlive
        obtain ⟨a, ha⟩ := SenSet.index_of_keyAt hp
        have hlt := (List.getElem?_eq_some_iff.mp ha).1
        rw [hinv.views.length_eq, hinv.length] at hlt
        exact Or.inl ⟨rfl, p, Nat.zero_le _, by
          show p < 0 + (set₀.maxOffset + 1)
          omega, hp⟩
      · exact ⟨rfl, fun q hq => hlive (hinv.isSome_iff.mpr ⟨q, hq⟩)⟩
  | next h hnext hkey ih =>
      obtain ⟨⟨V, free, arr, hinv⟩, hserial, hreturned⟩ := ih
      obtain ⟨r, -, hc⟩ := senSetCursorNext_some hnext
      refine ⟨⟨V, free, arr, hinv⟩, ?_, fun k hk => (hreturned k hk).next hinv hnext hkey⟩
      rw [hc]
      exact hserial
  | @delete set set' M c ys T p h hlast hop hexec ih =>
      obtain ⟨⟨V, free, arr, hinv⟩, hserial, hreturned⟩ := ih
      obtain ⟨key, hkey⟩ := Option.ne_none_iff_exists'.mp hop
      obtain ⟨v, hfinds⟩ := SenSet.keyAt_eq_some.mp hkey
      obtain ⟨set₁, V', free', hrun, hinv', -, hserial', hothers⟩ := hinv.senSetDel hfinds
      rw [SetOp.exec, hrun, Option.map_some] at hexec
      obtain rfl := Option.some.inj hexec
      have hafter : SetOp.after set M (.del p) = Function.update M key none := by
        rw [SetOp.after, hkey]
      rw [hafter]
      refine ⟨⟨V', free', arr, hinv'⟩, hserial.trans hserial'.symm, fun k hk => ?_⟩
      by_cases heq : k = key
      · subst heq
        apply (hreturned k hk).delete hinv hkey hlast
        intro q hq
        have hsome := hinv'.isSome_iff.mpr ⟨q, hq⟩
        rw [Function.update_self] at hsome
        exact nomatch hsome
      · apply (hreturned k hk).congr
        intro q
        rw [SenSet.keyAt_eq_some, SenSet.keyAt_eq_some]
        exact exists_congr fun v => hothers q k v heq
  | other h hop hexec hserial ih =>
      obtain ⟨⟨V, free, arr, hinv⟩, hserial', hreturned⟩ := ih
      obtain ⟨set₁, V', free', arr', hrun, hinv', -, hkeeps⟩ := hinv.exec hop
      obtain rfl := Option.some.inj (hrun.symm.trans hexec)
      refine ⟨⟨V', free', arr', hinv'⟩, hserial'.trans hserial.symm, fun k hk => ?_⟩
      rw [not_or, not_not] at hk
      exact (hreturned k hk.1).congr (hkeeps hserial k hk.2)

/-- **Every key once.** When a cursor ends, it has returned every key that it was opened with
exactly once, and no other, apart from keys that were inserted or deleted meanwhile. -/
theorem Iter.count {set₀ set : SenSet} {M₀ M : KeyMap} {c c' : SetCursor}
    {ys : List (List UInt8)} {T : List UInt8 → Prop} (h : Iter set₀ M₀ set M c ys T)
    (h₀ : ∃ V free arr, set₀.Inv M₀ V free arr) (hend : senSetCursorNext set c = (c', none))
    {k : List UInt8} (hk : ¬ T k) : ys.count k = if (M₀ k).isSome then 1 else 0 := by
  obtain ⟨-, hserial, hreturned⟩ := h.returned h₀
  have hlast := hreturned k hk
  unfold SetCursor.Returned at hlast
  split_ifs at hlast ⊢ with hlive
  · rcases hlast with ⟨-, hpending⟩ | ⟨hone, -⟩
    · exact absurd hpending (senSetCursorNext_none hserial hend k)
    · exact hone
  · exact hlast.1

/-- What a look-up finds: exactly the keys of the map, each with its value. -/
def SenSet.LooksUp (set : SenSet) (M : KeyMap) : Prop :=
  ∀ key, KeyOk set.keySize key → ∃ set' r, senSetAt set key = some (set', r) ∧
    (M key = none → r = none) ∧ ∀ v, M key = some v → ∃ p, r = some p ∧ set'.Finds p key v

/-- The number of entries is that of the keys of the map. -/
def SenSet.Counts (set : SenSet) (M : KeyMap) : Prop :=
  ∃ keys : List (List UInt8), keys.Nodup ∧ (∀ k, k ∈ keys ↔ (M k).isSome) ∧
    set.nEntries = keys.length

theorem SenSet.Inv.counts {set : SenSet} {M : KeyMap} {V : List (Slot Entry)} {free : List Addr}
    {arr : Nat} (h : set.Inv M V free arr) : set.Counts M := by
  refine ⟨(live V).map (keyOf set.keySize), h.distinct.nodup, fun k => ?_, ?_⟩
  · rw [List.mem_map, Option.isSome_iff_exists]
    constructor
    · rintro ⟨e, he, rfl⟩
      exact ⟨e.value, h.map_of_mem he⟩
    · rintro ⟨v, hv⟩
      obtain ⟨e, he, hkey, -⟩ := (h.map k v).mp hv
      exact ⟨e, he, hkey⟩
  · rw [List.length_map]
    exact h.count

/-- No two slots hold the same entry. -/
def SenSet.Unshared (set : SenSet) : Prop :=
  ∀ (p q : Nat) (a : Addr), set.index[p]? = some (.entry a) → set.index[q]? = some (.entry a) →
    p = q

/-- **A hash set is a finite map.** In every run whose steps meet their conditions: look-ups find
exactly the keys of the map with the values written last, the entries are counted, no two slots
share one, some slot is empty, so that each probe loop ends, the next operation that meets its
condition returns, and a cursor that reaches its end returned each key once. -/
theorem senSet_runs (keySize valueSize initSize : Nat) (hsizes : Sizes keySize valueSize initSize)
    (set : SenSet) (M : KeyMap) (h : Runs keySize valueSize initSize set M) :
    set.LooksUp M ∧ set.Counts M ∧ set.Unshared ∧ (∃ p : Nat, set.index[p]? = some .null) ∧
      (∀ op : SetOp, op.Meets set → ∃ set', op.exec set = some set') ∧
      ∀ set' M' c c' ys T, Iter set M set' M' c ys T → senSetCursorNext set' c = (c', none) →
        ∀ k, ¬ T k → ys.count k = if (M k).isSome then 1 else 0 := by
  obtain ⟨V, free, arr, hinv, -⟩ := h.inv hsizes
  refine ⟨fun key hkey => ?_, hinv.counts, fun p q a hp hq => ?_, ?_, fun op hop => ?_, ?_⟩
  · obtain ⟨set', r, V', hrun, -, -, -, hnone, hsome⟩ := hinv.senSetAt hkey
    exact ⟨set', r, hrun, hnone, hsome⟩
  · obtain ⟨e, he, hcell⟩ := hinv.views.of_entry hp
    obtain ⟨e', he', hcell'⟩ := hinv.views.of_entry hq
    obtain rfl := Content.entry.inj (hcell.symm.trans hcell')
    exact live_inj hinv.distinct.nodup he he' rfl
  · obtain ⟨p, -, hp⟩ := hinv.exists_null
    exact ⟨p, hinv.views.null hp⟩
  · obtain ⟨set', V', free', arr', hrun, -⟩ := hinv.exec hop
    exact ⟨set', hrun⟩
  · intro set' M' c c' ys T hiter hend k hk
    exact hiter.count ⟨V, free, arr, hinv⟩ hend hk

/-- Two words are put in, and the first one is deleted. -/
theorem senSet_runs_two : ∃ set₁ set₂ set₃,
    (SetOp.get [1, 0, 0, 0]).exec (senSetOpen 4 4 0) = some set₁ ∧
    (SetOp.get [2, 0, 0, 0]).exec set₁ = some set₂ ∧ (SetOp.del 1).exec set₂ = some set₃ ∧
    set₃.LooksUp (Function.update (fun _ => none) [2, 0, 0, 0] (some [0, 0, 0, 0])) ∧
    set₃.Unshared := by
  obtain ⟨set₁, set₂, set₃, hexec₁, hexec₂, hexec₃, hfits, hkeySize, hvalueSize, hkey⟩ :
      ∃ set₁ set₂ set₃, (SetOp.get [1, 0, 0, 0]).exec (senSetOpen 4 4 0) = some set₁ ∧
      (SetOp.get [2, 0, 0, 0]).exec set₁ = some set₂ ∧ (SetOp.del 1).exec set₂ = some set₃ ∧
      set₁.toPool.Fits ∧ set₁.keySize = 4 ∧ set₁.valueSize = 4 ∧
      set₂.keyAt 1 = some [1, 0, 0, 0] :=
    ⟨_, _, _, rfl, rfl, rfl, fun _ _ => by decide, rfl, rfl, rfl⟩
  have hmeets₁ : (SetOp.get [1, 0, 0, 0]).Meets (senSetOpen 4 4 0) :=
    ⟨rfl, fun _ _ _ => by decide⟩
  have hmeets₂ : (SetOp.get [2, 0, 0, 0]).Meets set₁ := ⟨by rw [hkeySize]; rfl, fun _ => hfits⟩
  have hmeets₃ : (SetOp.del 1).Meets set₂ := show set₂.keyAt 1 ≠ none by simp [hkey]
  have hruns := ((Runs.opened.step hmeets₁ hexec₁).step hmeets₂ hexec₂).step hmeets₃ hexec₃
  obtain ⟨hlooksUp, -, hunshared, -⟩ :=
    senSet_runs 4 4 0 ⟨by decide, by decide⟩ set₃ _ hruns
  refine ⟨set₁, set₂, set₃, hexec₁, hexec₂, hexec₃, ?_, hunshared⟩
  convert hlooksUp using 1
  funext k
  simp only [SetOp.after, hkey]
  by_cases h₁ : k = [1, 0, 0, 0]
  · subst h₁
    simp
  · simp [Function.update_apply, h₁, hvalueSize]

/-- With entries of `2^24 + 8` bytes the size of the first chunk wraps around to 2048 bytes, and
the first new entry does not fit into it. -/
theorem senSet_runs_wraps : KeyOk 4 [1, 0, 0, 0] ∧
    (SetOp.get [1, 0, 0, 0]).exec (senSetOpen 4 16777220 0) = none := by
  have hprobe : (senSetOpen 4 16777220 0).probeKey [1, 0, 0, 0] = some (false, 1, none) := rfl
  have hnew : entryNew (senSetOpen 4 16777220 0).toPool = none := rfl
  refine ⟨rfl, ?_⟩
  rw [SetOp.exec, senSetGet, if_neg (by decide), if_neg (by decide), SenSet.getWith, hprobe]
  simp only [Option.bind_some, Option.isSome_none, Bool.false_eq_true, if_false, hnew,
      Option.bind_none,
    Option.map_none]

end Senna.Set
