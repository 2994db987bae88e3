/-
# What the operations of a hash set keep

`SenSet.Inv set M V free arr` relates a set to the finite map `M` it stands for: `V` is its
table of entries, `free` its free list, `arr` the number of entries of the array. Each
operation has one lemma here, which says that it returns, what it returns, and for which map
the invariant holds afterwards.
-/

import Senna.Set.HashSpec
import Senna.Set.HashStorage

namespace Senna.Set

open Senna.Lib

/-- A map from keys to values. -/
abbrev KeyMap := List UInt8 → Option (List UInt8)

/-- The set with a new index of `n` slots and no marks. -/
def SenSet.reindex (set : SenSet) (index : List (Slot Addr)) (n : Nat) : SenSet :=
  { set with
    index := index
    maxOffset := n - 1
    nGarbages := 0
    serial := set.serial + 1 }

/-- The entries of two sets have the same form. -/
structure SenSet.Alike (set' set : SenSet) : Prop where
  keySize : set'.keySize = set.keySize
  valueSize : set'.valueSize = set.valueSize
  entrySize : set'.entrySize = set.entrySize

theorem SenSet.Alike.refl (set : SenSet) : set.Alike set := ⟨rfl, rfl, rfl⟩

theorem SenSet.Alike.trans {set₁ set₂ set₃ : SenSet} (h : set₁.Alike set₂) (h' : set₂.Alike set₃) :
    set₁.Alike set₃ :=
  ⟨h.keySize.trans h'.keySize, h.valueSize.trans h'.valueSize, h.entrySize.trans h'.entrySize⟩

/-- The slot `p` holds an entry with this key and value. -/
def SenSet.Finds (set : SenSet) (p : Nat) (key value : List UInt8) : Prop :=
  ∃ a e, set.index[p]? = some (.entry a) ∧ set.cells a = .entry e ∧
    keyOf set.keySize e = key ∧ e.value = value

/-- The set stands for the map `M`. -/
structure SenSet.Inv (set : SenSet) (M : KeyMap) (V : List (Slot Entry)) (free : List Addr)
    (arr : Nat) : Prop where
  views : Views set.cells set.index V
  size : ∃ k, 8 ≤ k ∧ k ≤ 31 ∧ set.maxOffset + 1 = 2 ^ k
  length : V.length = set.maxOffset + 1
  distinct : Distinct set.keySize V
  hashed : set.arrayp = false → Hashed set.maxOffset V
  map : ∀ k v, M k = some v ↔ ∃ e ∈ live V, keyOf set.keySize e = k ∧ e.value = v
  count : set.nEntries = (live V).length
  garbage : set.nGarbages = V.countP Slot.isGarbage
  room : set.nEntries + set.nGarbages < set.maxOffset + 1
  storage : set.toPool.Storage (live set.index) free arr

namespace SenSet.Inv

variable {set : SenSet} {M : KeyMap} {V : List (Slot Entry)} {free : List Addr} {arr : Nat}

/-- Some slot is empty. -/
theorem exists_null (h : set.Inv M V free arr) : ∃ p < V.length, V[p]? = some .null := by
  apply Senna.Set.exists_null
  rw [← h.count, ← h.garbage, h.length]
  exact h.room

/-- The number of entries is far from the limits of the counters. -/
theorem nEntries_lt (h : set.Inv M V free arr) : set.nEntries < 2 ^ 30 := by
  rw [h.count, ← h.views.counts.1]
  exact h.storage.length_lt

/-- An entry of the table is in the map. -/
theorem map_of_mem (h : set.Inv M V free arr) {e : Entry} (he : e ∈ live V) :
    M (keyOf set.keySize e) = some e.value :=
  (h.map _ _).mpr ⟨e, he, rfl, rfl⟩

theorem map_eq_none (h : set.Inv M V free arr) {key : List UInt8} :
    M key = none ↔ ∀ e ∈ live V, keyOf set.keySize e ≠ key := by
  constructor
  · rintro hnone e he rfl
    rw [h.map_of_mem he] at hnone
    exact nomatch hnone
  · intro hnot
    cases hM : M key with
    | none => rfl
    | some v =>
        obtain ⟨e, he, hkey, -⟩ := (h.map key v).mp hM
        exact absurd hkey (hnot e he)

/-- The size that the rehash is asked for. -/
theorem reset_size (h : set.Inv M V free arr) :
    (if (0 : Nat) = 0 then set.nEntries * 2 % 2 ^ 32 else 0) = set.nEntries * 2 := by
  have hlt := h.nEntries_lt
  rw [if_pos rfl, Nat.mod_eq_of_lt (by omega)]

/-- **The reset.** With room for the entries in the new index it succeeds. The set stands for
the same map, is hashed, and has no marks. -/
theorem reset (h : set.Inv M V free arr) {ne n : Nat}
    (hn : (if ne = 0 then set.nEntries * 2 % 2 ^ 32 else ne) = n) (hle : n ≤ 2 ^ 31 - 1)
    (hroom : set.nEntries < indexSize n) :
    ∃ index' V', senSetReset set ne = some (.success, set.reindex index' (indexSize n)) ∧
      (set.reindex index' (indexSize n)).Inv M V' free arr ∧
      Hashed (indexSize n - 1) V' := by
  obtain ⟨k, hk, hlow, hhigh, hlt⟩ := indexSize_spec hle
  have hm : indexSize n - 1 + 1 = 2 ^ k := by
    rw [hk]
    exact Nat.sub_add_cancel Nat.one_le_two_pow
  have hempty : live (List.replicate (indexSize n) (Slot.null : Slot Entry)) = [] := by
    unfold live
    rw [List.filterMap_replicate_of_none rfl]
  have hempty' : live (List.replicate (indexSize n) (Slot.null : Slot Addr)) = [] := by
    unfold live
    rw [List.filterMap_replicate_of_none rfl]
  have hviews : Views set.cells (List.replicate (indexSize n) .null)
      (List.replicate (indexSize n) .null) := by
    induction indexSize n with
    | zero => exact .nil
    | succ n ih => exact .cons trivial ih
  obtain ⟨index', V', hrun, hv, hlen, hgarbage, hh, hperm, hperm'⟩ :=
    rehash_spec set.keySize hm (by omega) h.views h.distinct.ok hviews
      (by
        rw [List.length_replicate]
        omega)
      (by
        rw [List.countP_replicate]
        rfl)
      (by
        intro p e hp
        rw [List.getElem?_replicate] at hp
        split_ifs at hp
        exact nomatch hp)
      (by
        rw [hempty, List.length_nil, ← h.count]
        omega)
  rw [hempty, List.append_nil] at hperm
  rw [hempty', List.append_nil] at hperm'
  refine ⟨index', V', ?_, ?_, hh⟩
  · unfold senSetReset
    simp only [hn]
    rw [if_neg (by omega), hrun, Option.map_some]
    rfl
  · refine {
      views := hv
      size := ⟨k, hlow, hhigh, hm⟩
      length := hlen
      distinct := h.distinct.of_perm hperm
      hashed := fun _ => hh
      map := fun key v => ?_
      count := h.count.trans hperm.length_eq.symm
      garbage := hgarbage.symm
      room := ?_
      storage := h.storage.perm hperm'.symm }
    · rw [h.map]
      constructor
      · rintro ⟨e, he, hrest⟩
        exact ⟨e, hperm.mem_iff.mpr he, hrest⟩
      · rintro ⟨e, he, hrest⟩
        exact ⟨e, hperm.mem_iff.mp he, hrest⟩
    · show set.nEntries + 0 < indexSize n - 1 + 1
      omega

/-- The reset that the look-ups make: twice the number of entries. -/
theorem reset_zero (h : set.Inv M V free arr) :
    ∃ index' V', senSetReset set 0 =
        some (.success, set.reindex index' (indexSize (set.nEntries * 2))) ∧
      (set.reindex index' (indexSize (set.nEntries * 2))).Inv M V' free arr ∧
      Hashed (indexSize (set.nEntries * 2) - 1) V' ∧
      set.nEntries + 1 < indexSize (set.nEntries * 2) := by
  have hlt := h.nEntries_lt
  have hle : set.nEntries * 2 ≤ 2 ^ 31 - 1 := by omega
  obtain ⟨k, hk, hlow, -, habove⟩ := indexSize_spec hle
  have hpow : 2 ^ 8 ≤ indexSize (set.nEntries * 2) := hk ▸ Nat.pow_le_pow_right (by decide) hlow
  obtain ⟨index', V', hrun, hinv, hh⟩ := h.reset h.reset_size hle (by omega)
  exact ⟨index', V', hrun, hinv, hh, by omega⟩

/-- **Leaving array mode.** The set is hashed, with room for another entry. -/
theorem leaveArray (h : set.Inv M V free arr) (harray : set.arrayp = true) :
    ∃ set' V', set.leaveArray = some (.success, set') ∧ set'.Inv M V' free arr ∧
      set'.arrayp = false ∧ set'.nEntries + set'.nGarbages + 1 < set'.maxOffset + 1 ∧
      set'.Alike set ∧ set'.serial = set.serial + 1 ∧ (set.toPool.Fits → set'.toPool.Fits) := by
  obtain ⟨index', V', hrun, hinv, hh, hroom⟩ := h.reset_zero
  have hboundary : set.toPool.boundary = 0 := if_pos harray
  refine ⟨{ set.reindex index' (indexSize (set.nEntries * 2)) with
    currEntry := 0
    arrayp := false }, V', ?_, ?_, rfl, ?_, ⟨rfl, rfl, rfl⟩, rfl, id⟩
  · rw [SenSet.leaveArray, hrun, Option.map_some]
    rfl
  · have hs := hinv.storage
    refine { hinv with
      hashed := fun _ => hh
      storage := { hs with
        boundary_lt := ?_
        started := fun hpos => absurd hpos (lt_irrefl _)
        fresh := fun halloc i _ => hs.fresh halloc i (hboundary ▸ Nat.zero_le i)
        place := fun a ha => ?_
        balance := ?_ } }
    · exact Nat.mul_pos (by decide) (Nat.two_pow_pos _)
    · rcases hs.place a ha with hlt | ⟨-, hlt⟩ | hmax
      · exact Or.inl hlt
      · have hlt : a.entry < set.toPool.boundary := hlt
        rw [hboundary] at hlt
        exact absurd hlt (Nat.not_lt_zero _)
      · exact Or.inr (Or.inr hmax)
    · have hbalance := hs.balance
      have hzero : (set.reindex index' (indexSize (set.nEntries * 2))).toPool.boundary = 0 :=
        hboundary
      rw [hzero] at hbalance
      exact hbalance
  · show set.nEntries + 0 + 1 < indexSize (set.nEntries * 2) - 1 + 1
    omega

/-- What a slot holds, seen from the table. -/
theorem finds_iff (h : set.Inv M V free arr) {p : Nat} {key value : List UInt8} :
    set.Finds p key value ↔
      ∃ e, V[p]? = some (.entry e) ∧ keyOf set.keySize e = key ∧ e.value = value := by
  constructor
  · rintro ⟨a, e, ha, hcell, hrest⟩
    obtain ⟨e', he', hcell'⟩ := h.views.of_entry ha
    obtain rfl := Content.entry.inj (hcell.symm.trans hcell')
    exact ⟨e, he', hrest⟩
  · rintro ⟨e, he, hrest⟩
    obtain ⟨a, ha, hcell⟩ := h.views.entry he
    exact ⟨a, e, ha, hcell, hrest⟩

/-- The map is what the slots hold. -/
theorem map_iff_finds (h : set.Inv M V free arr) {key value : List UInt8} :
    M key = some value ↔ ∃ p, set.Finds p key value := by
  rw [h.map]
  constructor
  · rintro ⟨e, he, hrest⟩
    obtain ⟨p, hp⟩ := mem_live.mp he
    exact ⟨p, h.finds_iff.mpr ⟨e, hp, hrest⟩⟩
  · rintro ⟨p, hp⟩
    obtain ⟨e, he, hrest⟩ := h.finds_iff.mp hp
    exact ⟨e, mem_live.mpr ⟨p, he⟩, hrest⟩

/-- A key is in one slot. -/
theorem finds_inj (h : set.Inv M V free arr) {p p' : Nat} {key value value' : List UInt8}
    (hp : set.Finds p key value) (hp' : set.Finds p' key value') : p = p' := by
  obtain ⟨e, he, hkey, -⟩ := h.finds_iff.mp hp
  obtain ⟨e', he', hkey', -⟩ := h.finds_iff.mp hp'
  exact live_inj h.distinct.nodup he he' (hkey.trans hkey'.symm)

/-- The probe loop for a key, in terms of the map. -/
theorem probeKey (h : set.Inv M V free arr) (harray : set.arrayp = false) {key : List UInt8}
    (hkey : KeyOk set.keySize key) :
    ∃ found ep np, set.probeKey key = some (found, ep, np) ∧
      ((found = true ∧ ∃ v, M key = some v ∧ set.Finds ep key v) ∨
        found = false ∧ M key = none ∧
          (∃ s, V[np.getD ep]? = some s ∧ s.content = none ∧ s.isGarbage = np.isSome) ∧
          Reaches (Used V) (probeSeq set.maxOffset (hashOf set.keySize key)) (np.getD ep)) := by
  obtain ⟨k, -, hk, hm⟩ := h.size
  obtain ⟨found, ep, np, hrun, hcases⟩ := set.probeKey_spec h.views hm (by omega) h.length
    h.distinct (h.hashed harray) h.exists_null hkey
  refine ⟨found, ep, np, hrun, ?_⟩
  rcases hcases with ⟨hfound, e, he, hkeyOf⟩ | ⟨hfound, hnot, hslot, hreach⟩
  · have hmem : e ∈ live V := mem_live.mpr ⟨ep, he⟩
    exact Or.inl ⟨hfound, e.value, hkeyOf ▸ h.map_of_mem hmem,
      h.finds_iff.mpr ⟨e, he, hkeyOf, rfl⟩⟩
  · exact Or.inr ⟨hfound, h.map_eq_none.mpr hnot, hslot, hreach⟩

/-- The look-up in a hashed set. -/
theorem atWith (h : set.Inv M V free arr) (harray : set.arrayp = false) {key : List UInt8}
    (hkey : KeyOk set.keySize key) :
    ∃ r, set.atWith key = some (set, r) ∧ (M key = none → r = none) ∧
      ∀ v, M key = some v → ∃ p, r = some p ∧ set.Finds p key v := by
  obtain ⟨found, ep, np, hrun, hcases⟩ := h.probeKey harray hkey
  refine ⟨if found then some ep else none, ?_, ?_, ?_⟩
  · rw [SenSet.atWith, hrun, Option.map_some]
  · intro hnone
    rcases hcases with ⟨-, v, hv, -⟩ | ⟨rfl, -⟩
    · rw [hnone] at hv
      exact nomatch hv
    · rfl
  · intro v hv
    rcases hcases with ⟨rfl, v', hv', hfinds⟩ | ⟨-, hnone, -⟩
    · obtain rfl := Option.some.inj (hv.symm.trans hv')
      exact ⟨ep, rfl, hfinds⟩
    · rw [hnone] at hv
      exact nomatch hv

/-- **`sen_set_at`.** It returns, finds exactly the keys of the map with their values, and the
set still stands for the map; it changes the set in array mode only. -/
theorem senSetAt (h : set.Inv M V free arr) {key : List UInt8} (hkey : KeyOk set.keySize key) :
    ∃ set' r V', Senna.Set.senSetAt set key = some (set', r) ∧ set'.Inv M V' free arr ∧
      set'.Alike set ∧ (set'.serial = set.serial → set' = set) ∧
      (M key = none → r = none) ∧
      ∀ v, M key = some v → ∃ p, r = some p ∧ set'.Finds p key v := by
  unfold Senna.Set.senSetAt
  cases harray : set.arrayp with
  | true =>
      obtain ⟨set₁, V', hleave, hinv, harray₁, -, halike, hserial, -⟩ := h.leaveArray harray
      obtain ⟨r, hrun, hnone, hsome⟩ := hinv.atWith harray₁ (halike.keySize ▸ hkey)
      refine ⟨set₁, r, V', ?_, hinv, halike, fun heq => ?_, hnone, hsome⟩
      · rw [if_pos rfl, hleave]
        exact hrun
      · omega
  | false =>
      obtain ⟨r, hrun, hnone, hsome⟩ := h.atWith harray hkey
      exact ⟨set, r, V, hrun, h, .refl set, fun _ => rfl, hnone, hsome⟩

/-- A new entry in a slot without one: the set stands for the map with the key added. -/
theorem insert (h : set.Inv M V free arr) {p : Nat} {s : Slot Entry} (hs : V[p]? = some s)
    (hcontent : s.content = none) {key : List UInt8} (hnew : M key = none) {e : Entry}
    (he : e.Ok set.keySize) (hkeyOf : keyOf set.keySize e = key)
    (hreach : set.arrayp = false → Reaches (Used V) (probeSeq set.maxOffset e.key) p)
    {pool' : Pool} {a : Addr} {free' : List Addr} {arr' : Nat} (hnot : a ∉ live set.index)
    (hcells : ∀ b ∈ live set.index, pool'.cells b = set.cells b)
    (hstorage : { pool' with cells := Function.update pool'.cells a (.entry e) }.Storage
      (a :: live set.index) free' arr') (harray : pool'.arrayp = set.arrayp)
    {n : Nat} (hn : n = set.nGarbages - if s.isGarbage then 1 else 0)
    (hroom : set.nEntries + set.nGarbages + 1 < set.maxOffset + 1) :
    SenSet.Inv { set with
        toPool := { pool' with cells := Function.update pool'.cells a (.entry e) }
        index := set.index.set p (.entry a)
        nEntries := set.nEntries + 1
        nGarbages := n } (Function.update M key (some e.value)) (V.set p (.entry e)) free'
            arr' := by
  have hlt := (List.getElem?_eq_some_iff.mp hs).1
  have hperm := live_insert hs hcontent e
  have hviews : Views pool'.cells set.index V := h.views.congr hcells
  have hslot : ∃ s' : Slot Addr, set.index[p]? = some s' ∧ s'.content = none := by
    cases s with
    | null => exact ⟨_, h.views.null hs, rfl⟩
    | garbage => exact ⟨_, h.views.garbage hs, rfl⟩
    | entry e => exact nomatch hcontent
  obtain ⟨s', hs', hcontent'⟩ := hslot
  have hnot' := h.map_eq_none.mp hnew
  refine {
    views := hviews.insert hnot p e
    size := h.size
    length := by rw [List.length_set]; exact h.length
    distinct := h.distinct.cons hperm he fun e' he' => by rw [hkeyOf]; exact hnot' e' he'
    hashed := fun hfalse => ?_
    map := fun k v => ?_
    count := ?_
    garbage := ?_
    room := ?_
    storage := hstorage.perm (live_insert hs' hcontent' a).symm }
  · have hfalse : set.arrayp = false := harray ▸ hfalse
    apply (h.hashed hfalse).set (s := .entry e) nofun
    intro e' he'
    rw [← Slot.entry.inj he']
    exact hreach hfalse
  · show Function.update M key (some e.value) k = some v ↔
      ∃ e' ∈ live (V.set p (.entry e)), keyOf set.keySize e' = k ∧ e'.value = v
    by_cases hk : k = key
    · subst hk
      rw [Function.update_self]
      constructor
      · intro hv
        exact ⟨e, hperm.mem_iff.mpr List.mem_cons_self, hkeyOf, Option.some.inj hv⟩
      · rintro ⟨e', he', hkey', rfl⟩
        rcases List.mem_cons.mp (hperm.mem_iff.mp he') with rfl | hmem
        · rfl
        · exact absurd hkey' (hnot' e' hmem)
    · rw [Function.update_of_ne hk, h.map]
      constructor
      · rintro ⟨e', he', hrest⟩
        exact ⟨e', hperm.mem_iff.mpr (List.mem_cons_of_mem _ he'), hrest⟩
      · rintro ⟨e', he', hkey', hvalue'⟩
        rcases List.mem_cons.mp (hperm.mem_iff.mp he') with rfl | hmem
        · exact absurd (hkey'.symm.trans hkeyOf) hk
        · exact ⟨e', hmem, hkey', hvalue'⟩
  · show set.nEntries + 1 = (live (V.set p (.entry e))).length
    rw [hperm.length_eq, List.length_cons, h.count]
  · show n = (V.set p (.entry e)).countP Slot.isGarbage
    rw [List.countP_set hlt, hn, h.garbage]
    have hget : V[p] = s := (List.getElem?_eq_some_iff.mp hs).2
    rw [hget]
    rfl
  · show set.nEntries + 1 + n < set.maxOffset + 1
    omega

/-- A look-up that inserts, in a hashed set with room for another entry. -/
theorem getWith (h : set.Inv M V free arr) (harray : set.arrayp = false)
    (hroom : set.nEntries + set.nGarbages + 1 < set.maxOffset + 1) {key : List UInt8}
    (hfits : M key = none → set.toPool.Fits) (hkey : KeyOk set.keySize key) :
    ∃ set' p V' free', set.getWith key = some (set', some p) ∧
      set'.Inv (Function.update M key (some ((M key).getD (List.replicate set.valueSize 0)))) V'
        free' arr ∧
      set'.Alike set ∧ set'.serial = set.serial ∧
      set'.Finds p key ((M key).getD (List.replicate set.valueSize 0)) ∧
      (∀ q k v, k ≠ key → (set'.Finds q k v ↔ set.Finds q k v)) ∧ (M key ≠ none → set' = set) ∧
      (M key = none → free'.length = free.length - 1) := by
  obtain ⟨found, ep, np, hrun, hcases⟩ := h.probeKey harray hkey
  rcases hcases with ⟨rfl, v, hv, hfinds⟩ | ⟨rfl, hnone, ⟨s, hs, hcontent, hgarbage⟩, hreach⟩
  · refine ⟨set, ep, V, free, ?_, ?_, .refl set, rfl, ?_, fun _ _ _ _ => Iff.rfl, fun _ => rfl,
      fun hnone => absurd (hv.symm.trans hnone) nofun⟩
    · rw [SenSet.getWith, hrun]
      rfl
    · rw [hv, Option.getD_some, ← hv, Function.update_eq_self]
      exact h
    · rw [hv]
      exact hfinds
  · rw [hnone, Option.getD_none]
    obtain ⟨pool', a, free', hnew, hstorage, hcell, hnot, hcells, hentrySize, hvalueSize, harray',
      hfree⟩ :=
      h.storage.entryNew (hfits hnone) harray
    set e := storeKey set.keySize key (hashOf set.keySize key) set.toPool.zeroEntry with hedef
    obtain ⟨he, hkeyOf, hvalue⟩ := storeKey_ok hkey set.toPool.zeroEntry
    have hhash : e.key = hashOf set.keySize key := by
      rw [he.hash, hkeyOf]
    have hn : (if np.isSome then u32Sub set.nGarbages 1 else set.nGarbages) =
        set.nGarbages - if s.isGarbage then 1 else 0 := by
      rw [hgarbage]
      split_ifs with hsome
      · obtain ⟨k, -, hk, hm⟩ := h.size
        have hpow : 2 ^ k ≤ 2 ^ 31 := Nat.pow_le_pow_right (by decide) hk
        have hpos : 0 < V.countP Slot.isGarbage :=
          List.countP_pos_iff.mpr ⟨s, List.mem_of_getElem? hs, hgarbage.trans hsome⟩
        rw [← h.garbage] at hpos
        exact u32Sub_of_le hpos (by omega)
      · rfl
    have hinv := h.insert hs hcontent hnone he hkeyOf (fun _ => by rw [hhash]; exact hreach) hnot
        hcells
      (hstorage.write List.mem_cons_self (.entry e)) (harray'.trans harray.symm) hn hroom
    have hvalue' : e.value = List.replicate set.valueSize 0 := hvalue
    rw [hvalue'] at hinv
    refine ⟨_, np.getD ep, _, free', ?_, hinv, ⟨rfl, hvalueSize, hentrySize⟩, rfl, ?_,
      fun q k v hk => ?_, fun hne => absurd rfl hne, fun _ => hfree⟩
    · rw [SenSet.getWith, hrun, Option.bind_some]
      cases np <;>
      · simp only [Bool.false_eq_true, if_false, Option.isSome_none, Option.isSome_some, if_true,
          hnew, Option.bind_some, hcell]
    · apply hinv.finds_iff.mpr
      refine ⟨e, ?_, hkeyOf, hvalue'⟩
      exact List.getElem?_set_self (List.getElem?_eq_some_iff.mp hs).1
    · rw [hinv.finds_iff, h.finds_iff]
      constructor
      · rintro ⟨e', he', hkey', hrest⟩
        by_cases hq : np.getD ep = q
        · rw [hq, List.getElem?_set_self (hq ▸ (List.getElem?_eq_some_iff.mp hs).1)] at he'
          obtain rfl := Slot.entry.inj (Option.some.inj he')
          exact absurd (hkey'.symm.trans hkeyOf) hk
        · rw [List.getElem?_set_ne hq] at he'
          exact ⟨e', he', hkey', hrest⟩
      · rintro ⟨e', he', hrest⟩
        have hq : np.getD ep ≠ q := by
          intro hq
          rw [hq, he'] at hs
          obtain rfl := Option.some.inj hs
          exact nomatch hcontent
        rw [List.getElem?_set_ne hq]
        exact ⟨e', he', hrest⟩

/-- **`sen_set_get`.** Unless the key is missing and the next chunk's size does not fit into a
word, it returns the slot of the key, and the set stands for the map with the key added if it was
missing. -/
theorem senSetGet (h : set.Inv M V free arr) {key : List UInt8}
    (hfits : M key = none → set.toPool.Fits) (hkey : KeyOk set.keySize key) :
    ∃ set' p V' free', Senna.Set.senSetGet set key = some (set', some p) ∧
      set'.Inv (Function.update M key (some ((M key).getD (List.replicate set.valueSize 0)))) V'
        free' arr ∧
      set'.Alike set ∧
      set'.Finds p key ((M key).getD (List.replicate set.valueSize 0)) ∧
      (set'.serial = set.serial → (∀ q k v, k ≠ key → (set'.Finds q k v ↔ set.Finds q k v)) ∧
        (M key ≠ none → set' = set)) ∧
      (M key = none → free'.length = free.length - 1) := by
  unfold Senna.Set.senSetGet
  cases harray : set.arrayp with
  | true =>
      obtain ⟨set₁, V₁, hleave, hinv, harray₁, hroom, halike, hserial, hfits₁⟩ :=
        h.leaveArray harray
      obtain ⟨set', p, V', free', hrun, hinv', halike', hserial', hfinds, -, -, hfree⟩ :=
        hinv.getWith harray₁ hroom (fun hnone => hfits₁ (hfits hnone)) (halike.keySize ▸ hkey)
      rw [halike.valueSize] at hinv' hfinds
      refine ⟨set', p, V', free', ?_, hinv', halike'.trans halike, hfinds, fun heq => ?_, hfree⟩
      · rw [if_pos rfl, hleave]
        exact hrun
      · omega
  | false =>
      have hroom := h.room
      by_cases hfull : (set.nEntries + set.nGarbages) * 2 % 2 ^ 32 > set.maxOffset
      · obtain ⟨index', V₁, hreset, hinv, -, hsize⟩ := h.reset_zero
        obtain ⟨set', p, V', free', hrun, hinv', halike, hserial', hfinds, -, -, hfree⟩ :=
          hinv.getWith harray (by
            show set.nEntries + 0 + 1 < indexSize (set.nEntries * 2) - 1 + 1
            omega) hfits (show KeyOk set.keySize key from hkey)
        have hserial' : set'.serial = set.serial + 1 := hserial'
        refine ⟨set', p, V', free', ?_, hinv', halike.trans ⟨rfl, rfl, rfl⟩, hfinds, fun heq => ?_,
          hfree⟩
        · rw [if_neg Bool.false_ne_true, if_pos hfull, hreset]
          exact hrun
        · omega
      · obtain ⟨k, hlow, hhigh, hm⟩ := h.size
        have hpow : 2 ^ k ≤ 2 ^ 31 := Nat.pow_le_pow_right (by decide) hhigh
        have hpow' : 2 ^ 8 ≤ 2 ^ k := Nat.pow_le_pow_right (by decide) hlow
        rw [Nat.mod_eq_of_lt (by omega)] at hfull
        obtain ⟨set', p, V', free', hrun, hinv', halike, -, hfinds, hothers, hsame, hfree⟩ :=
          h.getWith harray (by omega) hfits hkey
        refine ⟨set', p, V', free', ?_, hinv', halike, hfinds, fun _ => ⟨hothers, hsame⟩, hfree⟩
        rw [if_neg Bool.false_ne_true, if_neg (by rwa [Nat.mod_eq_of_lt (by omega)]), hrun]

/-- **`sen_set_del`.** A slot with an entry is deleted; the set stands for the map without its
key. -/
theorem senSetDel (h : set.Inv M V free arr) {p : Nat} {key value : List UInt8}
    (hp : set.Finds p key value) :
    ∃ set' V' free', Senna.Set.senSetDel set p = some (.success, set') ∧
      set'.Inv (Function.update M key none) V' free' arr ∧ set'.Alike set ∧
      set'.serial = set.serial ∧ ∀ q k v, k ≠ key → (set'.Finds q k v ↔ set.Finds q k v) := by
  obtain ⟨a, e, ha, hcell, rfl, rfl⟩ := hp
  obtain ⟨e', he, hcell'⟩ := h.views.of_entry ha
  obtain rfl := Content.entry.inj (hcell.symm.trans hcell')
  have hlt := (List.getElem?_eq_some_iff.mp he).1
  have hget : V[p] = .entry e := (List.getElem?_eq_some_iff.mp he).2
  have hperm := live_remove he (s := .garbage) rfl
  have hperm' := live_remove ha (s := .garbage) rfl
  have hnodup : (live set.index).Nodup := (List.nodup_append.mp h.storage.nodup).1
  have hstorage := (h.storage.perm hperm').release
  have hdistinct : Distinct set.keySize (V.set p .garbage) := h.distinct.tail hperm
  have hother : ∀ e' ∈ live (V.set p .garbage), keyOf set.keySize e' ≠ keyOf set.keySize e := by
    intro e' he' hkey
    have hnodup := (hperm.map (keyOf set.keySize)).nodup_iff.mp h.distinct.nodup
    rw [List.map_cons, List.nodup_cons] at hnodup
    exact hnodup.1 (hkey ▸ List.mem_map_of_mem he')
  obtain ⟨kk, -, hhigh, hm⟩ := h.size
  have hpow : 2 ^ kk ≤ 2 ^ 31 := Nat.pow_le_pow_right (by decide) hhigh
  have hroom := h.room
  have hcount := h.count
  rw [hperm.length_eq, List.length_cons] at hcount
  have hinv : SenSet.Inv { set with
      index := set.index.set p .garbage
      cells := Function.update set.cells a (.link set.garbages)
      garbages := some a
      nEntries := set.nEntries - 1
      nGarbages := (set.nGarbages + 1) % 2 ^ 32 } (Function.update M (keyOf set.keySize e) none)
      (V.set p .garbage) (a :: free) arr := by
    refine {
      views := h.views.remove hnodup ha _
      size := h.size
      length := by rw [List.length_set]; exact h.length
      distinct := hdistinct
      hashed := fun hfalse => (h.hashed hfalse).set (s := .garbage) nofun nofun
      map := fun k v => ?_
      count := ?_
      garbage := ?_
      room := ?_
      storage := hstorage }
    · show Function.update M (keyOf set.keySize e) none k = some v ↔
        ∃ e' ∈ live (V.set p .garbage), keyOf set.keySize e' = k ∧ e'.value = v
      by_cases hk : k = keyOf set.keySize e
      · subst hk
        rw [Function.update_self]
        constructor
        · exact nofun
        · rintro ⟨e', he', hkey, -⟩
          exact absurd hkey (hother e' he')
      · rw [Function.update_of_ne hk, h.map]
        constructor
        · rintro ⟨e', he', hkey, hvalue⟩
          rcases List.mem_cons.mp (hperm.mem_iff.mp he') with rfl | hmem
          · exact absurd hkey.symm hk
          · exact ⟨e', hmem, hkey, hvalue⟩
        · rintro ⟨e', he', hrest⟩
          exact ⟨e', hperm.mem_iff.mpr (List.mem_cons_of_mem _ he'), hrest⟩
    · show set.nEntries - 1 = (live (V.set p .garbage)).length
      omega
    · show (set.nGarbages + 1) % 2 ^ 32 = (V.set p .garbage).countP Slot.isGarbage
      rw [List.countP_set hlt, hget, ← h.garbage, Nat.mod_eq_of_lt (by omega)]
      rfl
    · show set.nEntries - 1 + (set.nGarbages + 1) % 2 ^ 32 < set.maxOffset + 1
      rw [Nat.mod_eq_of_lt (by omega)]
      omega
  refine ⟨_, _, _, ?_, hinv, ⟨rfl, rfl, rfl⟩, rfl, fun q k v hk => ?_⟩
  · rw [Senna.Set.senSetDel, ha]
  · rw [hinv.finds_iff, h.finds_iff]
    constructor
    · rintro ⟨e', he', hrest⟩
      rw [List.getElem?_set] at he'
      split_ifs at he'
      · exact nomatch he'
      · exact ⟨e', he', hrest⟩
    · rintro ⟨e', he', hkey, hvalue⟩
      have hq : p ≠ q := by
        rintro rfl
        obtain rfl := Slot.entry.inj (Option.some.inj (he.symm.trans he'))
        exact hk hkey.symm
      exact ⟨e', by rw [List.getElem?_set_ne hq, he'], hkey, hvalue⟩

/-- A write through the pointer to a value. -/
theorem setValue (h : set.Inv M V free arr) {p : Nat} {key value : List UInt8}
    (hp : set.Finds p key value) (value' : List UInt8) :
    ∃ set' V', set.setValue p value' = some set' ∧
      set'.Inv (Function.update M key (some value')) V' free arr ∧ set'.Alike set ∧
      set'.serial = set.serial ∧ set'.Finds p key value' ∧
      ∀ q k v, k ≠ key → (set'.Finds q k v ↔ set.Finds q k v) := by
  obtain ⟨a, e, ha, hcell, rfl, rfl⟩ := hp
  obtain ⟨e', he, hcell'⟩ := h.views.of_entry ha
  obtain rfl := Content.entry.inj (hcell.symm.trans hcell')
  have hlt := (List.getElem?_eq_some_iff.mp he).1
  have hget : V[p] = .entry e := (List.getElem?_eq_some_iff.mp he).2
  set e₁ : Entry := { e with value := value' } with he₁
  have hkeyOf : keyOf set.keySize e₁ = keyOf set.keySize e := by
    unfold keyOf
    split <;> rfl
  have hok : e₁.Ok set.keySize := by
    obtain ⟨hkey, hhash⟩ := h.distinct.ok e (mem_live.mpr ⟨p, he⟩)
    exact ⟨hkeyOf ▸ hkey, by rw [hkeyOf]; exact hhash⟩
  have hperm := live_remove he (s := .garbage) rfl
  have hslot : (V.set p .garbage)[p]? = some .garbage := List.getElem?_set_self hlt
  have hperm' := live_insert hslot rfl e₁
  rw [List.set_set] at hperm'
  have hother : ∀ e' ∈ live (V.set p .garbage), keyOf set.keySize e' ≠ keyOf set.keySize e := by
    intro e' he' hkey
    have hnodup := (hperm.map (keyOf set.keySize)).nodup_iff.mp h.distinct.nodup
    rw [List.map_cons, List.nodup_cons] at hnodup
    exact hnodup.1 (hkey ▸ List.mem_map_of_mem he')
  have hnodup : (live set.index).Nodup := (List.nodup_append.mp h.storage.nodup).1
  have hviews := (h.views.remove hnodup ha (.entry e₁)).set (s := .entry a) (t := .entry e₁)
    (Function.update_self _ _ _) p
  rw [List.set_set, List.set_set, set_self_of_getElem? ha] at hviews
  have hinv : SenSet.Inv { set with cells := Function.update set.cells a (.entry e₁) }
      (Function.update M (keyOf set.keySize e) (some value')) (V.set p (.entry e₁)) free arr := by
    refine {
      views := hviews
      size := h.size
      length := by rw [List.length_set]; exact h.length
      distinct := (h.distinct.tail hperm).cons hperm' hok fun e' he' => by
        rw [hkeyOf]
        exact hother e' he'
      hashed := fun hfalse => (h.hashed hfalse).set (s := .entry e₁) nofun fun e' he' => by
        rw [← Slot.entry.inj he']
        exact h.hashed hfalse p e he
      map := fun k v => ?_
      count := ?_
      garbage := ?_
      room := h.room
      storage := h.storage.write (mem_live.mpr ⟨p, ha⟩) (.entry e₁) }
    · show Function.update M (keyOf set.keySize e) (some value') k = some v ↔
        ∃ e' ∈ live (V.set p (.entry e₁)), keyOf set.keySize e' = k ∧ e'.value = v
      by_cases hk : k = keyOf set.keySize e
      · subst hk
        rw [Function.update_self]
        constructor
        · intro hv
          exact ⟨e₁, hperm'.mem_iff.mpr List.mem_cons_self, hkeyOf, Option.some.inj hv⟩
        · rintro ⟨e', he', hkey, rfl⟩
          rcases List.mem_cons.mp (hperm'.mem_iff.mp he') with rfl | hmem
          · rfl
          · exact absurd hkey (hother e' hmem)
      · rw [Function.update_of_ne hk, h.map]
        constructor
        · rintro ⟨e', he', hkey, hvalue⟩
          rcases List.mem_cons.mp (hperm.mem_iff.mp he') with rfl | hmem
          · exact absurd hkey.symm hk
          · exact ⟨e', hperm'.mem_iff.mpr (List.mem_cons_of_mem _ hmem), hkey, hvalue⟩
        · rintro ⟨e', he', hkey, hvalue⟩
          rcases List.mem_cons.mp (hperm'.mem_iff.mp he') with rfl | hmem
          · exact absurd (hkey.symm.trans hkeyOf) hk
          · exact ⟨e', hperm.mem_iff.mpr (List.mem_cons_of_mem _ hmem), hkey, hvalue⟩
    · show set.nEntries = (live (V.set p (.entry e₁))).length
      rw [hperm'.length_eq, h.count, hperm.length_eq, List.length_cons, List.length_cons]
    · show set.nGarbages = (V.set p (.entry e₁)).countP Slot.isGarbage
      rw [List.countP_set hlt, hget, h.garbage]
      rfl
  refine ⟨_, _, ?_, hinv, ⟨rfl, rfl, rfl⟩, rfl, ?_, fun q k v hk => ?_⟩
  · rw [SenSet.setValue, ha]
    simp only [hcell]
    rfl
  · exact hinv.finds_iff.mpr ⟨e₁, List.getElem?_set_self hlt, hkeyOf, rfl⟩
  · rw [hinv.finds_iff, h.finds_iff]
    constructor
    · rintro ⟨e', he', hkey, hvalue⟩
      rw [List.getElem?_set] at he'
      split_ifs at he'
      · obtain rfl := Slot.entry.inj (Option.some.inj he')
        exact absurd (hkey.symm.trans hkeyOf) hk
      · exact ⟨e', he', hkey, hvalue⟩
    · rintro ⟨e', he', hkey, hvalue⟩
      have hq : p ≠ q := by
        rintro rfl
        obtain rfl := Slot.entry.inj (Option.some.inj (he.symm.trans he'))
        exact hk hkey.symm
      exact ⟨e', by rw [List.getElem?_set_ne hq, he'], hkey, hvalue⟩

end SenSet.Inv

end Senna.Set
