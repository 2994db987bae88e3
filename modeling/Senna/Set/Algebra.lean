/-
# Set algebra

`sen_set_union`, `sen_set_subtract`, `sen_set_intersect` and `sen_set_difference` walk the
index of one set until a counter of its remaining entries is zero, and look its keys up in
the other set. The walk deletes at most the slot it is at, so it meets every entry of the set
once; the look-ups may rehash the other set or take it out of array mode.

The records' operations are these, on the sets of two records over the same keys.
-/

import Senna.Set.HashRuns

namespace Senna.Set

open Senna.Lib

/-- The loops: `i` entries are left in the set that is walked, from the slot `ep` on, which has
`rest` slots. `none` stands for a read behind the index. -/
def walk {σ : Type} (walked : σ → SenSet) (body : σ → Nat → List UInt8 → List UInt8 → Option σ) :
    Nat → Nat → Nat → σ → Option σ
  | _, 0, _, s => some s
  | 0, _ + 1, _, _ => none
  | rest + 1, i + 1, ep, s =>
      match (walked s).index[ep]? with
      | none => none
      | some (.entry a) =>
          match (walked s).cells a with
          | .link _ => none
          | .entry e =>
              (body s ep (keyOf (walked s).keySize e) e.value).bind
                (walk walked body rest i (ep + 1))
      | some _ => walk walked body rest (i + 1) (ep + 1) s

/-- The loop of `sen_set_union` for one entry of `b`. -/
def unionBody : SenSet × SenSet → Nat → List UInt8 → List UInt8 → Option (SenSet × SenSet)
  | (a, b), _, key, vb =>
      (senSetAt a key).bind fun (a, r) =>
        if r.isSome then some (a, b)
        else
          (senSetGet a key).bind fun (a, r) =>
            match r with
            | some va => (a.setValue va vb).map fun a => (a, b)
            | none => some (a, b)

/-- `sen_set_union`: `some none` is `NULL`. -/
def senSetUnion (a b : SenSet) : Option (Option SenSet) :=
  if a.keySize ≠ b.keySize ∨ a.valueSize ≠ b.valueSize then some none
  else (walk Prod.snd unionBody (b.maxOffset + 1) b.nEntries 0 (a, b)).map fun s => some s.1

/-- The loop of `sen_set_subtract` for one entry of `b`. -/
def subtractBody : SenSet × SenSet → Nat → List UInt8 → List UInt8 → Option (SenSet × SenSet)
  | (a, b), _, key, _ =>
      (senSetAt a key).bind fun (a, r) =>
        match r with
        | some dp => (senSetDel a dp).map fun (_, a) => (a, b)
        | none => some (a, b)

/-- `sen_set_subtract`. -/
def senSetSubtract (a b : SenSet) : Option (Option SenSet) :=
  if a.keySize ≠ b.keySize then some none
  else (walk Prod.snd subtractBody (b.maxOffset + 1) b.nEntries 0 (a, b)).map fun s => some s.1

/-- The loop of `sen_set_intersect` for one entry of `a`. -/
def intersectBody : SenSet × SenSet → Nat → List UInt8 → List UInt8 → Option (SenSet × SenSet)
  | (a, b), ep, key, _ =>
      (senSetAt b key).bind fun (b, r) =>
        if r.isSome then some (a, b) else (senSetDel a ep).map fun (_, a) => (a, b)

/-- `sen_set_intersect`. -/
def senSetIntersect (a b : SenSet) : Option (Option SenSet) :=
  if a.keySize ≠ b.keySize then some none
  else (walk Prod.fst intersectBody (a.maxOffset + 1) a.nEntries 0 (a, b)).map fun s => some s.1

/-- The loop of `sen_set_difference` for one entry of `a`. -/
def differenceBody : SenSet × SenSet × Nat → Nat → List UInt8 → List UInt8 →
    Option (SenSet × SenSet × Nat)
  | (a, b, count), ep, key, _ =>
      (senSetAt b key).bind fun (b, r) =>
        match r with
        | some dp =>
            (senSetDel b dp).bind fun (_, b) =>
              (senSetDel a ep).map fun (_, a) => (a, b, count + 1)
        | none => some (a, b, count)

/-- `sen_set_difference`: the number of common keys, and the two sets without them. -/
def senSetDifference (a b : SenSet) : Option (Int × SenSet × SenSet) :=
  if a.keySize ≠ b.keySize then some (-1, a, b)
  else
    (walk Prod.fst differenceBody (a.maxOffset + 1) a.nEntries 0 (a, b, 0)).map
      fun (a, b, count) => ((count : Int), a, b)

/-- The key is in a slot before `ep`. -/
def SenSet.Met (set : SenSet) (ep : Nat) (key : List UInt8) : Prop :=
  ∃ q v, q < ep ∧ set.Finds q key v

section

variable {set : SenSet} {M : KeyMap} {V : List (Slot Entry)} {free : List Addr} {arr : Nat}
  {ep : Nat} {key value : List UInt8}

theorem SenSet.not_met_zero : ¬ set.Met 0 key := by
  rintro ⟨q, v, hlt, -⟩
  exact Nat.not_lt_zero q hlt

/-- A key that was met is in the map. -/
theorem SenSet.Inv.ne_none_of_met (h : set.Inv M V free arr) (hmet : set.Met ep key) :
    M key ≠ none := by
  obtain ⟨q, v, -, hq⟩ := hmet
  exact Option.ne_none_iff_exists'.mpr ⟨v, h.map_iff_finds.mpr ⟨q, hq⟩⟩

/-- The key in the slot `ep` is met for the first time there. -/
theorem SenSet.Inv.not_met (h : set.Inv M V free arr) (hfinds : set.Finds ep key value) :
    ¬ set.Met ep key := by
  rintro ⟨q, v, hlt, hq⟩
  exact hlt.ne (h.finds_inj hq hfinds)

/-- A slot without an entry is passed over. -/
theorem SenSet.met_skip (hslot : ∀ k v, ¬ set.Finds ep k v) :
    set.Met (ep + 1) key ↔ set.Met ep key := by
  constructor
  · rintro ⟨q, v, hlt, hq⟩
    rcases Nat.lt_or_eq_of_le (Nat.le_of_lt_succ hlt) with hlt' | rfl
    · exact ⟨q, v, hlt', hq⟩
    · exact absurd hq (hslot key v)
  · rintro ⟨q, v, hlt, hq⟩
    exact ⟨q, v, Nat.lt_succ_of_lt hlt, hq⟩

/-- The slot of `key` adds `key` to the keys that were met. -/
theorem SenSet.Inv.met_succ (h : set.Inv M V free arr) (hfinds : set.Finds ep key value)
    (k : List UInt8) : set.Met (ep + 1) k ↔ set.Met ep k ∨ k = key := by
  constructor
  · rintro ⟨q, v, hlt, hq⟩
    rcases Nat.lt_or_eq_of_le (Nat.le_of_lt_succ hlt) with hlt' | rfl
    · exact Or.inl ⟨q, v, hlt', hq⟩
    · obtain ⟨e, he, hkey, -⟩ := h.finds_iff.mp hfinds
      obtain ⟨e', he', hkey', -⟩ := h.finds_iff.mp hq
      obtain rfl := Slot.entry.inj (Option.some.inj (he.symm.trans he'))
      exact Or.inr (hkey'.symm.trans hkey)
  · rintro (⟨q, v, hlt, hq⟩ | rfl)
    · exact ⟨q, v, Nat.lt_succ_of_lt hlt, hq⟩
    · exact ⟨ep, value, Nat.lt_succ_self ep, hfinds⟩

end

/-- The set that is walked is, from the slot `ep` on, as it was at the beginning. -/
structure Walked (set₀ set : SenSet) (ep : Nat) : Prop where
  length : set.index.length = set₀.index.length
  resolved : ∀ (q : Nat) (a : Addr), set.index[q]? = some (.entry a) →
    ∃ e, set.cells a = .entry e
  finds : ∀ q k v, ep ≤ q → (set.Finds q k v ↔ set₀.Finds q k v)

/-- A set that no loop changes. -/
theorem SenSet.Inv.walked {set : SenSet} {M : KeyMap} {V : List (Slot Entry)} {free : List Addr}
    {arr : Nat} (h : set.Inv M V free arr) (ep : Nat) : Walked set set ep := by
  refine ⟨rfl, fun q a ha => ?_, fun _ _ _ _ => Iff.rfl⟩
  obtain ⟨e, -, he⟩ := h.views.of_entry ha
  exact ⟨e, he⟩

/-- **The walk.** What the body keeps from slot to slot holds at the end, and by then the walk has
met every entry. -/
theorem walk_spec {σ : Type} {walked : σ → SenSet}
    {body : σ → Nat → List UInt8 → List UInt8 → Option σ} {set₀ : SenSet} {M₀ : KeyMap}
    {V : List (Slot Entry)} {free : List Addr} {arr : Nat} (h₀ : set₀.Inv M₀ V free arr)
    {P : Nat → σ → Prop} (hwalked : ∀ ep s, P ep s → Walked set₀ (walked s) ep)
    (hskip : ∀ ep s, P ep s → (∀ k v, ¬ set₀.Finds ep k v) → P (ep + 1) s)
    (hbody : ∀ ep s k v, P ep s → set₀.Finds ep k v →
      ∃ s', body s ep k v = some s' ∧ P (ep + 1) s')
    (rest i ep : Nat) (s : σ) (h : P ep s) (hrest : ep + rest = V.length)
    (hi : i = (live (V.drop ep)).length) :
    ∃ s' ep', walk walked body rest i ep s = some s' ∧ P ep' s' ∧
      ∀ k, set₀.Met ep' k ↔ M₀ k ≠ none := by
  have hend {ep : Nat} (hnone : live (V.drop ep) = []) (k : List UInt8) :
      set₀.Met ep k ↔ M₀ k ≠ none := by
    refine ⟨h₀.ne_none_of_met, fun hne => ?_⟩
    obtain ⟨v, hv⟩ := Option.ne_none_iff_exists'.mp hne
    obtain ⟨q, hq⟩ := h₀.map_iff_finds.mp hv
    refine ⟨q, v, ?_, hq⟩
    by_contra hle
    obtain ⟨e, he, -⟩ := h₀.finds_iff.mp hq
    have hmem : e ∈ live (V.drop ep) := by
      refine mem_live.mpr ⟨q - ep, ?_⟩
      rw [List.getElem?_drop, Nat.add_sub_cancel' (not_lt.mp hle), he]
    rw [hnone] at hmem
    exact nomatch hmem
  induction rest generalizing i ep s with
  | zero =>
      have hnone : live (V.drop ep) = [] := by
        rw [List.drop_eq_nil_of_le (by omega)]
        rfl
      rw [hnone] at hi
      obtain rfl : i = 0 := hi
      exact ⟨s, ep, rfl, h, hend hnone⟩
  | succ rest ih =>
      cases i with
      | zero => exact ⟨s, ep, rfl, h, hend (List.eq_nil_of_length_eq_zero hi.symm)⟩
      | succ i =>
          have hlt : ep < V.length := by omega
          obtain ⟨hlength, hresolved, hfinds⟩ := hwalked ep s h
          have hlt' : ep < (walked s).index.length := by
            rw [hlength, h₀.views.length_eq]
            exact hlt
          have hdrop : V.drop ep = V[ep] :: V.drop (ep + 1) := List.drop_eq_getElem_cons hlt
          rw [walk, List.getElem?_eq_getElem hlt']
          -- the slot of the walked set and the slot of the table
          have hskipped (hslot : ∀ a, (walked s).index[ep] ≠ .entry a) :
              ∃ s' ep', walk walked body rest (i + 1) (ep + 1) s = some s' ∧ P ep' s' ∧
                ∀ k, set₀.Met ep' k ↔ M₀ k ≠ none := by
            have hempty : ∀ k v, ¬ set₀.Finds ep k v := by
              intro k v hq
              obtain ⟨a, e, ha, -⟩ := (hfinds ep k v le_rfl).mpr hq
              rw [List.getElem?_eq_getElem hlt'] at ha
              exact hslot a (Option.some.inj ha)
            apply ih (i + 1) (ep + 1) s (hskip ep s h hempty) (by omega)
            rw [hi, hdrop]
            cases hslot' : V[ep] with
            | null => rfl
            | garbage => rfl
            | entry e =>
                refine absurd (h₀.finds_iff.mpr ⟨e, ?_, rfl, rfl⟩) (hempty _ _)
                rw [List.getElem?_eq_getElem hlt, hslot']
          cases hslot : (walked s).index[ep] with
          | null => exact hskipped fun a ha => nomatch hslot.symm.trans ha
          | garbage => exact hskipped fun a ha => nomatch hslot.symm.trans ha
          | entry a =>
              have ha : (walked s).index[ep]? = some (.entry a) := by
                rw [List.getElem?_eq_getElem hlt', hslot]
              obtain ⟨e, he⟩ := hresolved ep a ha
              have hhere : set₀.Finds ep (keyOf (walked s).keySize e) e.value :=
                (hfinds ep _ _ le_rfl).mp ⟨a, e, ha, he, rfl, rfl⟩
              obtain ⟨s', hrun, h'⟩ := hbody ep s _ _ h hhere
              obtain ⟨e', he', -⟩ := h₀.finds_iff.mp hhere
              rw [List.getElem?_eq_getElem hlt] at he'
              simp only [he, hrun, Option.bind_some]
              apply ih i (ep + 1) s' h' (by omega)
              rw [hdrop, Option.some.inj he'] at hi
              exact Nat.succ.inj hi

/-- The places of the free list from `p` on. -/
def freePlaces (cells : Addr → Content) : Nat → Option Addr → List Addr
  | 0, _ => []
  | _ + 1, none => []
  | k + 1, some a =>
      match cells a with
      | .link next => a :: freePlaces cells k next
      | .entry _ => [a]

/-- The number of freed entries. -/
def Pool.freeCount (pool : Pool) : Nat := (freePlaces pool.cells (2 ^ 32) pool.garbages).length

/-- The number of entries that were carved from the chunks so far. -/
def Pool.carved (pool : Pool) : Nat := 256 * (2 ^ pool.currChunk - 1) + pool.boundary

/-- The free list, and the chunks up to one whose size fits into a word, have room for `m` new
entries. -/
def Pool.Room (pool : Pool) (m : Nat) : Prop :=
  m ≤ pool.freeCount ∨ ∃ c, pool.carved + m ≤ pool.freeCount + 256 * (2 ^ (c + 1) - 1) ∧
    pool.entrySize * (256 * 2 ^ c) < 2 ^ 32

theorem freePlaces_eq {cells : Addr → Content} {p : Option Addr} {L : List Addr}
    (h : FreeList cells p L) {k : Nat} (hk : L.length < k) : freePlaces cells k p = L := by
  induction L generalizing p k with
  | nil =>
      obtain rfl : p = none := h
      cases k with
      | zero => rfl
      | succ k => rfl
  | cons a L ih =>
      obtain ⟨rfl, next, hlink, hrest⟩ := h
      rw [List.length_cons] at hk
      cases k with
      | zero => omega
      | succ k =>
          rw [freePlaces]
          simp only [hlink]
          rw [ih hrest (by omega)]

namespace Pool.Storage

variable {pool pool' : Pool} {used used' free free' : List Addr} {arr : Nat}

theorem freeCount_eq (h : Storage pool used free arr) : pool.freeCount = free.length := by
  have hlt : free.length < 2 ^ 32 := by
    have hbalance := h.balance
    have hboundary := h.boundary_lt
    have hpow : 2 ^ pool.currChunk ≤ 2 ^ 21 := Nat.pow_le_pow_right (by decide) h.chunk_le
    have hmul := Nat.mul_le_mul_left arr h.entrySize_ge
    have harr := h.arr_lt
    omega
  rw [Pool.freeCount, freePlaces_eq h.freeList hlt]

/-- Room in terms of the entries in use. -/
theorem room_iff (h : Storage pool used free arr) {m : Nat} :
    pool.Room m ↔ m ≤ free.length ∨ ∃ c, used.length + m ≤ 256 * (2 ^ (c + 1) - 1) + arr ∧
      pool.entrySize * (256 * 2 ^ c) < 2 ^ 32 := by
  have hbalance := h.balance
  unfold Pool.Room Pool.carved
  rw [h.freeCount_eq]
  apply or_congr_right
  apply exists_congr
  intro c
  apply and_congr_left
  intro _
  omega

/-- With room for an entry, `entry_new` allocates no chunk whose size does not fit. -/
theorem fits_of_room (h : Storage pool used free arr) {m : Nat} (hroom : pool.Room (m + 1)) :
    pool.Fits := by
  intro hgarbages hchunk
  have hfree : free = [] := by
    have hlist := h.freeList
    rw [hgarbages] at hlist
    cases free with
    | nil => rfl
    | cons a L => exact nomatch hlist.1
  have hzero : pool.boundary = 0 := by
    by_contra hne
    exact h.started (Nat.pos_of_ne_zero hne) hchunk
  have hbalance := h.balance
  rw [hfree, hzero, List.length_nil] at hbalance
  rcases h.room_iff.mp hroom with hle | ⟨c, hle, hfits⟩
  · rw [hfree, List.length_nil] at hle
    omega
  · have hc : pool.currChunk ≤ c := by
      by_contra hlt
      have hpow : 2 ^ (c + 1) ≤ 2 ^ pool.currChunk := Nat.pow_le_pow_right (by decide) (by omega)
      omega
    have hpow : 2 ^ pool.currChunk ≤ 2 ^ c := Nat.pow_le_pow_right (by decide) hc
    exact lt_of_le_of_lt (Nat.mul_le_mul_left _ (Nat.mul_le_mul_left _ hpow)) hfits

/-- After a new entry there is room for one less. -/
theorem room_pred (h : Storage pool used free arr) (h' : Storage pool' used' free' arr)
    (hused : used'.length = used.length + 1) (hfree : free'.length = free.length - 1)
    (hsize : pool'.entrySize = pool.entrySize) {m : Nat} (hroom : pool.Room (m + 1)) :
    pool'.Room m := by
  apply h'.room_iff.mpr
  rw [hsize]
  rcases h.room_iff.mp hroom with hle | ⟨c, hle, hfits⟩
  · exact Or.inl (by omega)
  · exact Or.inr ⟨c, by omega, hfits⟩

end Pool.Storage

/-- The map of a union: the values of `M₁` come first. -/
def KeyMap.union (M₁ M₂ : KeyMap) : KeyMap := fun k => M₁ k <|> M₂ k

/-- `M₁` without the keys of `M₂`. -/
def KeyMap.subtract (M₁ M₂ : KeyMap) : KeyMap := fun k => if (M₂ k).isSome then none else M₁ k

/-- `M₁` with the keys of `M₂` only. -/
def KeyMap.intersect (M₁ M₂ : KeyMap) : KeyMap := fun k => if (M₂ k).isSome then M₁ k else none

/-- The set has room for the keys of `M₂` that its own map `M₁` lacks. -/
def SenSet.RoomFor (set : SenSet) (M₁ M₂ : KeyMap) : Prop :=
  ∀ keys : List (List UInt8), keys.Nodup → (∀ k ∈ keys, M₂ k ≠ none ∧ M₁ k = none) →
    set.toPool.Room keys.length

/-- The set stands for the map. -/
def SenSet.Stands (set : SenSet) (M : KeyMap) : Prop := ∃ V free arr, set.Inv M V free arr

section

variable {set set' : SenSet} {M M' : KeyMap} {V V' : List (Slot Entry)} {free free' : List Addr}
  {arr arr' : Nat} {key value : List UInt8}

/-- A key in a slot is one of the set's class. -/
theorem SenSet.Inv.keyOk (h : set.Inv M V free arr) {p : Nat} (hp : set.Finds p key value) :
    KeyOk set.keySize key := by
  obtain ⟨e, he, rfl, -⟩ := h.finds_iff.mp hp
  exact (h.distinct.ok e (mem_live.mpr ⟨p, he⟩)).key

/-- Two sets with the same keys have the same number of entries. -/
theorem SenSet.Counts.congr (h : set.Counts M) (h' : set'.Counts M')
    (hsome : ∀ k, (M' k).isSome = (M k).isSome) : set'.nEntries = set.nEntries := by
  obtain ⟨keys, hnodup, hkeys, hlen⟩ := h
  obtain ⟨keys', hnodup', hkeys', hlen'⟩ := h'
  have hperm : keys'.Perm keys := by
    apply (List.perm_ext_iff_of_nodup hnodup' hnodup).mpr
    intro k
    rw [hkeys', hkeys, hsome]
  rw [hlen, hlen', hperm.length_eq]

/-- A new key is one more entry. -/
theorem SenSet.Counts.insert (h : set.Counts M) (hnew : M key = none)
    (h' : set'.Counts (Function.update M key (some value))) :
    set'.nEntries = set.nEntries + 1 := by
  obtain ⟨keys, hnodup, hkeys, hlen⟩ := h
  obtain ⟨keys', hnodup', hkeys', hlen'⟩ := h'
  have hnot : key ∉ keys := by
    rw [hkeys, hnew]
    exact Bool.false_ne_true
  have hperm : keys'.Perm (key :: keys) := by
    apply (List.perm_ext_iff_of_nodup hnodup' (List.nodup_cons.mpr ⟨hnot, hnodup⟩)).mpr
    intro k
    rw [hkeys', List.mem_cons]
    by_cases hk : k = key
    · rw [hk, Function.update_self]
      exact ⟨fun _ => Or.inl rfl, fun _ => rfl⟩
    · rw [Function.update_of_ne hk, hkeys]
      exact ⟨Or.inr, fun hor => hor.resolve_left hk⟩
  rw [hlen', hperm.length_eq, List.length_cons, hlen]

theorem SenSet.Inv.used_length (h : set.Inv M V free arr) :
    (live set.index).length = set.nEntries :=
  h.views.counts.1.trans h.count.symm

/-- Room depends on the numbers of entries in use and freed. -/
theorem SenSet.Inv.room_congr (h : set.Inv M V free arr) (h' : set'.Inv M' V' free arr)
    (hcount : set'.nEntries = set.nEntries) (hsize : set'.entrySize = set.entrySize) {m : Nat} :
    set'.toPool.Room m ↔ set.toPool.Room m := by
  rw [h.storage.room_iff, h'.storage.room_iff, h.used_length, h'.used_length, hcount, hsize]

end

/-- **One key of a union.** The key is added with `b`'s value unless it was there. -/
theorem unionBody_spec {a : SenSet} {M : KeyMap} {V : List (Slot Entry)} {free : List Addr}
    {arr : Nat} (h : a.Inv M V free arr) {key : List UInt8} (hkey : KeyOk a.keySize key)
    (hroom : M key = none → a.toPool.Room 1) (b : SenSet) (ep : Nat) (vb : List UInt8) :
    ∃ a' V' free', unionBody (a, b) ep key vb = some (a', b) ∧
      a'.Inv (Function.update M key (some ((M key).getD vb))) V' free' arr ∧ a'.Alike a ∧
      (∀ m, M key ≠ none → a.toPool.Room m → a'.toPool.Room m) ∧
      ∀ m, M key = none → a.toPool.Room (m + 1) → a'.toPool.Room m := by
  obtain ⟨a₁, r, V₁, hat, h₁, halike₁, -, hnone, hsome⟩ := h.senSetAt hkey
  have hcount₁ : a₁.nEntries = a.nEntries := h.counts.congr h₁.counts fun _ => rfl
  have hroom₁ {m : Nat} : a₁.toPool.Room m ↔ a.toPool.Room m :=
    h.room_congr h₁ hcount₁ halike₁.entrySize
  unfold unionBody
  simp only [hat, Option.bind_some]
  cases hM : M key with
  | some v =>
      obtain ⟨p, rfl, -⟩ := hsome v hM
      rw [Option.getD_some, ← hM, Function.update_eq_self]
      exact ⟨a₁, V₁, free, rfl, h₁, halike₁, fun m _ => hroom₁.mpr,
        fun m hnone => nomatch hM.symm.trans hnone⟩
  | none =>
      obtain rfl := hnone hM
      have hfits : a₁.toPool.Fits := h₁.storage.fits_of_room (hroom₁.mpr (hroom hM))
      obtain ⟨a₂, p, V₂, free', hget, h₂, halike₂, hfinds, -, hfree⟩ :=
        h₁.senSetGet (fun _ => hfits) (halike₁.keySize ▸ hkey)
      rw [hM, Option.getD_none] at h₂ hfinds
      obtain ⟨a₃, V₃, hset, h₃, halike₃, -, -, -⟩ := h₂.setValue hfinds vb
      rw [Function.update_idem] at h₃
      have hcount₂ : a₂.nEntries = a₁.nEntries + 1 := h₁.counts.insert hM h₂.counts
      have hcount₃ : a₃.nEntries = a₂.nEntries := by
        apply h₂.counts.congr h₃.counts
        intro k
        by_cases hk : k = key
        · rw [hk, Function.update_self, Function.update_self]
          rfl
        · rw [Function.update_of_ne hk, Function.update_of_ne hk]
      refine ⟨a₃, V₃, free', ?_, ?_, halike₃.trans (halike₂.trans halike₁),
        fun m hne => absurd rfl hne, fun m _ hm => ?_⟩
      · simp only [Option.isSome_none, Bool.false_eq_true, if_false, hget, Option.bind_some, hset,
          Option.map_some]
      · rw [Option.getD_none]
        exact h₃
      · apply (h₂.room_congr h₃ hcount₃ halike₃.entrySize).mpr
        apply h₁.storage.room_pred h₂.storage ?_ (hfree hM) halike₂.entrySize (hroom₁.mpr hm)
        rw [h₁.used_length, h₂.used_length, hcount₂]

/-- **Union.** With room for the keys that `a` lacks, `sen_set_union` returns `a` with the keys of
both sets. -/
theorem senSetUnion_spec {a b : SenSet} {Ma Mb : KeyMap} (ha : a.Stands Ma) (hb : b.Stands Mb)
    (hkeySize : a.keySize = b.keySize) (hvalueSize : a.valueSize = b.valueSize)
    (hroom : a.RoomFor Ma Mb) :
    ∃ a', senSetUnion a b = some (some a') ∧ a'.Stands (Ma.union Mb) ∧ a'.Alike a := by
  obtain ⟨Va, fa, na, ha⟩ := ha
  obtain ⟨Vb, fb, nb, hb⟩ := hb
  -- the keys of `b` that were met are in, with room for the others
  let P (ep : Nat) (s : SenSet × SenSet) : Prop :=
    s.2 = b ∧ s.1.Alike a ∧
      (∃ M V free arr, s.1.Inv M V free arr ∧
        ∀ k, (b.Met ep k → M k = Ma.union Mb k) ∧ (¬ b.Met ep k → M k = Ma k)) ∧
      ∀ keys : List (List UInt8), keys.Nodup →
        (∀ k ∈ keys, (Mb k ≠ none ∧ Ma k = none) ∧ ¬ b.Met ep k) → s.1.toPool.Room keys.length
  have hstart : P 0 (a, b) := by
    refine ⟨rfl, .refl a, ⟨Ma, Va, fa, na, ha, fun k => ?_⟩, fun keys hnodup hkeys => ?_⟩
    · exact ⟨fun hmet => absurd hmet SenSet.not_met_zero, fun _ => rfl⟩
    · exact hroom keys hnodup fun k hk => (hkeys k hk).1
  have hwalked : ∀ ep s, P ep s → Walked b s.2 ep := by
    rintro ep s ⟨hs, -⟩
    rw [hs]
    exact hb.walked ep
  have hskip : ∀ ep s, P ep s → (∀ k v, ¬ b.Finds ep k v) → P (ep + 1) s := by
    rintro ep s ⟨hs, halike, hmap, hroom⟩ hslot
    refine ⟨hs, halike, ?_, ?_⟩
    · simpa only [SenSet.met_skip hslot] using hmap
    · simpa only [SenSet.met_skip hslot] using hroom
  have hbody : ∀ ep s k v, P ep s → b.Finds ep k v →
      ∃ s', unionBody s ep k v = some s' ∧ P (ep + 1) s' := by
    rintro ep ⟨a', b'⟩ key v ⟨rfl, halike, ⟨M, V, free, arr, hinv, hmap⟩, hroom⟩ hfinds
    have hnot : ¬ b'.Met ep key := hb.not_met hfinds
    have hMb : Mb key = some v := hb.map_iff_finds.mpr ⟨ep, hfinds⟩
    have hM : M key = Ma key := (hmap key).2 hnot
    have hkey : KeyOk a'.keySize key := by
      rw [halike.keySize, hkeySize]
      exact hb.keyOk hfinds
    have hlacks (hnone : M key = none) : (Mb key ≠ none ∧ Ma key = none) ∧ ¬ b'.Met ep key :=
      ⟨⟨by rw [hMb]; exact nofun, hM.symm.trans hnone⟩, hnot⟩
    have hone (hnone : M key = none) : a'.toPool.Room 1 := by
      apply hroom [key] (List.nodup_singleton key)
      intro k hk
      rw [List.mem_singleton.mp hk]
      exact hlacks hnone
    obtain ⟨a'', V', free', hrun, hinv', halike', hkept, hused⟩ :=
      unionBody_spec hinv hkey hone b' ep v
    refine ⟨(a'', b'), hrun, rfl, halike'.trans halike, ⟨_, V', free', arr, hinv', fun k => ?_⟩,
      fun keys hnodup hkeys => ?_⟩
    · rw [hb.met_succ hfinds]
      by_cases heq : k = key
      · subst heq
        refine ⟨fun _ => ?_, fun hneither => absurd (Or.inr rfl) hneither⟩
        rw [Function.update_self, hM, KeyMap.union, hMb]
        cases Ma k <;> rfl
      · rw [Function.update_of_ne heq, or_iff_left heq]
        exact hmap k
    · have hfresh : key ∉ keys :=
        fun hmem => (hkeys key hmem).2 ((hb.met_succ hfinds key).mpr (Or.inr rfl))
      have hbefore : ∀ k ∈ keys, (Mb k ≠ none ∧ Ma k = none) ∧ ¬ b'.Met ep k := by
        intro k hk
        obtain ⟨hlack, hlater⟩ := hkeys k hk
        exact ⟨hlack, fun hmet => hlater ((hb.met_succ hfinds k).mpr (Or.inl hmet))⟩
      by_cases hnone : M key = none
      · apply hused _ hnone
        apply hroom (key :: keys) (List.nodup_cons.mpr ⟨hfresh, hnodup⟩)
        exact List.forall_mem_cons.mpr ⟨hlacks hnone, hbefore⟩
      · exact hkept _ hnone (hroom keys hnodup hbefore)
  obtain ⟨⟨a', b'⟩, ep', hrun, ⟨-, halike, ⟨M, V, free, arr, hinv, hmap⟩, -⟩, hdone⟩ :=
    walk_spec hb (P := P) hwalked hskip hbody (b.maxOffset + 1) b.nEntries 0 (a, b) hstart
      (by rw [hb.length, Nat.zero_add]) (by rw [List.drop_zero]; exact hb.count)
  have hM : M = Ma.union Mb := by
    funext k
    by_cases hk : b.Met ep' k
    · exact (hmap k).1 hk
    · rw [(hmap k).2 hk, KeyMap.union, not_not.mp fun hne => hk ((hdone k).mpr hne)]
      cases Ma k <;> rfl
  refine ⟨a', ?_, ⟨V, free, arr, hM ▸ hinv⟩, halike⟩
  rw [senSetUnion, if_neg (by rw [hkeySize, hvalueSize]; simp), hrun, Option.map_some]

/-- `M` is `M₀` without the keys in `D`. -/
def KeyMap.Without (M₀ M : KeyMap) (D : List UInt8 → Prop) : Prop :=
  ∀ k, (D k → M k = none) ∧ (¬ D k → M k = M₀ k)

section

variable {M₀ M : KeyMap} {D D' : List UInt8 → Prop} {key : List UInt8}

theorem KeyMap.without_of_empty (hD : ∀ k, ¬ D k) : M₀.Without M₀ D :=
  fun k => ⟨fun h => absurd h (hD k), fun _ => rfl⟩

theorem KeyMap.Without.congr (h : M₀.Without M D) (hD : ∀ k, D' k ↔ D k) : M₀.Without M D' := by
  intro k
  rw [hD]
  exact h k

theorem KeyMap.Without.remove (h : M₀.Without M D) (hD : ∀ k, D' k ↔ D k ∨ k = key) :
    M₀.Without (Function.update M key none) D' := by
  intro k
  rw [hD]
  by_cases heq : k = key
  · rw [heq, Function.update_self]
    exact ⟨fun _ => rfl, fun hneither => absurd (Or.inr rfl) hneither⟩
  · rw [Function.update_of_ne heq, or_iff_left heq]
    exact h k

/-- What is left of a map without the keys of another. -/
theorem KeyMap.Without.eq_subtract {M₁ : KeyMap} (h : M₀.Without M D)
    (hD : ∀ k, M₀ k ≠ none → (D k ↔ M₁ k ≠ none)) (hD' : ∀ k, D k → M₁ k ≠ none) :
    M = M₀.subtract M₁ := by
  funext k
  show M k = if (M₁ k).isSome then none else M₀ k
  split_ifs with hk
  · by_cases hDk : D k
    · exact (h k).1 hDk
    · rw [(h k).2 hDk]
      by_contra hne
      exact hDk ((hD k hne).mpr (Option.isSome_iff_ne_none.mp hk))
  · exact (h k).2 fun hDk => hk (Option.isSome_iff_ne_none.mpr (hD' k hDk))

/-- What is left of a map without the keys that another lacks. -/
theorem KeyMap.Without.eq_intersect {M₁ : KeyMap} (h : M₀.Without M D)
    (hD : ∀ k, D k ↔ M₀ k ≠ none ∧ M₁ k = none) : M = M₀.intersect M₁ := by
  funext k
  show M k = if (M₁ k).isSome then M₀ k else none
  split_ifs with hk
  · exact (h k).2 fun hDk => Option.isSome_iff_ne_none.mp hk ((hD k).mp hDk).2
  · have hnone : M₁ k = none := Option.not_isSome_iff_eq_none.mp hk
    by_cases hDk : D k
    · exact (h k).1 hDk
    · rw [(h k).2 hDk]
      exact not_not.mp fun hne => hDk ((hD k).mpr ⟨hne, hnone⟩)

end

/-- **One key of a subtraction.** The key is taken out if it was there. -/
theorem subtractBody_spec {a : SenSet} {M : KeyMap} {V : List (Slot Entry)} {free : List Addr}
    {arr : Nat} (h : a.Inv M V free arr) {key : List UInt8} (hkey : KeyOk a.keySize key)
    (b : SenSet) (ep : Nat) (vb : List UInt8) :
    ∃ a' V' free', subtractBody (a, b) ep key vb = some (a', b) ∧
      a'.Inv (Function.update M key none) V' free' arr ∧ a'.Alike a := by
  obtain ⟨a₁, r, V₁, hat, h₁, halike₁, -, hnone, hsome⟩ := h.senSetAt hkey
  unfold subtractBody
  simp only [hat, Option.bind_some]
  cases hM : M key with
  | none =>
      obtain rfl := hnone hM
      rw [← hM, Function.update_eq_self]
      exact ⟨a₁, V₁, free, rfl, h₁, halike₁⟩
  | some v =>
      obtain ⟨p, rfl, hfinds⟩ := hsome v hM
      obtain ⟨a₂, V₂, free', hdel, h₂, halike₂, -⟩ := h₁.senSetDel hfinds
      refine ⟨a₂, V₂, free', ?_, h₂, halike₂.trans halike₁⟩
      simp only [hdel, Option.map_some]

/-- The deletion does not move the index. -/
theorem senSetDel_length {set set' : SenSet} {p : Nat} {rc : SenRc}
    (h : senSetDel set p = some (rc, set')) : set'.index.length = set.index.length := by
  unfold senSetDel at h
  split at h
  · exact nomatch h
  · obtain ⟨-, rfl⟩ := Prod.mk.inj (Option.some.inj h)
    rfl
  · exact nomatch h
  · obtain ⟨-, rfl⟩ := Prod.mk.inj (Option.some.inj h)
    exact List.length_set

/-- A walk may go on to the next slot. -/
theorem Walked.succ {set₀ set : SenSet} {ep : Nat} (h : Walked set₀ set ep) :
    Walked set₀ set (ep + 1) :=
  ⟨h.length, h.resolved, fun q k v hle => h.finds q k v (Nat.le_of_succ_le hle)⟩

/-- A walk may delete the slot it is at. -/
theorem Walked.delete {set₀ set : SenSet} {M₀ M : KeyMap} {V₀ V : List (Slot Entry)}
    {free₀ free : List Addr} {arr₀ arr ep : Nat} {key value : List UInt8}
    (h : Walked set₀ set ep) (h₀ : set₀.Inv M₀ V₀ free₀ arr₀) (hinv : set.Inv M V free arr)
    (hfinds : set₀.Finds ep key value) :
    ∃ set' V' free', senSetDel set ep = some (.success, set') ∧
      set'.Inv (Function.update M key none) V' free' arr ∧ set'.Alike set ∧
      Walked set₀ set' (ep + 1) := by
  have hhere := (h.finds ep key value le_rfl).mpr hfinds
  obtain ⟨set', V', free', hdel, hinv', halike, -, hothers⟩ := hinv.senSetDel hhere
  refine ⟨set', V', free', hdel, hinv', halike, (senSetDel_length hdel).trans h.length, ?_, ?_⟩
  · exact (hinv'.walked ep).resolved
  · intro q k v hle
    by_cases hk : k = key
    · subst hk
      constructor
      · intro hq
        have hmap := hinv'.map_iff_finds.mpr ⟨q, hq⟩
        rw [Function.update_self] at hmap
        exact nomatch hmap
      · intro hq
        have hsame := h₀.finds_inj hfinds hq
        omega
    · rw [hothers q k v hk]
      exact h.finds q k v (Nat.le_of_succ_le hle)

/-- **Subtraction.** `sen_set_subtract` returns `a` without the keys of `b`. -/
theorem senSetSubtract_spec {a b : SenSet} {Ma Mb : KeyMap} (ha : a.Stands Ma) (hb : b.Stands Mb)
    (hkeySize : a.keySize = b.keySize) :
    ∃ a', senSetSubtract a b = some (some a') ∧ a'.Stands (Ma.subtract Mb) ∧ a'.Alike a := by
  obtain ⟨Va, fa, na, ha⟩ := ha
  obtain ⟨Vb, fb, nb, hb⟩ := hb
  -- the keys of `b` that were met are out
  let P (ep : Nat) (s : SenSet × SenSet) : Prop :=
    s.2 = b ∧ s.1.Alike a ∧ ∃ M V free arr, s.1.Inv M V free arr ∧ Ma.Without M (b.Met ep)
  have hstart : P 0 (a, b) :=
    ⟨rfl, .refl a, Ma, Va, fa, na, ha, KeyMap.without_of_empty fun _ => SenSet.not_met_zero⟩
  have hwalked : ∀ ep s, P ep s → Walked b s.2 ep := by
    rintro ep s ⟨hs, -⟩
    rw [hs]
    exact hb.walked ep
  have hskip : ∀ ep s, P ep s → (∀ k v, ¬ b.Finds ep k v) → P (ep + 1) s := by
    rintro ep s ⟨hs, halike, M, V, free, arr, hinv, hmap⟩ hslot
    exact ⟨hs, halike, M, V, free, arr, hinv, hmap.congr fun k => SenSet.met_skip hslot⟩
  have hbody : ∀ ep s k v, P ep s → b.Finds ep k v →
      ∃ s', subtractBody s ep k v = some s' ∧ P (ep + 1) s' := by
    rintro ep ⟨a', b'⟩ key v ⟨rfl, halike, M, V, free, arr, hinv, hmap⟩ hfinds
    have hkey : KeyOk a'.keySize key := by
      rw [halike.keySize, hkeySize]
      exact hb.keyOk hfinds
    obtain ⟨a'', V', free', hrun, hinv', halike'⟩ := subtractBody_spec hinv hkey b' ep v
    exact ⟨(a'', b'), hrun, rfl, halike'.trans halike, _, V', free', arr, hinv',
      hmap.remove (hb.met_succ hfinds)⟩
  obtain ⟨⟨a', b'⟩, ep', hrun, ⟨-, halike, M, V, free, arr, hinv, hmap⟩, hdone⟩ :=
    walk_spec hb (P := P) hwalked hskip hbody (b.maxOffset + 1) b.nEntries 0 (a, b) hstart
      (by rw [hb.length, Nat.zero_add]) (by rw [List.drop_zero]; exact hb.count)
  have hM : M = Ma.subtract Mb := hmap.eq_subtract (fun k _ => hdone k) fun k => (hdone k).mp
  refine ⟨a', ?_, ⟨V, free, arr, hM ▸ hinv⟩, halike⟩
  rw [senSetSubtract, if_neg (not_not.mpr hkeySize), hrun, Option.map_some]

/-- **Intersection.** `sen_set_intersect` returns `a` with the keys of `b` only. -/
theorem senSetIntersect_spec {a b : SenSet} {Ma Mb : KeyMap} (ha : a.Stands Ma)
    (hb : b.Stands Mb) (hkeySize : a.keySize = b.keySize) :
    ∃ a', senSetIntersect a b = some (some a') ∧ a'.Stands (Ma.intersect Mb) ∧ a'.Alike a := by
  obtain ⟨Va, fa, na, ha⟩ := ha
  obtain ⟨Vb, fb, nb, hb⟩ := hb
  -- the keys that were met and that `b` lacks are out
  let P (ep : Nat) (s : SenSet × SenSet) : Prop :=
    Walked a s.1 ep ∧ s.1.Alike a ∧ s.2.Alike b ∧ s.2.Stands Mb ∧
      ∃ M V free arr, s.1.Inv M V free arr ∧ Ma.Without M fun k => a.Met ep k ∧ Mb k = none
  have hstart : P 0 (a, b) :=
    ⟨ha.walked 0, .refl a, .refl b, ⟨Vb, fb, nb, hb⟩, Ma, Va, fa, na, ha,
      KeyMap.without_of_empty fun _ h => SenSet.not_met_zero h.1⟩
  have hskip : ∀ ep s, P ep s → (∀ k v, ¬ a.Finds ep k v) → P (ep + 1) s := by
    rintro ep s ⟨hwalked, halike, halikeb, hb, M, V, free, arr, hinv, hmap⟩ hslot
    exact ⟨hwalked.succ, halike, halikeb, hb, M, V, free, arr, hinv,
      hmap.congr fun k => and_congr_left fun _ => SenSet.met_skip hslot⟩
  have hbody : ∀ ep s k v, P ep s → a.Finds ep k v →
      ∃ s', intersectBody s ep k v = some s' ∧ P (ep + 1) s' := by
    rintro ep ⟨a', b'⟩ key v
      ⟨hwalked, halike, halikeb, ⟨Vb', fb', nb', hb'⟩, M, V, free, arr, hinv, hmap⟩ hfinds
    have hkey : KeyOk b'.keySize key := by
      rw [halikeb.keySize, ← hkeySize]
      exact ha.keyOk hfinds
    obtain ⟨b'', r, Vb'', hat, hb'', halikeb', -, hnone, hsome⟩ := hb'.senSetAt hkey
    have hmet := ha.met_succ hfinds
    unfold intersectBody
    simp only [hat, Option.bind_some]
    cases hM : Mb key with
    | some v' =>
        obtain ⟨p, rfl, -⟩ := hsome v' hM
        refine ⟨(a', b''), rfl, hwalked.succ, halike, halikeb'.trans halikeb,
            ⟨Vb'', fb', nb', hb''⟩,
          M, V, free, arr, hinv, hmap.congr fun k => ?_⟩
        apply and_congr_left
        intro hlacks
        rw [hmet, or_iff_left]
        intro heq
        rw [heq, hM] at hlacks
        exact nomatch hlacks
    | none =>
        obtain rfl := hnone hM
        obtain ⟨a'', V', free', hdel, hinv', halike', hwalked'⟩ := hwalked.delete ha hinv hfinds
        refine ⟨(a'', b''), ?_, hwalked', halike'.trans halike, halikeb'.trans halikeb,
          ⟨Vb'', fb', nb', hb''⟩, _, V', free', arr, hinv', hmap.remove fun k => ?_⟩
        · simp only [Option.isSome_none, Bool.false_eq_true, if_false, hdel, Option.map_some]
        · rw [hmet, or_and_right]
          apply or_congr_right
          exact and_iff_left_of_imp fun heq => heq ▸ hM
  obtain ⟨⟨a', b'⟩, ep', hrun, ⟨-, halike, -, -, M, V, free, arr, hinv, hmap⟩, hdone⟩ :=
    walk_spec ha (P := P) (fun ep s h => h.1) hskip hbody (a.maxOffset + 1) a.nEntries 0 (a, b)
      hstart (by rw [ha.length, Nat.zero_add]) (by rw [List.drop_zero]; exact ha.count)
  have hM : M = Ma.intersect Mb := hmap.eq_intersect fun k => and_congr_left fun _ => hdone k
  refine ⟨a', ?_, ⟨V, free, arr, hM ▸ hinv⟩, halike⟩
  rw [senSetIntersect, if_neg (not_not.mpr hkeySize), hrun, Option.map_some]

/-- **Difference.** `sen_set_difference` leaves in each set the keys that the other lacks, and
returns the number of the others. -/
theorem senSetDifference_spec {a b : SenSet} {Ma Mb : KeyMap} (ha : a.Stands Ma)
    (hb : b.Stands Mb) (hkeySize : a.keySize = b.keySize) :
    ∃ (keys : List (List UInt8)) (a' b' : SenSet),
      senSetDifference a b = some ((keys.length : Int), a', b') ∧ keys.Nodup ∧
        (∀ k, k ∈ keys ↔ Ma k ≠ none ∧ Mb k ≠ none) ∧
        a'.Stands (Ma.subtract Mb) ∧ b'.Stands (Mb.subtract Ma) ∧ a'.Alike a ∧ b'.Alike b := by
  obtain ⟨Va, fa, na, ha⟩ := ha
  obtain ⟨Vb, fb, nb, hb⟩ := hb
  -- the common keys that were met are out of both sets, and counted
  let D (ep : Nat) (k : List UInt8) : Prop := a.Met ep k ∧ Mb k ≠ none
  let P (ep : Nat) (s : SenSet × SenSet × Nat) : Prop :=
    Walked a s.1 ep ∧ s.1.Alike a ∧ s.2.1.Alike b ∧
      (∃ M V free arr, s.1.Inv M V free arr ∧ Ma.Without M (D ep)) ∧
      (∃ M V free arr, s.2.1.Inv M V free arr ∧ Mb.Without M (D ep)) ∧
      ∃ keys : List (List UInt8), keys.Nodup ∧ s.2.2 = keys.length ∧ ∀ k, k ∈ keys ↔ D ep k
  have hempty (k : List UInt8) : ¬ D 0 k := fun h => SenSet.not_met_zero h.1
  have hstart : P 0 (a, b, 0) :=
    ⟨ha.walked 0, .refl a, .refl b, ⟨Ma, Va, fa, na, ha, KeyMap.without_of_empty hempty⟩,
      ⟨Mb, Vb, fb, nb, hb, KeyMap.without_of_empty hempty⟩, [], List.nodup_nil, rfl,
      fun k => ⟨nofun, fun h => absurd h (hempty k)⟩⟩
  have hskip : ∀ ep s, P ep s → (∀ k v, ¬ a.Finds ep k v) → P (ep + 1) s := by
    rintro ep s ⟨hwalked, halike, halikeb, ⟨M, V, free, arr, hinv, hmap⟩,
      ⟨N, Vb', fb', nb', hinvb, hmapb⟩, keys, hnodup, hcount, hkeys⟩ hslot
    have hD (k : List UInt8) : D (ep + 1) k ↔ D ep k := and_congr_left fun _ =>
        SenSet.met_skip hslot
    exact ⟨hwalked.succ, halike, halikeb, ⟨M, V, free, arr, hinv, hmap.congr hD⟩,
      ⟨N, Vb', fb', nb', hinvb, hmapb.congr hD⟩, keys, hnodup, hcount,
      fun k => (hkeys k).trans (hD k).symm⟩
  have hbody : ∀ ep s k v, P ep s → a.Finds ep k v →
      ∃ s', differenceBody s ep k v = some s' ∧ P (ep + 1) s' := by
    rintro ep ⟨a', b', count⟩ key v ⟨hwalked, halike, halikeb, ⟨M, V, free, arr, hinv, hmap⟩,
      ⟨N, Vb', fb', nb', hinvb, hmapb⟩, keys, hnodup, hcount, hkeys⟩ hfinds
    have hkey : KeyOk b'.keySize key := by
      rw [halikeb.keySize, ← hkeySize]
      exact ha.keyOk hfinds
    have hnot : ¬ D ep key := fun h => ha.not_met hfinds h.1
    have hN : N key = Mb key := (hmapb key).2 hnot
    obtain ⟨b₁, r, Vb₁, hat, hb₁, halikeb₁, -, hnone, hsome⟩ := hinvb.senSetAt hkey
    unfold differenceBody
    simp only [hat, Option.bind_some]
    cases hMb : Mb key with
    | none =>
        obtain rfl := hnone (hN.trans hMb)
        have hD (k : List UInt8) : D (ep + 1) k ↔ D ep k := by
          apply and_congr_left
          intro hne
          rw [ha.met_succ hfinds, or_iff_left]
          rintro rfl
          exact hne hMb
        exact ⟨(a', b₁, count), rfl, hwalked.succ, halike, halikeb₁.trans halikeb,
          ⟨M, V, free, arr, hinv, hmap.congr hD⟩, ⟨N, Vb₁, fb', nb', hb₁, hmapb.congr hD⟩,
          keys, hnodup, hcount, fun k => (hkeys k).trans (hD k).symm⟩
    | some v' =>
        obtain ⟨dp, rfl, hfindsb⟩ := hsome v' (hN.trans hMb)
        obtain ⟨b₂, Vb₂, fb₂, hdelb, hb₂, halikeb₂, -⟩ := hb₁.senSetDel hfindsb
        obtain ⟨a₁, V₁, f₁, hdel, ha₁, halike₁, hwalked₁⟩ := hwalked.delete ha hinv hfinds
        have hD (k : List UInt8) : D (ep + 1) k ↔ D ep k ∨ k = key := by
          show a.Met (ep + 1) k ∧ Mb k ≠ none ↔ (a.Met ep k ∧ Mb k ≠ none) ∨ k = key
          rw [ha.met_succ hfinds, or_and_right]
          apply or_congr_right
          exact and_iff_left_of_imp fun heq => Option.ne_none_iff_exists'.mpr ⟨v', heq ▸ hMb⟩
        refine ⟨(a₁, b₂, count + 1), ?_, hwalked₁, halike₁.trans halike,
          (halikeb₂.trans halikeb₁).trans halikeb, ⟨_, V₁, f₁, arr, ha₁, hmap.remove hD⟩,
          ⟨_, Vb₂, fb₂, nb', hb₂, hmapb.remove hD⟩, key :: keys,
          List.nodup_cons.mpr ⟨fun hmem => hnot ((hkeys key).mp hmem), hnodup⟩,
          congrArg (· + 1) hcount, fun k => ?_⟩
        · simp only [hdelb, Option.bind_some, hdel, Option.map_some]
        · rw [hD, List.mem_cons, hkeys, or_comm]
  obtain ⟨⟨a', b', count⟩, ep', hrun, ⟨-, halike, halikeb, ⟨M, V, free, arr, hinv, hmap⟩,
      ⟨N, Vb', fb', nb', hinvb, hmapb⟩, keys, hnodup, hcount, hkeys⟩, hdone⟩ :=
    walk_spec ha (P := P) (fun ep s h => h.1) hskip hbody (a.maxOffset + 1) a.nEntries 0 (a, b, 0)
      hstart (by rw [ha.length, Nat.zero_add]) (by rw [List.drop_zero]; exact ha.count)
  have hD (k : List UInt8) : D ep' k ↔ Ma k ≠ none ∧ Mb k ≠ none :=
    and_congr_left fun _ => hdone k
  have hM : M = Ma.subtract Mb :=
    hmap.eq_subtract (fun k hne => (hD k).trans (and_iff_right hne)) fun k h => h.2
  have hN : N = Mb.subtract Ma :=
    hmapb.eq_subtract (fun k hne => (hD k).trans (and_iff_left hne)) fun k h => ((hD k).mp h).1
  refine ⟨keys, a', b', ?_, hnodup, fun k => (hkeys k).trans (hD k), ⟨V, free, arr, hM ▸ hinv⟩,
    ⟨Vb', fb', nb', hN ▸ hinvb⟩, halike, halikeb⟩
  have hcount : count = keys.length := hcount
  rw [senSetDifference, if_neg (not_not.mpr hkeySize), hrun, Option.map_some, hcount]

/-- The sets that the operations of this module and the others build, and the maps that they
stand for. A union needs room for the keys that its first set lacks. -/
inductive Built : SenSet → KeyMap → Prop
  | opened {keySize valueSize initSize : Nat} (hsizes : Sizes keySize valueSize initSize) :
      Built (senSetOpen keySize valueSize initSize) (fun _ => none)
  | step {set set' : SenSet} {M : KeyMap} {op : SetOp} (h : Built set M) (hop : op.Meets set)
      (hexec : op.exec set = some set') : Built set' (op.after set M)
  | union {a b a' : SenSet} {Ma Mb : KeyMap} (ha : Built a Ma) (hb : Built b Mb)
      (hkeySize : a.keySize = b.keySize) (hvalueSize : a.valueSize = b.valueSize)
      (hroom : a.RoomFor Ma Mb)
      (hrun : senSetUnion a b = some (some a')) : Built a' (Ma.union Mb)
  | subtract {a b a' : SenSet} {Ma Mb : KeyMap} (ha : Built a Ma) (hb : Built b Mb)
      (hkeySize : a.keySize = b.keySize) (hrun : senSetSubtract a b = some (some a')) :
      Built a' (Ma.subtract Mb)
  | intersect {a b a' : SenSet} {Ma Mb : KeyMap} (ha : Built a Ma) (hb : Built b Mb)
      (hkeySize : a.keySize = b.keySize) (hrun : senSetIntersect a b = some (some a')) :
      Built a' (Ma.intersect Mb)
  | differenceLeft {a b a' b' : SenSet} {Ma Mb : KeyMap} {n : Int} (ha : Built a Ma)
      (hb : Built b Mb) (hkeySize : a.keySize = b.keySize)
      (hrun : senSetDifference a b = some (n, a', b')) : Built a' (Ma.subtract Mb)
  | differenceRight {a b a' b' : SenSet} {Ma Mb : KeyMap} {n : Int} (ha : Built a Ma)
      (hb : Built b Mb) (hkeySize : a.keySize = b.keySize)
      (hrun : senSetDifference a b = some (n, a', b')) : Built b' (Mb.subtract Ma)

/-- A set that stands for a map finds exactly its keys, and counts them. -/
theorem SenSet.Stands.looksUp {set : SenSet} {M : KeyMap} (h : set.Stands M) :
    set.LooksUp M ∧ set.Counts M := by
  obtain ⟨V, free, arr, hinv⟩ := h
  refine ⟨fun key hkey => ?_, hinv.counts⟩
  obtain ⟨set', r, V', hrun, -, -, -, hnone, hsome⟩ := hinv.senSetAt hkey
  exact ⟨set', r, hrun, hnone, hsome⟩

/-- The sets built stand for their maps. -/
theorem Built.stands {set : SenSet} {M : KeyMap} (h : Built set M) : set.Stands M := by
  induction h with
  | opened hsizes =>
      obtain ⟨V, hV⟩ := senSetOpen_inv hsizes
      exact ⟨V, [], 0, hV⟩
  | step _ hop hexec ih =>
      obtain ⟨V, free, arr, hinv⟩ := ih
      obtain ⟨set₁, V', free', arr', hrun, hinv', -⟩ := hinv.exec hop
      obtain rfl := Option.some.inj (hrun.symm.trans hexec)
      exact ⟨V', free', arr', hinv'⟩
  | union _ _ hkeySize hvalueSize hroom hrun iha ihb =>
      obtain ⟨a', hrun', hstands, -⟩ := senSetUnion_spec iha ihb hkeySize hvalueSize hroom
      obtain rfl := Option.some.inj (Option.some.inj (hrun'.symm.trans hrun))
      exact hstands
  | subtract _ _ hkeySize hrun iha ihb =>
      obtain ⟨a', hrun', hstands, -⟩ := senSetSubtract_spec iha ihb hkeySize
      obtain rfl := Option.some.inj (Option.some.inj (hrun'.symm.trans hrun))
      exact hstands
  | intersect _ _ hkeySize hrun iha ihb =>
      obtain ⟨a', hrun', hstands, -⟩ := senSetIntersect_spec iha ihb hkeySize
      obtain rfl := Option.some.inj (Option.some.inj (hrun'.symm.trans hrun))
      exact hstands
  | differenceLeft _ _ hkeySize hrun iha ihb =>
      obtain ⟨keys, a', b', hrun', -, -, hstands, -⟩ := senSetDifference_spec iha ihb hkeySize
      obtain ⟨-, hpair⟩ := Prod.mk.inj (Option.some.inj (hrun'.symm.trans hrun))
      obtain ⟨rfl, -⟩ := Prod.mk.inj hpair
      exact hstands
  | differenceRight _ _ hkeySize hrun iha ihb =>
      obtain ⟨keys, a', b', hrun', -, -, -, hstands, -⟩ := senSetDifference_spec iha ihb hkeySize
      obtain ⟨-, hpair⟩ := Prod.mk.inj (Option.some.inj (hrun'.symm.trans hrun))
      obtain ⟨-, rfl⟩ := Prod.mk.inj hpair
      exact hstands

/-- The part of a `sen_records` that its set operations use: the address of the symbols that the
keys belong to, the set, and the cursor. -/
structure RecordSet where
  keys : Nat
  records : SenSet
  cursor : Option SetCursor

/-- `sen_records_union`: `some none` is `NULL`. -/
def senRecordsUnion (a b : RecordSet) : Option (Option RecordSet) :=
  if a.keys ≠ b.keys then some none
  else (senSetUnion a.records b.records).map fun r =>
    r.map fun set => { a with records := set, cursor := none }

/-- `sen_records_subtract`. -/
def senRecordsSubtract (a b : RecordSet) : Option (Option RecordSet) :=
  if a.keys ≠ b.keys then some none
  else (senSetSubtract a.records b.records).map fun r =>
    r.map fun set => { a with records := set, cursor := none }

/-- `sen_records_intersect`. -/
def senRecordsIntersect (a b : RecordSet) : Option (Option RecordSet) :=
  if a.keys ≠ b.keys then some none
  else
    let (c, d) := if a.records.nEntries > b.records.nEntries then (b.records, a.records)
      else (a.records, b.records)
    (senSetIntersect c d).map fun r =>
      r.map fun set => { a with records := set, cursor := none }

/-- `sen_records_difference`. -/
def senRecordsDifference (a b : RecordSet) : Option (Int × RecordSet × RecordSet) :=
  if a.keys ≠ b.keys then some (-1, a, b)
  else (senSetDifference a.records b.records).map fun (count, c, d) =>
    if count ≥ 0 then
      (count, { a with records := c, cursor := none }, { b with records := d, cursor := none })
    else (count, { a with records := c }, { b with records := d })

/-- The keys of the set are those with the property. -/
def SenSet.HasKeys (set : SenSet) (D : List UInt8 → Prop) : Prop :=
  ∃ M, set.Stands M ∧ ∀ k, M k ≠ none ↔ D k

theorem KeyMap.union_ne_none {M₁ M₂ : KeyMap} {k : List UInt8} :
    M₁.union M₂ k ≠ none ↔ M₁ k ≠ none ∨ M₂ k ≠ none := by
  unfold KeyMap.union
  cases M₁ k <;> cases M₂ k <;> simp

theorem KeyMap.subtract_ne_none {M₁ M₂ : KeyMap} {k : List UInt8} :
    M₁.subtract M₂ k ≠ none ↔ M₁ k ≠ none ∧ M₂ k = none := by
  unfold KeyMap.subtract
  cases M₁ k <;> cases M₂ k <;> simp

theorem KeyMap.intersect_ne_none {M₁ M₂ : KeyMap} {k : List UInt8} :
    M₁.intersect M₂ k ≠ none ↔ M₁ k ≠ none ∧ M₂ k ≠ none := by
  unfold KeyMap.intersect
  cases M₁ k <;> cases M₂ k <;> simp

/-- **Records over the same symbols.** The operations on records have the keys of those on their
sets; the intersection may be the smaller set, with its values. -/
theorem senRecords_spec {a b : RecordSet} {Ma Mb : KeyMap} (ha : a.records.Stands Ma)
    (hb : b.records.Stands Mb) (hkeySize : a.records.keySize = b.records.keySize)
    (hkeys : a.keys = b.keys) :
    (a.records.valueSize = b.records.valueSize → a.records.RoomFor Ma Mb →
      ∃ r, senRecordsUnion a b = some (some r) ∧
        r.records.HasKeys fun k => Ma k ≠ none ∨ Mb k ≠ none) ∧
    (∃ r, senRecordsSubtract a b = some (some r) ∧
      r.records.HasKeys fun k => Ma k ≠ none ∧ Mb k = none) ∧
    (∃ r, senRecordsIntersect a b = some (some r) ∧
      r.records.HasKeys fun k => Ma k ≠ none ∧ Mb k ≠ none) ∧
    ∃ (keys : List (List UInt8)) (a' b' : RecordSet),
      senRecordsDifference a b = some ((keys.length : Int), a', b') ∧ keys.Nodup ∧
        (∀ k, k ∈ keys ↔ Ma k ≠ none ∧ Mb k ≠ none) ∧
        a'.records.HasKeys (fun k => Ma k ≠ none ∧ Mb k = none) ∧
        b'.records.HasKeys fun k => Mb k ≠ none ∧ Ma k = none := by
  have hguard : ¬ a.keys ≠ b.keys := not_not.mpr hkeys
  refine ⟨fun hvalueSize hroom => ?_, ?_, ?_, ?_⟩
  · obtain ⟨set, hrun, hstands, -⟩ := senSetUnion_spec ha hb hkeySize hvalueSize hroom
    refine ⟨{ a with records := set, cursor := none }, ?_, _, hstands, fun k =>
        KeyMap.union_ne_none⟩
    rw [senRecordsUnion, if_neg hguard, hrun]
    rfl
  · obtain ⟨set, hrun, hstands, -⟩ := senSetSubtract_spec ha hb hkeySize
    refine ⟨{ a with records := set, cursor := none }, ?_, _, hstands,
      fun k => KeyMap.subtract_ne_none⟩
    rw [senRecordsSubtract, if_neg hguard, hrun]
    rfl
  · rw [senRecordsIntersect, if_neg hguard]
    split_ifs with hswap
    · obtain ⟨set, hrun, hstands, -⟩ := senSetIntersect_spec hb ha hkeySize.symm
      refine ⟨{ a with records := set, cursor := none }, ?_, _, hstands, fun k => ?_⟩
      · simp only [hrun, Option.map_some]
      · rw [KeyMap.intersect_ne_none, and_comm]
    · obtain ⟨set, hrun, hstands, -⟩ := senSetIntersect_spec ha hb hkeySize
      refine ⟨{ a with records := set, cursor := none }, ?_, _, hstands,
        fun k => KeyMap.intersect_ne_none⟩
      simp only [hrun, Option.map_some]
  · obtain ⟨keys, c, d, hrun, hnodup, hmem, hc, hd, -⟩ := senSetDifference_spec ha hb hkeySize
    refine ⟨keys, { a with records := c, cursor := none }, { b with records := d, cursor := none },
      ?_, hnodup, hmem, ⟨_, hc, fun k => KeyMap.subtract_ne_none⟩,
      ⟨_, hd, fun k => KeyMap.subtract_ne_none⟩⟩
    rw [senRecordsDifference, if_neg hguard, hrun, Option.map_some]
    exact congrArg some (if_pos (Int.natCast_nonneg keys.length))

/-- **Set algebra.** For two sets of one key size, built by any operations: the union (of sets of
one value size, with room in `a` for the keys that it lacks), the subtraction and the
intersection return `a` with the expected keys, those of `a` with their values and the others
with `b`'s; the difference leaves the rest in both sets and returns the number of common keys;
and records with these sets over the same symbols get the same keys. -/
theorem senSet_algebra (a b : SenSet) (Ma Mb : KeyMap) (ha : Built a Ma) (hb : Built b Mb)
    (hkeySize : a.keySize = b.keySize) :
    (a.valueSize = b.valueSize → a.RoomFor Ma Mb →
      ∃ a', senSetUnion a b = some (some a') ∧ a'.Stands (Ma.union Mb)) ∧
    (∃ a', senSetSubtract a b = some (some a') ∧ a'.Stands (Ma.subtract Mb)) ∧
    (∃ a', senSetIntersect a b = some (some a') ∧ a'.Stands (Ma.intersect Mb)) ∧
    (∃ (keys : List (List UInt8)) (a' b' : SenSet),
      senSetDifference a b = some ((keys.length : Int), a', b') ∧ keys.Nodup ∧
        (∀ k, k ∈ keys ↔ Ma k ≠ none ∧ Mb k ≠ none) ∧
        a'.Stands (Ma.subtract Mb) ∧ b'.Stands (Mb.subtract Ma)) ∧
    ∀ ra rb : RecordSet, ra.records = a → rb.records = b → ra.keys = rb.keys →
      (a.valueSize = b.valueSize → a.RoomFor Ma Mb → ∃ r, senRecordsUnion ra rb = some (some r) ∧
        r.records.HasKeys fun k => Ma k ≠ none ∨ Mb k ≠ none) ∧
      (∃ r, senRecordsSubtract ra rb = some (some r) ∧
        r.records.HasKeys fun k => Ma k ≠ none ∧ Mb k = none) ∧
      (∃ r, senRecordsIntersect ra rb = some (some r) ∧
        r.records.HasKeys fun k => Ma k ≠ none ∧ Mb k ≠ none) ∧
      ∃ (keys : List (List UInt8)) (ra' rb' : RecordSet),
        senRecordsDifference ra rb = some ((keys.length : Int), ra', rb') ∧ keys.Nodup ∧
          (∀ k, k ∈ keys ↔ Ma k ≠ none ∧ Mb k ≠ none) ∧
          ra'.records.HasKeys (fun k => Ma k ≠ none ∧ Mb k = none) ∧
          rb'.records.HasKeys fun k => Mb k ≠ none ∧ Ma k = none := by
  refine ⟨fun hvalueSize hroom => ?_, ?_, ?_, ?_, ?_⟩
  · obtain ⟨a', hrun, hstands, -⟩ := senSetUnion_spec ha.stands hb.stands hkeySize hvalueSize hroom
    exact ⟨a', hrun, hstands⟩
  · obtain ⟨a', hrun, hstands, -⟩ := senSetSubtract_spec ha.stands hb.stands hkeySize
    exact ⟨a', hrun, hstands⟩
  · obtain ⟨a', hrun, hstands, -⟩ := senSetIntersect_spec ha.stands hb.stands hkeySize
    exact ⟨a', hrun, hstands⟩
  · obtain ⟨keys, a', b', hrun, hnodup, hmem, hA, hB, -⟩ :=
      senSetDifference_spec ha.stands hb.stands hkeySize
    exact ⟨keys, a', b', hrun, hnodup, hmem, hA, hB⟩
  · rintro ra rb rfl rfl hkeys
    exact senRecords_spec ha.stands hb.stands hkeySize hkeys

/-- The union of an empty set with one in array mode. -/
theorem senSet_algebra_array : ∃ b a' : SenSet,
    (SetOp.array 2 [([1, 0, 0, 0], [7, 0, 0, 0]), ([2, 0, 0, 0], [8, 0, 0, 0])]).exec
      (senSetOpen 4 4 0) = some b ∧
    senSetUnion (senSetOpen 4 4 0) b = some (some a') ∧
    a'.Stands (KeyMap.union (fun _ => none) (KeyMap.addAll (fun _ => none)
      [([1, 0, 0, 0], [7, 0, 0, 0]), ([2, 0, 0, 0], [8, 0, 0, 0])])) := by
  have hsizes : Sizes 4 4 0 := ⟨by decide, by decide⟩
  have harray : (SetOp.array 2 [([1, 0, 0, 0], [7, 0, 0, 0]), ([2, 0, 0, 0], [8, 0, 0, 0])]).Meets
      (senSetOpen 4 4 0) := ⟨rfl, rfl, rfl, by decide, by decide, by decide, by decide⟩
  obtain ⟨V, hV⟩ := senSetOpen_inv hsizes
  obtain ⟨b, _, _, _, hb, -, halike, -⟩ := hV.exec harray
  have hroom : (senSetOpen 4 4 0).RoomFor (fun _ => none) (KeyMap.addAll (fun _ => none)
      [([1, 0, 0, 0], [7, 0, 0, 0]), ([2, 0, 0, 0], [8, 0, 0, 0])]) := by
    intro keys hnodup hkeys
    have hsub : keys ⊆ [[1, 0, 0, 0], [2, 0, 0, 0]] := by
      intro k hk
      by_contra hnot
      obtain ⟨h1, h2⟩ : k ≠ [1, 0, 0, 0] ∧ k ≠ [2, 0, 0, 0] := by simpa using hnot
      apply (hkeys k hk).1
      show Function.update (Function.update (fun _ => none) _ _) _ _ k = none
      rw [Function.update_of_ne h2, Function.update_of_ne h1]
    have hlen : keys.length ≤ 2 := (hnodup.subperm hsub).length_le
    exact Or.inr ⟨0, show 0 + keys.length ≤ 0 + 256 by omega, by decide⟩
  obtain ⟨hunion, -⟩ := senSet_algebra (senSetOpen 4 4 0) b _ _ (Built.opened hsizes)
    ((Built.opened hsizes).step harray hb) halike.keySize.symm
  obtain ⟨a', hrun, hstands⟩ := hunion halike.valueSize.symm hroom
  exact ⟨b, a', hb, hrun, hstands⟩

/-- With entries of `2^24 + 8` bytes the size of the chunk for the first key that a union adds
wraps around to 2048 bytes. -/
theorem senSet_algebra_wraps : ∃ b : SenSet,
    (SetOp.array 1 [([1, 0, 0, 0], List.replicate 16777220 0)]).Meets (senSetOpen 4 16777220 0) ∧
    (SetOp.array 1 [([1, 0, 0, 0], List.replicate 16777220 0)]).exec (senSetOpen 4 16777220 0) =
      some b ∧
    (senSetOpen 4 16777220 0).keySize = b.keySize ∧
    (senSetOpen 4 16777220 0).valueSize = b.valueSize ∧
    senSetUnion (senSetOpen 4 16777220 0) b = none := by
  refine ⟨_, ⟨rfl, rfl, rfl, by decide, by decide, by decide, ?_⟩, rfl, rfl, rfl, rfl⟩
  intro kv hkv
  rw [List.mem_singleton.mp hkv]
  exact ⟨rfl, List.length_replicate⟩

end Senna.Set
