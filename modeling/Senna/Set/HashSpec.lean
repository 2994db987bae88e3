/-
# The operations of a hash set

The proofs for `Senna.Set.Hash` see a set in two parts. `Views` replaces the pointers of the
index by the entries they point to; the look-ups and the rehash are about this table of
entries, whose keys are distinct (`Distinct`) and each reachable from its hash (`Hashed`).
`Storage` is about the memory: the entries in use and the free list share out the places
that were carved from the chunks.
-/

import Senna.Set.Hash
import Senna.Lib.Probing

namespace Senna.Set

open Senna.Lib Senna.Io

/-- A key of the class of `keySize`: a string without NUL, or `keySize` bytes. -/
def KeyOk (keySize : Nat) (key : List UInt8) : Prop :=
  if keySize = 0 then 0 ∉ key else key.length = keySize

/-- An entry holds a key of its class, and the hash of that key. -/
structure Entry.Ok (keySize : Nat) (e : Entry) : Prop where
  key : KeyOk keySize (keyOf keySize e)
  hash : e.key = hashOf keySize (keyOf keySize e)

/-- The word of four bytes codes them. -/
theorem le32_intKey {key : List UInt8} (h : key.length = 4) : le32 (intKey key) = key := by
  obtain ⟨a, b, c, d, rfl⟩ : ∃ a b c d, key = [a, b, c, d] := by
    match key, h with
    | [a, b, c, d], _ => exact ⟨a, b, c, d, rfl⟩
  have ha := a.toNat_lt
  have hb := b.toNat_lt
  have hc := c.toNat_lt
  have hd := d.toNat_lt
  have hword : intKey [a, b, c, d] =
      a.toNat + b.toNat * 0x100 + c.toNat * 0x10000 + d.toNat * 0x1000000 := rfl
  rw [hword, le32]
  simp only [List.cons.injEq, and_true, ← UInt8.toNat_inj, toNat_cByte, Nat.shiftRight_eq_div_pow]
  omega

/-- Every hash is a word. -/
theorem hashOf_lt (keySize : Nat) (key : List UInt8) : hashOf keySize key < 2 ^ 32 := by
  have hfold (p : List UInt8) :
      p.foldl (fun r b => (r * 1021 + b.toNat) % 2 ^ 32) 0 < 2 ^ 32 := by
    apply List.foldlRecOn (motive := fun r => r < 2 ^ 32)
    · decide
    · exact fun r _ b _ => Nat.mod_lt _ (by decide)
  unfold hashOf
  split
  · exact hfold _
  · have ha := (key.getD 0 0).toNat_lt
    have hb := (key.getD 1 0).toNat_lt
    have hc := (key.getD 2 0).toNat_lt
    have hd := (key.getD 3 0).toNat_lt
    unfold intKey
    omega
  · exact hfold _

section

variable {keySize : Nat} {key : List UInt8}

/-- Outside the class of words the bytes stored are the key. -/
theorem keyOf_of_ne (h : keySize ≠ 4) (e : Entry) : keyOf keySize e = e.bytes := by
  unfold keyOf
  split
  · exact absurd rfl h
  · rfl

theorem storeKey_of_ne (hne : keySize ≠ 4) (h : Nat) (e : Entry) :
    storeKey keySize key h e = { e with key := h, bytes := key } := by
  unfold storeKey
  split
  · exact absurd rfl hne
  · rfl

/-- The comparison of the look-ups is equality of keys. -/
theorem sameKey_iff {e : Entry} (he : e.Ok keySize) (hkey : KeyOk keySize key) :
    sameKey keySize key (hashOf keySize key) e = true ↔ keyOf keySize e = key := by
  have hhash := he.hash
  unfold sameKey
  split
  · have hlen : key.length = 4 := by simpa [KeyOk] using hkey
    rw [decide_eq_true_iff]
    constructor
    · intro h
      show le32 e.key = key
      rw [h]
      exact le32_intKey hlen
    · intro h
      rw [hhash, h]
  · rename_i hne
    have hbytes := keyOf_of_ne (fun h => hne h) e
    rw [decide_eq_true_iff, hbytes]
    constructor
    · exact fun h => h.2
    · intro h
      exact ⟨by rw [hhash, hbytes, h], h⟩

/-- A cleared entry takes a new key. -/
theorem storeKey_ok (hkey : KeyOk keySize key) (e : Entry) :
    (storeKey keySize key (hashOf keySize key) e).Ok keySize ∧
      keyOf keySize (storeKey keySize key (hashOf keySize key) e) = key ∧
      (storeKey keySize key (hashOf keySize key) e).value = e.value := by
  by_cases h4 : keySize = 4
  · subst h4
    have hlen : key.length = 4 := by simpa [KeyOk] using hkey
    have hstore (h : Nat) : storeKey 4 key h e = { e with key := h } := rfl
    have hkeyOf (h : Nat) : keyOf 4 { e with key := h } = le32 h := rfl
    have hhash : le32 (hashOf 4 key) = key := le32_intKey hlen
    rw [hstore]
    exact ⟨⟨by rwa [hkeyOf, hhash], by rw [hkeyOf, hhash]⟩, by rw [hkeyOf, hhash], rfl⟩
  · rw [storeKey_of_ne h4]
    have hkeyOf := keyOf_of_ne h4 ⟨hashOf keySize key, key, e.value⟩
    exact ⟨⟨by rwa [hkeyOf], by rw [hkeyOf]⟩, hkeyOf, rfl⟩

end

section

universe u v

variable {ε : Type u} {κ : Type v} {V : List (Slot ε)} {p p' : Nat} {e e' : ε}

/-- Whether a slot is marked as deleted. -/
def Slot.isGarbage : Slot ε → Bool
  | .garbage => true
  | _ => false

/-- A slot that a probe goes past. -/
def Used (V : List (Slot ε)) (p : Nat) : Prop := V[p]? ≠ some .null

theorem mem_live : e ∈ live V ↔ ∃ p : Nat, V[p]? = some (Slot.entry e) := by
  unfold live
  rw [List.mem_filterMap]
  constructor
  · rintro ⟨s, hs, hcontent⟩
    obtain ⟨p, hp⟩ := List.mem_iff_getElem?.mp hs
    cases s with
    | entry e' => exact ⟨p, by rw [hp, Option.some.inj hcontent]⟩
    | null => exact nomatch hcontent
    | garbage => exact nomatch hcontent
  · rintro ⟨p, hp⟩
    exact ⟨_, List.mem_iff_getElem?.mpr ⟨p, hp⟩, rfl⟩

/-- The entries with one slot written: that slot's and those of the others. -/
theorem live_set_perm (hp : p < V.length) :
    ∃ R, ∀ s : Slot ε, (live (V.set p s)).Perm (s.content.toList ++ R) := by
  refine ⟨live (V.take p) ++ live (V.drop (p + 1)), fun s => ?_⟩
  have hset : V.set p s = V.take p ++ s :: V.drop (p + 1) := List.set_eq_take_append_cons_drop ..
    |>.trans (if_pos hp)
  have hcons : live (s :: V.drop (p + 1)) = s.content.toList ++ live (V.drop (p + 1)) := by
    cases s <;> rfl
  have happ : live (V.set p s) = live (V.take p) ++ live (s :: V.drop (p + 1)) := by
    rw [hset]
    exact List.filterMap_append
  rw [happ, hcons]
  exact List.perm_append_comm_assoc _ _ _

theorem set_self_of_getElem? {s : Slot ε} (hp : V[p]? = some s) : V.set p s = V := by
  obtain ⟨hlt, rfl⟩ := List.getElem?_eq_some_iff.mp hp
  exact List.set_getElem_self hlt

/-- Writing an entry into a slot without one. -/
theorem live_insert {s : Slot ε} (hp : V[p]? = some s) (hs : s.content = none) (e : ε) :
    (live (V.set p (.entry e))).Perm (e :: live V) := by
  obtain ⟨R, hR⟩ := live_set_perm (List.getElem?_eq_some_iff.mp hp).1
  have h := hR s
  rw [set_self_of_getElem? hp, hs] at h
  exact (hR (.entry e)).trans (h.symm.cons e)

/-- Taking an entry out of its slot. -/
theorem live_remove (hp : V[p]? = some (.entry e)) {s : Slot ε} (hs : s.content = none) :
    (live V).Perm (e :: live (V.set p s)) := by
  obtain ⟨R, hR⟩ := live_set_perm (List.getElem?_eq_some_iff.mp hp).1
  have h := hR (.entry e)
  rw [set_self_of_getElem? hp] at h
  have h' := hR s
  rw [hs] at h'
  exact h.trans (h'.symm.cons e)

/-- Two slots with entries of one name are the same slot when the names are distinct. -/
theorem live_inj {f : ε → κ} (h : ((live V).map f).Nodup) (hp : V[p]? = some (.entry e))
    (hp' : V[p']? = some (.entry e')) (hf : f e = f e') : p = p' := by
  by_contra hne
  have hperm := (live_remove hp (s := .garbage) rfl).map f
  have hnodup := hperm.nodup_iff.mp h
  rw [List.map_cons, List.nodup_cons] at hnodup
  apply hnodup.1
  rw [hf]
  apply List.mem_map_of_mem
  exact mem_live.mpr ⟨p', by rw [List.getElem?_set_ne hne, hp']⟩

/-- With fewer entries and marks than slots, some slot is empty. -/
theorem exists_null (h : (live V).length + V.countP Slot.isGarbage < V.length) :
    ∃ p < V.length, V[p]? = some .null := by
  by_contra hnone
  have hall : ∀ s ∈ V, s ≠ .null := by
    rintro s hs rfl
    obtain ⟨p, hp⟩ := List.mem_iff_getElem?.mp hs
    exact hnone ⟨p, (List.getElem?_eq_some_iff.mp hp).1, hp⟩
  have hlen : (live V).length + V.countP Slot.isGarbage = V.length := by
    clear h hnone
    induction V with
    | nil => rfl
    | cons s V ih =>
        have ih := ih fun s hs => hall s (List.mem_cons_of_mem _ hs)
        cases s with
        | null => exact absurd rfl (hall _ List.mem_cons_self)
        | garbage =>
            have hlive : live (Slot.garbage :: V) = live V := rfl
            rw [hlive, List.countP_cons_of_pos rfl, List.length_cons]
            omega
        | entry e =>
            have hlive : live (Slot.entry e :: V) = e :: live V := rfl
            rw [hlive, List.countP_cons_of_neg Bool.false_ne_true, List.length_cons,
                List.length_cons]
            omega
  omega

end

/-- A slot of the index and the slot with the entry itself. -/
def Resolves (cells : Addr → Content) : Slot Addr → Slot Entry → Prop
  | .null, .null => True
  | .garbage, .garbage => True
  | .entry a, .entry e => cells a = .entry e
  | _, _ => False

/-- The index with its pointers followed. -/
def Views (cells : Addr → Content) (index : List (Slot Addr)) (V : List (Slot Entry)) : Prop :=
  List.Forall₂ (Resolves cells) index V

section

variable {cells cells' : Addr → Content} {index : List (Slot Addr)} {V : List (Slot Entry)}
  {p : Nat} {a : Addr} {e : Entry}

namespace Views

theorem length_eq (h : Views cells index V) : index.length = V.length := List.Forall₂.length_eq h

theorem get (h : Views cells index V) {s : Slot Addr} (hp : index[p]? = some s) :
    ∃ s', V[p]? = some s' ∧ Resolves cells s s' := by
  induction h generalizing p with
  | nil => exact nomatch hp
  | cons hs _ ih =>
      cases p with
      | zero => exact ⟨_, rfl, Option.some.inj hp ▸ hs⟩
      | succ p => exact ih hp

theorem get' (h : Views cells index V) {s' : Slot Entry} (hp : V[p]? = some s') :
    ∃ s, index[p]? = some s ∧ Resolves cells s s' := by
  induction h generalizing p with
  | nil => exact nomatch hp
  | cons hs _ ih =>
      cases p with
      | zero => exact ⟨_, rfl, Option.some.inj hp ▸ hs⟩
      | succ p => exact ih hp

/-- The three kinds of slots, seen from the table. -/
theorem null (h : Views cells index V) (hp : V[p]? = some .null) : index[p]? = some .null := by
  obtain ⟨s, hs, hres⟩ := h.get' hp
  cases s with
  | null => exact hs
  | garbage => exact hres.elim
  | entry a => exact hres.elim

theorem garbage (h : Views cells index V) (hp : V[p]? = some .garbage) :
    index[p]? = some .garbage := by
  obtain ⟨s, hs, hres⟩ := h.get' hp
  cases s with
  | null => exact hres.elim
  | garbage => exact hs
  | entry a => exact hres.elim

theorem entry (h : Views cells index V) (hp : V[p]? = some (.entry e)) :
    ∃ a, index[p]? = some (.entry a) ∧ cells a = .entry e := by
  obtain ⟨s, hs, hres⟩ := h.get' hp
  cases s with
  | null => exact hres.elim
  | garbage => exact hres.elim
  | entry a => exact ⟨a, hs, hres⟩

theorem of_entry (h : Views cells index V) (hp : index[p]? = some (.entry a)) :
    ∃ e, V[p]? = some (.entry e) ∧ cells a = .entry e := by
  obtain ⟨s, hs, hres⟩ := h.get hp
  cases s with
  | null => exact hres.elim
  | garbage => exact hres.elim
  | entry e => exact ⟨e, hs, hres⟩

theorem set (h : Views cells index V) {s : Slot Addr} {t : Slot Entry}
    (hs : Resolves cells s t) (p : Nat) : Views cells (index.set p s) (V.set p t) := by
  induction h generalizing p with
  | nil => exact .nil
  | cons hhead htail ih =>
      cases p with
      | zero => exact .cons hs htail
      | succ p => exact .cons hhead (ih p)

/-- Memory that no slot points to does not matter. -/
theorem congr (h : Views cells index V) (hcells : ∀ a ∈ live index, cells' a = cells a) :
    Views cells' index V := by
  induction h with
  | nil => exact .nil
  | @cons s s' index V hs _ ih =>
      refine .cons ?_ (ih fun a ha => hcells a ?_)
      · match s, s', hs with
        | .null, .null, _ => exact trivial
        | .garbage, .garbage, _ => exact trivial
        | .entry a, .entry e, hs => exact (hcells a (mem_live.mpr ⟨0, rfl⟩)).trans hs
      · obtain ⟨p, hp⟩ := mem_live.mp ha
        exact mem_live.mpr ⟨p + 1, hp⟩

/-- There are as many entries as pointers, and as many marks. -/
theorem counts (h : Views cells index V) :
    (live index).length = (live V).length ∧
      index.countP Slot.isGarbage = V.countP Slot.isGarbage := by
  induction h with
  | nil => exact ⟨rfl, rfl⟩
  | @cons s s' index V hs _ ih =>
      match s, s', hs with
      | .null, .null, _ => exact ih
      | .garbage, .garbage, _ =>
          rw [List.countP_cons_of_pos rfl, List.countP_cons_of_pos rfl, ih.2]
          exact ⟨ih.1, rfl⟩
      | .entry a, .entry e, _ => exact ⟨congrArg (· + 1) ih.1, ih.2⟩

/-- A new entry, at a place that no slot points to. -/
theorem insert (h : Views cells index V) (ha : a ∉ live index) (p : Nat) (e : Entry) :
    Views (Function.update cells a (.entry e)) (index.set p (.entry a)) (V.set p (.entry e)) := by
  apply Views.set
  · apply h.congr
    intro b hb
    apply Function.update_of_ne
    rintro rfl
    exact ha hb
  · exact Function.update_self _ _ _

/-- An entry is taken out, and its memory is used otherwise. -/
theorem remove (h : Views cells index V) (hnodup : (live index).Nodup)
    (hp : index[p]? = some (.entry a)) (c : Content) :
    Views (Function.update cells a c) (index.set p .garbage) (V.set p .garbage) := by
  apply Views.congr (h.set (s := .garbage) (t := .garbage) trivial p)
  intro b hb
  apply Function.update_of_ne
  rintro rfl
  have hperm := (live_remove hp (s := .garbage) rfl).nodup_iff.mp hnodup
  exact (List.nodup_cons.mp hperm).1 hb

end Views

end

/-- The slots that are probed for the hash `h`. -/
def probeSeq (m h j : Nat) : Nat := (h + j * step h) % 2 ^ 32 &&& m

theorem step_odd (h : Nat) : step h % 2 = 1 := by
  have hbit : (step h).testBit 0 = true := by
    rw [step, Nat.testBit_or]
    exact Bool.or_true _
  rwa [Nat.testBit_zero, decide_eq_true_iff] at hbit

section

variable {m k : Nat} (hm : m + 1 = 2 ^ k) (h : Nat)
include hm

theorem probeSeq_lt (j : Nat) : probeSeq m h j < m + 1 := by
  rw [probeSeq, and_maxOffset hm]
  exact Nat.mod_lt _ (Nat.succ_pos m)

/-- The probes visit every slot: the step is odd. -/
theorem probeSeq_covers (hk : k ≤ 32) : Covers (probeSeq m h) (m + 1) := by
  have hseq : probeSeq m h = fun j => (h + j * step h) % 2 ^ k := by
    funext j
    rw [probeSeq, and_maxOffset hm, hm]
    exact Nat.mod_mod_of_dvd _ (Nat.pow_dvd_pow 2 hk)
  rw [hseq, hm]
  exact covers_of_odd h (step_odd h)

end

/-- The slot after one more round. -/
theorem probeSeq_next (h j s : Nat) :
    ((h + j * s) % 2 ^ 32 + s) % 2 ^ 32 = (h + (j + 1) * s) % 2 ^ 32 := by
  rw [Nat.mod_add_mod, Nat.add_assoc, Nat.succ_mul]

/-- What the keys of a table are: each of its class, no two the same. -/
structure Distinct (keySize : Nat) (V : List (Slot Entry)) : Prop where
  ok : ∀ e ∈ live V, e.Ok keySize
  nodup : ((live V).map (keyOf keySize)).Nodup

/-- Every entry is reached from its hash. -/
def Hashed (m : Nat) (V : List (Slot Entry)) : Prop :=
  ∀ p e, V[p]? = some (.entry e) → Reaches (Used V) (probeSeq m e.key) p

/-- A slot at which the look-up stops. -/
def Stops (V : List (Slot Entry)) (same : Entry → Bool) (p : Nat) : Prop :=
  V[p]? = some .null ∨ ∃ e, V[p]? = some (.entry e) ∧ same e = true

section

variable {set : SenSet} {V : List (Slot Entry)}

/-- The loop of the look-ups ends at the first slot to stop at, and has noted a mark on the
way if there was one. -/
theorem SenSet.probe_spec (hv : Views set.cells set.index V) (same : Entry → Bool) {h : Nat}
    (hrange : ∀ j, probeSeq set.maxOffset h j < V.length) {J : Nat}
    (hstop : Stops V same (probeSeq set.maxOffset h J))
    (hbefore : ∀ i < J, ¬ Stops V same (probeSeq set.maxOffset h i)) (j k : Nat)
    (np : Option Nat) (hj : j ≤ J) (hk : J < j + k) :
    ∃ found np', set.probe same (step h) k ((h + j * step h) % 2 ^ 32) np =
        some (found, probeSeq set.maxOffset h J, np') ∧
      ((found = true ∧ ∃ e, V[probeSeq set.maxOffset h J]? = some (.entry e) ∧ same e = true) ∨
        found = false ∧ V[probeSeq set.maxOffset h J]? = some .null) ∧
      ∀ g, np' = some g → np = some g ∨
        ∃ i < J, probeSeq set.maxOffset h i = g ∧ V[g]? = some .garbage := by
  induction k generalizing j np with
  | zero => omega
  | succ k ih =>
      have hplace : (h + j * step h) % 2 ^ 32 &&& set.maxOffset = probeSeq set.maxOffset h j := rfl
      obtain ⟨s, hs⟩ : ∃ s, V[probeSeq set.maxOffset h j]? = some s :=
        ⟨_, List.getElem?_eq_getElem (hrange j)⟩
      rw [SenSet.probe]
      simp only [hplace]
      -- at the last round the loop stops, before it the loop goes on
      rcases Nat.lt_or_eq_of_le hj with hlt | rfl
      · have hgo := hbefore j hlt
        cases s with
        | null => exact absurd (Or.inl hs) hgo
        | garbage =>
            simp only [hv.garbage hs]
            rw [probeSeq_next]
            obtain ⟨found, np', hrun, hend, hnp⟩ := ih (j + 1)
              (np <|> some (probeSeq set.maxOffset h j)) (by omega) (by omega)
            refine ⟨found, np', hrun, hend, fun g hg => ?_⟩
            rcases hnp g hg with hor | hlater
            · cases np with
              | none =>
                  right
                  refine ⟨j, hlt, Option.some.inj hor, ?_⟩
                  rw [← Option.some.inj hor, hs]
              | some g' => exact Or.inl hor
            · exact Or.inr hlater
        | entry e =>
            obtain ⟨a, ha, hcell⟩ := hv.entry hs
            have hsame : same e = false := by
              apply Bool.eq_false_iff.mpr
              exact fun hsame => hgo (Or.inr ⟨e, hs, hsame⟩)
            simp only [ha, hcell, hsame, Bool.false_eq_true, if_false]
            rw [probeSeq_next]
            exact ih (j + 1) np (by omega) (by omega)
      · rcases hstop with hnull | ⟨e, he, hsame⟩
        · simp only [hv.null hnull]
          exact ⟨false, np, rfl, Or.inr ⟨rfl, hnull⟩, fun g hg => Or.inl hg⟩
        · obtain ⟨a, ha, hcell⟩ := hv.entry he
          simp only [ha, hcell, hsame, if_true]
          exact ⟨true, np, rfl, Or.inl ⟨rfl, e, he, hsame⟩, fun g hg => Or.inl hg⟩

/-- **The look-up.** In a hashed table with an empty slot the probe loop ends. It finds the
entry with the key if there is one; otherwise it ends at an empty slot that can take the key,
and so can the first mark that it passed. -/
theorem SenSet.probeKey_spec (hv : Views set.cells set.index V) {k : Nat}
    (hm : set.maxOffset + 1 = 2 ^ k) (hk : k ≤ 32) (hlen : V.length = set.maxOffset + 1)
    (hd : Distinct set.keySize V) (hh : Hashed set.maxOffset V)
    (hnull : ∃ p < V.length, V[p]? = some .null) {key : List UInt8} (hkey : KeyOk set.keySize key) :
    ∃ found ep np, set.probeKey key = some (found, ep, np) ∧
      ((found = true ∧ ∃ e, V[ep]? = some (.entry e) ∧ keyOf set.keySize e = key) ∨
        found = false ∧ (∀ e ∈ live V, keyOf set.keySize e ≠ key) ∧
          (∃ s, V[np.getD ep]? = some s ∧ s.content = none ∧
            (s.isGarbage = np.isSome)) ∧
          Reaches (Used V) (probeSeq set.maxOffset (hashOf set.keySize key)) (np.getD ep)) := by
  set h := hashOf set.keySize key with hdef
  have hrange (j : Nat) : probeSeq set.maxOffset h j < V.length := by
    rw [hlen]
    exact probeSeq_lt hm h j
  have hsame {e : Entry} (he : e ∈ live V) :
      sameKey set.keySize key h e = true ↔ keyOf set.keySize e = key :=
    sameKey_iff (hd.ok e he) hkey
  obtain ⟨pn, hpn, hpn'⟩ := hnull
  obtain ⟨J, hJ, hstop, hbefore⟩ := (probeSeq_covers hm h hk).exists_first
    (Stops V (sameKey set.keySize key h)) (hlen ▸ hpn) (Or.inl hpn')
  obtain ⟨found, np, hrun, hend, hnp⟩ := set.probe_spec hv _ hrange hstop hbefore 0
    (set.maxOffset + 1) none (Nat.zero_le J) (by omega)
  have hstart : (h + 0 * step h) % 2 ^ 32 = h := by
    rw [Nat.zero_mul, Nat.add_zero, Nat.mod_eq_of_lt (hashOf_lt _ _)]
  rw [hstart] at hrun
  refine ⟨found, _, np, hrun, ?_⟩
  rcases hend with ⟨hfound, e, he, hmatch⟩ | ⟨hfound, hempty⟩
  · exact Or.inl ⟨hfound, e, he, (hsame (mem_live.mpr ⟨_, he⟩)).mp hmatch⟩
  · have hused : ∀ i < J, Used V (probeSeq set.maxOffset h i) :=
      fun i hi hnull => hbefore i hi (Or.inl hnull)
    refine Or.inr ⟨hfound, ?_, ?_, ?_⟩
    · intro e he hkeyOf
      obtain ⟨p, hp⟩ := mem_live.mp he
      have hhash : e.key = h := by
        rw [(hd.ok e he).hash, hkeyOf]
      have hreach := hh p e hp
      rw [hhash] at hreach
      obtain ⟨i, hi, rfl⟩ := hreach.before (fun hu => hu hempty) (by
        rintro rfl
        rw [hempty] at hp
        exact nomatch hp)
      exact hbefore i hi (Or.inr ⟨e, hp, (hsame he).mpr hkeyOf⟩)
    · cases np with
      | none => exact ⟨.null, hempty, rfl, rfl⟩
      | some g =>
          rcases hnp g rfl with hg | ⟨i, -, -, hg⟩
          · exact nomatch hg
          · exact ⟨.garbage, hg, rfl, rfl⟩
    · cases np with
      | none => exact ⟨J, rfl, hused⟩
      | some g =>
          rcases hnp g rfl with hg | ⟨i, hi, hg, -⟩
          · exact nomatch hg
          · exact ⟨i, hg, fun i' hi' => hused i' (hi'.trans hi)⟩

end

section

variable {keySize m p : Nat} {V V' : List (Slot Entry)} {e e' : Entry}

/-- No slot is emptied when something is written. -/
theorem Used.set {s : Slot Entry} (hs : s ≠ .null) {i : Nat} (h : Used V i) :
    Used (V.set p s) i := by
  unfold Used at h ⊢
  rw [List.getElem?_set]
  split_ifs
  · exact fun heq => hs (Option.some.inj heq)
  · exact nofun
  · exact h

/-- Writing a mark, or an entry where its key is looked for, keeps the table hashed. -/
theorem Hashed.set (h : Hashed m V) {s : Slot Entry} (hs : s ≠ .null)
    (hreach : ∀ e, s = .entry e → Reaches (Used V) (probeSeq m e.key) p) :
    Hashed m (V.set p s) := by
  intro p' e' hp'
  rw [List.getElem?_set] at hp'
  split_ifs at hp' with heq hlt
  · subst heq
    exact (hreach e' (Option.some.inj hp')).mono fun _ => Used.set hs
  · exact (h p' e' hp').mono fun _ => Used.set hs

theorem Distinct.of_perm (h : Distinct keySize V) (hperm : (live V').Perm (live V)) :
    Distinct keySize V' :=
  ⟨fun e he => h.ok e (hperm.mem_iff.mp he), (hperm.map _).nodup_iff.mpr h.nodup⟩

theorem Distinct.cons (h : Distinct keySize V) (hperm : (live V').Perm (e :: live V))
    (he : e.Ok keySize) (hnew : ∀ e' ∈ live V, keyOf keySize e' ≠ keyOf keySize e) :
    Distinct keySize V' := by
  refine ⟨fun e' he' => ?_, ?_⟩
  · rcases List.mem_cons.mp (hperm.mem_iff.mp he') with rfl | hmem
    · exact he
    · exact h.ok e' hmem
  · rw [(hperm.map _).nodup_iff, List.map_cons, List.nodup_cons]
    refine ⟨fun hmem => ?_, h.nodup⟩
    obtain ⟨e', he', hkey⟩ := List.mem_map.mp hmem
    exact hnew e' he' hkey

theorem Distinct.tail (h : Distinct keySize V) (hperm : (live V).Perm (e :: live V')) :
    Distinct keySize V' := by
  refine ⟨fun e' he' => h.ok e' (hperm.mem_iff.mpr (List.mem_cons_of_mem _ he')), ?_⟩
  have hnodup := (hperm.map (keyOf keySize)).nodup_iff.mp h.nodup
  exact (List.nodup_cons.mp hnodup).2

end

section

variable {cells : Addr → Content} {m k : Nat}

/-- The loop for one entry ends at the first empty slot of the probe sequence. -/
theorem firstEmpty_spec {index : List (Slot Addr)} {V : List (Slot Entry)}
    (hv : Views cells index V) {h : Nat} (hrange : ∀ j, probeSeq m h j < V.length) {J : Nat}
    (hstop : V[probeSeq m h J]? = some .null) (hbefore : ∀ i < J, Used V (probeSeq m h i))
    (j fuel : Nat) (hj : j ≤ J) (hfuel : J < j + fuel) :
    firstEmpty index m (step h) fuel ((h + j * step h) % 2 ^ 32) = some (probeSeq m h J) := by
  induction fuel generalizing j with
  | zero => omega
  | succ fuel ih =>
      have hplace : (h + j * step h) % 2 ^ 32 &&& m = probeSeq m h j := rfl
      obtain ⟨s, hs⟩ : ∃ s, V[probeSeq m h j]? = some s :=
        ⟨_, List.getElem?_eq_getElem (hrange j)⟩
      rw [firstEmpty]
      simp only [hplace]
      rcases Nat.lt_or_eq_of_le hj with hlt | rfl
      · have ih := ih (j + 1) (by omega) (by omega)
        cases s with
        | null => exact absurd hs (hbefore j hlt)
        | garbage =>
            simp only [hv.garbage hs]
            rw [probeSeq_next]
            exact ih
        | entry e =>
            obtain ⟨a, ha, -⟩ := hv.entry hs
            simp only [ha]
            rw [probeSeq_next]
            exact ih
      · simp only [hv.null hstop]

/-- **The rehash.** The entries of `sp` are added to a hashed table that has room for them. -/
theorem rehash_spec (keySize : Nat) (hm : m + 1 = 2 ^ k) (hk : k ≤ 32) {sp : List (Slot Addr)}
    {S : List (Slot Entry)} (hs : Views cells sp S) (hok : ∀ e ∈ live S, e.Ok keySize)
    {index : List (Slot Addr)} {V : List (Slot Entry)} (hv : Views cells index V)
    (hlen : V.length = m + 1) (hgarbage : V.countP Slot.isGarbage = 0) (hh : Hashed m V)
    (hroom : (live V).length + (live S).length < m + 1) :
    ∃ index' V', rehash cells m sp index = some index' ∧ Views cells index' V' ∧
      V'.length = m + 1 ∧ V'.countP Slot.isGarbage = 0 ∧ Hashed m V' ∧
      (live V').Perm (live S ++ live V) ∧ (live index').Perm (live sp ++ live index) := by
  induction hs generalizing index V with
  | nil => exact ⟨index, V, rfl, hv, hlen, hgarbage, hh, .refl _, .refl _⟩
  | @cons s s' sp S hslot hs ih =>
      match s, s', hslot with
      | .null, .null, _ => exact ih hok hv hlen hgarbage hh hroom
      | .garbage, .garbage, _ => exact ih hok hv hlen hgarbage hh hroom
      | .entry a, .entry e, hcell =>
          have hlive : live (Slot.entry e :: S) = e :: live S := rfl
          have hlive' : live (Slot.entry a :: sp) = a :: live sp := rfl
          rw [hlive, List.length_cons] at hroom
          have he : e.Ok keySize := hok e List.mem_cons_self
          have hrange (j : Nat) : probeSeq m e.key j < V.length := by
            rw [hlen]
            exact probeSeq_lt hm e.key j
          obtain ⟨pn, hpn, hpn'⟩ := exists_null (V := V) (by omega)
          obtain ⟨J, hJ, hstop, hbefore⟩ := (probeSeq_covers hm e.key hk).exists_first
            (fun p => V[p]? = some .null) (hlen ▸ hpn) hpn'
          have hfirst := firstEmpty_spec hv hrange hstop hbefore 0 (m + 1) (Nat.zero_le J)
            (by omega)
          have hword : e.key < 2 ^ 32 := he.hash ▸ hashOf_lt _ _
          have hstart : (e.key + 0 * step e.key) % 2 ^ 32 = e.key := by
            rw [Nat.zero_mul, Nat.add_zero, Nat.mod_eq_of_lt hword]
          rw [hstart] at hfirst
          set dp := probeSeq m e.key J with hdp
          have hperm := live_insert hstop rfl e
          have hperm' := live_insert (hv.null hstop) rfl a
          obtain ⟨index', V', hrun, hv', hlen', hgarbage', hh', hlive₁, hlive₂⟩ :=
            ih (fun e' he' => hok e' (List.mem_cons_of_mem _ he'))
              (hv.set (s := .entry a) (t := .entry e) hcell dp)
              (by rw [List.length_set, hlen])
              (by
                rw [List.countP_set (hrange J), hgarbage, Nat.zero_sub]
                rfl)
              (hh.set nofun fun e' he' => by
                rw [← Slot.entry.inj he']
                exact ⟨J, rfl, hbefore⟩)
              (by
                rw [hperm.length_eq, List.length_cons]
                omega)
          refine ⟨index', V', ?_, hv', hlen', hgarbage', hh', ?_, ?_⟩
          · have hcell' : cells a = .entry e := hcell
            simp only [rehash, hcell', hfirst, Option.bind_some]
            exact hrun
          · rw [hlive]
            exact hlive₁.trans ((hperm.append_left _).trans List.perm_middle)
          · rw [hlive']
            exact hlive₂.trans ((hperm'.append_left _).trans List.perm_middle)

end

/-- The size of an index is the smallest power of two, from 256 on, above `ne`. -/
theorem indexSize_spec {ne : Nat} (hne : ne ≤ 2 ^ 31 - 1) :
    ∃ k, indexSize ne = 2 ^ k ∧ 8 ≤ k ∧ k ≤ 31 ∧ ne < indexSize ne := by
  have hloop : ∀ fuel k, ∃ k', doubling ne fuel (2 ^ k) = 2 ^ k' ∧ k ≤ k' ∧ k' ≤ k + fuel ∧
      (k' < k + fuel → ne < 2 ^ k') ∧ (k < k' → 2 ^ (k' - 1) ≤ ne) := by
    intro fuel
    induction fuel with
    | zero => exact fun k => ⟨k, rfl, le_rfl, le_rfl, fun h => absurd h (lt_irrefl _),
        fun h => absurd h (lt_irrefl _)⟩
    | succ fuel ih =>
        intro k
        rw [doubling]
        split_ifs with hle
        · obtain ⟨k', heq, hlow, hhigh, hbelow, habove⟩ := ih (k + 1)
          rw [Nat.pow_succ'] at heq
          refine ⟨k', heq, by omega, by omega, fun h => hbelow (by omega), fun _ => ?_⟩
          rcases Nat.lt_or_eq_of_le hlow with hlt | rfl
          · exact habove hlt
          · exact hle
        · exact ⟨k, rfl, le_rfl, by omega, fun _ => not_le.mp hle,
            fun h => absurd h (lt_irrefl _)⟩
  obtain ⟨k, heq, hlow, hhigh, hbelow, habove⟩ := hloop 24 8
  have hk : k < 32 := by
    by_contra hge
    have hpow := habove (by omega)
    have : (2 : Nat) ^ 31 ≤ 2 ^ (k - 1) := Nat.pow_le_pow_right (by decide) (by omega)
    omega
  exact ⟨k, heq, hlow, by omega, by
    show ne < doubling ne 24 (2 ^ 8)
    rw [heq]
    exact hbelow (by omega)⟩

end Senna.Set
