/-
# The keys of a symbol table

As long as no key is deleted, the numbers of a symbol table are those of the nodes that have been
taken, one after the other, and each node holds its key: in itself, or in the segments of keys,
where a new key is put behind all others.
-/

import Mathlib.Data.List.GetD
import Senna.Sym.KeyBits

namespace Senna.Sym

open Senna.Lib Senna.Lib.BitTree

/-- The key with a number, which is its place in a list, counted from 1 on. -/
def keyOf (ks : List (List UInt8)) (a : Nat) : List UInt8 := ks.getD (a - 1) []

/-- A number that a key has. -/
structure Live (ks : List (List UInt8)) (a : Nat) : Prop where
  pos : 1 ≤ a
  le : a ≤ ks.length

section

variable {ks : List (List UInt8)} {key : List UInt8} {a b : Nat}

theorem Live.append (h : Live ks a) (key : List UInt8) : Live (ks ++ [key]) a :=
  ⟨h.pos, by rw [List.length_append]; exact Nat.le_add_right_of_le h.le⟩

theorem live_new (ks : List (List UInt8)) (key : List UInt8) :
    Live (ks ++ [key]) (ks.length + 1) :=
  ⟨Nat.succ_pos _, by rw [List.length_append, List.length_singleton]⟩

theorem live_append_iff : Live (ks ++ [key]) a ↔ Live ks a ∨ a = ks.length + 1 := by
  constructor
  · rintro ⟨hpos, hle⟩
    rw [List.length_append, List.length_singleton] at hle
    rcases Nat.lt_or_eq_of_le hle with hlt | heq
    · exact .inl ⟨hpos, Nat.le_of_lt_succ hlt⟩
    · exact .inr heq
  · rintro (h | rfl)
    · exact h.append key
    · exact live_new ks key

theorem keyOf_append (h : Live ks a) : keyOf (ks ++ [key]) a = keyOf ks a :=
  List.getD_append ks [key] [] (a - 1) (by have := h.pos; have := h.le; omega)

theorem keyOf_new (ks : List (List UInt8)) (key : List UInt8) :
    keyOf (ks ++ [key]) (ks.length + 1) = key := by
  rw [keyOf, Nat.add_sub_cancel, List.getD_append_right ks [key] [] _ le_rfl, Nat.sub_self]
  rfl

theorem Live.mem (h : Live ks a) : keyOf ks a ∈ ks := by
  have hlt : a - 1 < ks.length := by have := h.pos; have := h.le; omega
  rw [keyOf, List.getD_eq_getElem ks [] hlt]
  exact List.getElem_mem hlt

theorem exists_live (h : key ∈ ks) : ∃ a, Live ks a ∧ keyOf ks a = key := by
  obtain ⟨i, hi, rfl⟩ := List.mem_iff_getElem.mp h
  exact ⟨i + 1, ⟨Nat.succ_pos i, hi⟩, List.getD_eq_getElem ks [] hi⟩

theorem Live.inj (hnodup : ks.Nodup) (ha : Live ks a) (hb : Live ks b)
    (h : keyOf ks a = keyOf ks b) : a = b := by
  have hlta : a - 1 < ks.length := by have := ha.pos; have := ha.le; omega
  have hltb : b - 1 < ks.length := by have := hb.pos; have := hb.le; omega
  rw [keyOf, keyOf, List.getD_eq_getElem ks [] hlta, List.getD_eq_getElem ks [] hltb] at h
  have heq := (List.Nodup.getElem_inj_iff hnodup).mp h
  have := ha.pos
  have := hb.pos
  omega

end

/-- The field of a node gives the key. -/
def KeyAt (s : SenSym) (key : List UInt8) : PatKey → Prop
  | .immediate bytes => bytes = key
  | .stored pos => 0 < key.length ∧ 0 < s.keySegments ∧ pos + key.length ≤ s.currKey ∧
      s.keys.read pos key.length = key

/-- The bytes of keys. -/
def bytes (ks : List (List UInt8)) : Nat := (ks.map List.length).sum

/-- The end of the keys is in the last segment of keys, and at the end of all without one. The
segments before are full up to less than a key, if the keys have `n` bytes. -/
def Top (s : SenSym) (n : Nat) : Prop :=
  s.keySegments = 0 ∧ s.currKey = 2 ^ 32 - 1 ∨
    0 < s.keySegments ∧ (s.keySegments - 1) * senSymSegmentSize < s.currKey ∧
      s.currKey ≤ s.keySegments * senSymSegmentSize ∧ s.currKey ≤ n + (s.keySegments - 1) * 0x2000

/-- A table whose keys are `ks`, in the order in which they have come. -/
structure Stored (s : SenSym) (ks : List (List UInt8)) : Prop where
  count : s.currRec = ks.length
  total : s.nrecords = ks.length
  idLe : s.currRec ≤ senSymMaxId
  pat : s.patSegments = s.currRec / 2 ^ 18 + 1
  sis : s.sisSegments = 0
  noGarbage : ∀ i, s.garbages i = 0
  top : Top s (bytes ks)
  isKey : ∀ key ∈ ks, IsKey s.keySize key
  nodup : ks.Nodup
  own : ∀ a, Live ks a → KeyAt s (keyOf ks a) (s.nodes a).key

/-- Keys for which there are numbers and segments. A segment that is full lacks less than the
longest key. -/
structure Fits (ks : List (List UInt8)) : Prop where
  ids : ks.length ≤ senSymMaxId
  segments : bytes ks / (senSymSegmentSize - 0x2000) + ks.length / 2 ^ 18 + 4 ≤ senSymMaxSegment

section

variable {s s' : SenSym} {ks : List (List UInt8)} {key : List UInt8} {kw : PatKey} {a : Nat}

theorem Stored.patAt (h : Stored s ks) (ha : a ≤ ks.length) : s.patAt a = some (s.nodes a) := by
  have hle : a ≤ s.currRec := h.count ▸ ha
  refine if_pos ⟨le_trans hle h.idLe, ?_⟩
  rw [h.pat]
  exact Nat.lt_succ_of_le (Nat.div_le_div_right hle)

theorem Stored.getKey (h : Stored s ks) (ha : Live ks a) :
    ∃ p, s.patNodeGetKey (s.nodes a) = some p ∧
      p.read 0 (keyOf ks a).length = keyOf ks a := by
  have hown := h.own a ha
  unfold SenSym.patNodeGetKey
  cases hkey : (s.nodes a).key with
  | immediate bytes =>
      rw [hkey] at hown
      obtain rfl := hown
      refine ⟨_, rfl, List.ext_getElem (Memory.length_read _ _ _) fun i hi _ => ?_⟩
      rw [← List.getD_eq_getElem _ 0 hi]
      rw [Memory.length_read] at hi
      rw [read_getD hi, Nat.zero_add, List.getD_eq_getElem _ 0 hi]
  | stored pos =>
      rw [hkey] at hown
      obtain ⟨hpos, hseg, hle, hread⟩ := hown
      have hlt : pos / senSymSegmentSize < s.keySegments := by
        rcases h.top with ⟨hzero, -⟩ | ⟨-, -, htop, -⟩
        · omega
        · exact Nat.div_lt_of_lt_mul (by rw [Nat.mul_comm]; omega)
      refine ⟨_, if_pos hlt, Eq.trans ?_ hread⟩
      refine List.ext_getElem (by rw [Memory.length_read, Memory.length_read]) fun i hi hi' => ?_
      rw [← List.getD_eq_getElem _ 0 hi, ← List.getD_eq_getElem _ 0 hi']
      rw [Memory.length_read] at hi
      rw [read_getD hi, read_getD hi, Nat.zero_add]

/-- A key stays if the bytes below `currKey` do. -/
theorem KeyAt.congr (h : KeyAt s key kw) (hseg : s.keySegments ≤ s'.keySegments)
    (htop : 0 < s.keySegments → s.currKey ≤ s'.currKey)
    (hbytes : 0 < s.keySegments → ∀ i < s.currKey, s'.keys i = s.keys i) : KeyAt s' key kw := by
  cases kw with
  | immediate bytes => exact h
  | stored pos =>
      obtain ⟨hpos, hold, hle, hread⟩ := h
      refine ⟨hpos, lt_of_lt_of_le hold hseg, le_trans hle (htop hold), Eq.trans ?_ hread⟩
      exact Memory.read_congr fun i _ hi => hbytes hold i (by omega)

theorem bytes_append (ks : List (List UInt8)) (key : List UInt8) :
    bytes (ks ++ [key]) = bytes ks + key.length := by
  rw [bytes, bytes, List.map_append, List.sum_append]
  rfl

theorem Top.mono {n m : Nat} (h : Top s n) (hle : n ≤ m) : Top s m := by
  rcases h with h | ⟨hpos, hlow, hhigh, hn⟩
  · exact .inl h
  · exact .inr ⟨hpos, hlow, hhigh, by omega⟩

/-- There are segments for one more key. -/
theorem Stored.room (h : Stored s ks) (hfits : Fits (ks ++ [key])) :
    s.currRec < senSymMaxId ∧ s.keySegments + s.patSegments + s.sisSegments + 2 ≤
      senSymMaxSegment := by
  have hids := hfits.ids
  have hsegments := hfits.segments
  have hpat := h.pat
  have hsis := h.sis
  have htop := h.top
  rw [h.count] at hpat ⊢
  rw [bytes_append] at hsegments
  rw [List.length_append, List.length_singleton] at hids hsegments
  refine ⟨hids, ?_⟩
  unfold Top at htop
  unfold senSymSegmentSize at htop hsegments
  omega

/-- The node `s.currRec + 1` is new. -/
theorem patNodeNew_spec (hpat : s.patSegments = s.currRec / 2 ^ 18 + 1)
    (hnode : s.currRec < senSymMaxId)
    (hsegments : s.keySegments + s.patSegments + s.sisSegments + 1 ≤ senSymMaxSegment) :
    s.patNodeNew = some (some (s.currRec + 1, { s with
      patSegments := (s.currRec + 1) / 2 ^ 18 + 1
      currRec := s.currRec + 1
      nrecords := s.nrecords + 1 })) := by
  unfold SenSym.patNodeNew
  rw [if_neg (not_lt.mpr hnode)]
  by_cases hfits : (s.currRec + 1) / 2 ^ 18 = s.currRec / 2 ^ 18
  · rw [hfits, ← hpat, Nat.sub_self]
    rfl
  · have hfree : s.hasSegment := by
      unfold SenSym.hasSegment
      omega
    have hnext : (s.currRec + 1) / 2 ^ 18 = s.patSegments := by omega
    rw [hnext, Nat.add_sub_cancel_left, SenSym.patGetLoop, SenSym.segmentNewPat, if_pos hfree]
    rfl

/-- `key_put` puts a key behind all others. -/
theorem keyPut_spec {n : Nat} (hlen : 1 < key.length) (hshort : key.length ≤ 0x2000)
    (htop : Top s n)
    (hsegments : s.keySegments + s.patSegments + s.sisSegments + 1 ≤ senSymMaxSegment)
    (hpat : 0 < s.patSegments) :
    ∃ s', s.keyPut key = (s'.currKey - key.length, s') ∧
      s' = { s with keySegments := s'.keySegments, currKey := s'.currKey, keys := s'.keys } ∧
      s.keySegments ≤ s'.keySegments ∧ 0 < s'.keySegments ∧ Top s' (n + key.length) ∧
      key.length ≤ s'.currKey ∧ (0 < s.keySegments → s.currKey + key.length ≤ s'.currKey) ∧
      s'.keys = s.keys.write (s'.currKey - key.length) key := by
  unfold SenSym.keyPut SenSym.segmentNewKey
  unfold senSymMaxSegment at hsegments
  unfold Top at htop ⊢
  unfold senSymSegmentSize at *
  rw [if_neg (by omega)]
  dsimp only
  by_cases hnew : 0x400000 < s.currKey % 0x400000 + key.length ∨ s.currKey % 0x400000 = 0
  · have hfree : s.hasSegment := by
      unfold SenSym.hasSegment senSymMaxSegment
      omega
    have hbelow : s.keySegments * 0x400000 % 2 ^ 32 = s.keySegments * 0x400000 :=
      Nat.mod_eq_of_lt (by omega)
    have hbelow' : (s.keySegments * 0x400000 + key.length) % 2 ^ 32 =
        s.keySegments * 0x400000 + key.length := Nat.mod_eq_of_lt (by omega)
    rw [if_pos hnew, if_pos hfree]
    dsimp only
    rw [hbelow, Nat.mul_div_cancel _ (by omega), if_pos (Nat.lt_succ_self _), hbelow']
    refine ⟨_, Prod.ext ?_ rfl, rfl, Nat.le_succ _, Nat.succ_pos _, .inr ?_, ?_, ?_, ?_⟩
    · exact (Nat.add_sub_cancel _ _).symm
    · dsimp only
      omega
    · exact Nat.le_add_left _ _
    · intro hpos
      dsimp only
      omega
    · dsimp only
      rw [Nat.add_sub_cancel]
  · -- without a segment `currKey` is at the end of one, so that no key fits
    have hpos : 0 < s.keySegments ∧ s.currKey ≤ s.keySegments * 0x400000 := by omega
    have hin : s.currKey / 0x400000 < s.keySegments := by omega
    have hbelow : (s.currKey + key.length) % 2 ^ 32 = s.currKey + key.length :=
      Nat.mod_eq_of_lt (by omega)
    rw [if_neg hnew]
    dsimp only
    rw [if_pos hin, hbelow]
    refine ⟨_, Prod.ext ?_ rfl, rfl, le_rfl, hpos.1, .inr ?_, ?_, fun _ => le_rfl, ?_⟩
    · exact (Nat.add_sub_cancel _ _).symm
    · dsimp only
      omega
    · exact Nat.le_add_left _ _
    · dsimp only
      rw [Nat.add_sub_cancel]

theorem setNode_self (s : SenSym) (id : Nat) (n : PatNode) : (s.setNode id n).nodes id = n := by
  dsimp only [SenSym.setNode]
  rw [Function.update_self]

/-- `pat_node_set_key` gives a field with the key, and keeps the other keys. -/
theorem patNodeSetKey_spec {n : Nat} (hlen : 0 < key.length) (hshort : key.length ≤ 0x2000)
    (htop : Top s n)
    (hsegments : s.keySegments + s.patSegments + s.sisSegments + 1 ≤ senSymMaxSegment)
    (hpat : 0 < s.patSegments) :
    ∃ kw s', s.patNodeSetKey key = (kw, s') ∧
      s' = { s with keySegments := s'.keySegments, currKey := s'.currKey, keys := s'.keys } ∧
      Top s' (n + key.length) ∧ KeyAt s' key kw ∧
      ∀ {key' kw'}, KeyAt s key' kw' → KeyAt s' key' kw' := by
  unfold SenSym.patNodeSetKey
  by_cases hfour : key.length ≤ 4
  · rw [if_pos hfour]
    exact ⟨_, _, rfl, rfl, htop.mono (Nat.le_add_right _ _), rfl, id⟩
  · obtain ⟨s', hput, hs', hlow, hpos, hend, hin, hbehind, hwrite⟩ :=
      keyPut_spec (by omega) hshort htop hsegments hpat
    rw [if_neg hfour, hput]
    refine ⟨_, s', rfl, hs', hend, ?_, fun hkeyAt => ?_⟩
    · refine ⟨hlen, hpos, (Nat.sub_add_cancel hin).le, ?_⟩
      rw [hwrite]
      exact Memory.read_write s.keys _ key
    · refine hkeyAt.congr hlow (fun hseg => ?_) fun hseg i hi => ?_
      · exact le_trans (Nat.le_add_right _ _) (hbehind hseg)
      · have hle := hbehind hseg
        rw [hwrite]
        exact Memory.write_of_not_mem (by omega)

/-- **A new node** takes the next number and holds the key, and the other nodes stay. -/
theorem Stored.getNode (h : Stored s ks) (hfits : Fits (ks ++ [key]))
    (hkey : IsKey s.keySize key) (hnew : key ∉ ks) :
    ∃ l s', s.getNode key key.length 0 = some (ks.length + 1, l, s') ∧ Stored s' (ks ++ [key]) ∧
      s'.keySize = s.keySize ∧ ∀ id ≠ ks.length + 1, s'.nodes id = s.nodes id := by
  obtain ⟨hnode, hroom⟩ := h.room hfits
  have hshort := hkey.short
  unfold senSymMaxKeyLength at hshort
  have hrun := patNodeNew_spec h.pat hnode (by omega)
  have hpat : (s.currRec + 1) / 2 ^ 18 + 1 ≤ s.patSegments + 1 := by
    have := h.pat
    omega
  generalize hs₁ : ({ s with
    patSegments := (s.currRec + 1) / 2 ^ 18 + 1
    currRec := s.currRec + 1
    nrecords := s.nrecords + 1 } : SenSym) = s₁ at hrun
  have hsegments : s₁.keySegments + s₁.patSegments + s₁.sisSegments + 1 ≤ senSymMaxSegment := by
    rw [← hs₁]
    dsimp only
    omega
  obtain ⟨kw, s₂, hset, hs₂, htop, hat, hkeep⟩ := patNodeSetKey_spec (s := s₁) (n := bytes ks)
    hkey.length_pos (by omega) (by rw [← hs₁]; exact h.top) hsegments
    (by rw [← hs₁]; exact Nat.succ_pos _)
  unfold SenSym.getNode
  rw [if_neg (fun hl => hl.1 rfl), if_neg (not_not_intro (h.noGarbage _)), hrun, h.count]
  dsimp only [Option.map_some, Option.elim_some]
  rw [hset]
  dsimp only
  have hnodes : s₂.nodes = s.nodes := by rw [hs₂, ← hs₁]
  have hother : ∀ id ≠ ks.length + 1, (s₂.setNode (ks.length + 1)
      { s₂.nodes (ks.length + 1) with key := kw }).nodes id = s.nodes id := fun id hid =>
    (Function.update_of_ne hid _ _).trans (congrFun hnodes id)
  refine ⟨_, _, rfl, ?_, by rw [hs₂, ← hs₁]; rfl, hother⟩
  have hsize : s₂.keySize = s.keySize := by rw [hs₂, ← hs₁]
  have hcount : s₂.currRec = s.currRec + 1 := by rw [hs₂, ← hs₁]
  have htotal : s₂.nrecords = s.nrecords + 1 := by rw [hs₂, ← hs₁]
  have hpat₂ : s₂.patSegments = (s.currRec + 1) / 2 ^ 18 + 1 := by rw [hs₂, ← hs₁]
  have hsis : s₂.sisSegments = s.sisSegments := by rw [hs₂, ← hs₁]
  have hgarbage : s₂.garbages = s.garbages := by rw [hs₂, ← hs₁]
  exact {
    count := by rw [List.length_append, List.length_singleton, ← h.count]; exact hcount
    total := by rw [List.length_append, List.length_singleton, ← h.total]; exact htotal
    idLe := hcount.trans_le hnode
    pat := by
      change s₂.patSegments = s₂.currRec / 2 ^ 18 + 1
      rw [hpat₂, hcount]
    sis := hsis.trans h.sis
    noGarbage := fun i => (congrFun hgarbage i).trans (h.noGarbage i)
    top := by
      rw [bytes_append]
      exact htop
    isKey := fun k hk => by
      change IsKey s₂.keySize k
      rw [hsize]
      rcases List.mem_append.mp hk with hk | hk
      · exact h.isKey k hk
      · exact List.mem_singleton.mp hk ▸ hkey
    nodup := List.nodup_append.mpr ⟨h.nodup, List.nodup_singleton key, fun k hk k' hk' heq =>
      hnew (List.mem_singleton.mp hk' ▸ heq ▸ hk)⟩
    own := fun a ha => by
      rcases live_append_iff.mp ha with hlive | rfl
      · have hle := hlive.le
        rw [keyOf_append hlive, hother a (by omega)]
        have hold : KeyAt s₁ (keyOf ks a) (s.nodes a).key := by
          rw [← hs₁]
          exact (h.own a hlive).congr le_rfl (fun _ => le_rfl) fun _ _ _ => rfl
        exact (hkeep hold).congr le_rfl (fun _ => le_rfl) fun _ _ _ => rfl
      · rw [keyOf_new, setNode_self]
        exact hat.congr le_rfl (fun _ => le_rfl) fun _ _ _ => rfl }

end

end Senna.Sym
