/-
# Prefix search

The keys that begin with a string are those below one node. `sen_sym_prefix_search` goes down to
this node and puts the numbers of all nodes below into a set. A number that is above as a node is
put there where the way up to it begins. A number that is no node at all would be missed; there is
none unless a key has the byte 1, which differs from a terminator in its last bit only.
-/

import Mathlib.Data.List.TakeWhile
import Senna.Sym.TableRuns

namespace Senna.Sym

open Senna.Lib Senna.Lib.BitTree SenSym

namespace SenSym

variable (s : SenSym)

/-- One side in `get_tc`: the numbers put into the set, one after the other. -/
def getTcSide (len check : Nat) (below : PatNode → Option (List Nat)) (id : Nat) :
    Option (List Nat) :=
  if id = 0 then some []
  else
    match s.patAt id with
    | none => some []
    | some n =>
        if check < n.check then (below n).map (id :: ·)
        else if n.check < len then some [id]
        else some []

/-- `get_tc` -/
def getTc (len : Nat) : Nat → PatNode → Option (List Nat)
  | 0, _ => none
  | k + 1, rn =>
      (s.getTcSide len rn.check (getTc len k) rn.r).bind fun right =>
        (s.getTcSide len rn.check (getTc len k) rn.l).map (right ++ ·)

/-- The loop of `sen_sym_prefix_search_with_set`: an error, or the numbers put into the set. -/
def prefixLoop (key : List UInt8) : Nat → Int → Nat → Option (Option (List Nat))
  | 0, _, _ => none
  | k + 1, c, r =>
      if r = 0 then some none
      else
        match s.patAt r with
        | none => some none
        | some rn =>
            if c < rn.check ∧ rn.check < key.length * 8 then
              prefixLoop key k rn.check (s.link (r, nthBit key rn.check))
            else
              match s.patNodeGetKey rn with
              | none => some none
              | some p =>
                  if p.read 0 key.length = key then
                    if key.length * 8 ≤ rn.check then
                      (s.getTc (key.length * 8) k rn).map fun ids => some (r :: ids)
                    else some (some [r])
                  else some none

/-- `sen_sym_prefix_search`: `NULL`, or the numbers put into the set. -/
def senSymPrefixSearch (key : List UInt8) (k : Nat) : Option (Option (List Nat)) :=
  if s.keySize ≠ 0 then some none
  else s.prefixLoop (key.takeWhile (· ≠ 0)) k (-1) (s.link rootLink)

end SenSym

section

variable {x w K : List UInt8} {p : Memory UInt8}

theorem byte_ext {a b : UInt8} (h : ∀ j < 8, byteBit a j = byteBit b j) : a = b := by
  refine UInt8.toNat_inj.mp (Nat.eq_of_testBit_eq fun i => ?_)
  by_cases hi : i < 8
  · have hbit := h (7 - i) (by omega)
    rwa [byteBit_eq_testBit (by omega), byteBit_eq_testBit (by omega),
      show 7 - (7 - i) = i by omega] at hbit
  · rw [Nat.testBit_lt_two_pow, Nat.testBit_lt_two_pow]
    · exact lt_of_lt_of_le b.toNat_lt (Nat.pow_le_pow_right (by decide) (not_lt.mp hi))
    · exact lt_of_lt_of_le a.toNat_lt (Nat.pow_le_pow_right (by decide) (not_lt.mp hi))

/-- The bytes that two keys have in common. -/
theorem byte_of_agree {n : Nat} (h : Agree nthBit n x w) {i : Nat} (hi : (i + 1) * 8 ≤ n) :
    x.getD i 0 = w.getD i 0 := by
  refine byte_ext fun j hj => ?_
  have hbit := h (i * 8 + j) (by omega)
  rwa [nthBit_eq, nthBit_eq, show (i * 8 + j) / 8 = i by omega,
    show (i * 8 + j) % 8 = j by omega] at hbit

/-- A key that begins with a string has its bits. -/
theorem agree_of_begins (h : w <+: x) : Agree nthBit (bitLen w) x w := by
  obtain ⟨r, rfl⟩ := h
  intro i hi
  have hlt : i / 8 < w.length := by
    unfold bitLen at hi
    omega
  rw [nthBit_eq, nthBit_eq, List.getD_append w r 0 _ hlt]

theorem prefix_of_agree (h : Agree nthBit (bitLen w) x w) (hle : w.length ≤ x.length) :
    w <+: x := by
  rw [List.prefix_iff_eq_take]
  refine List.ext_getElem (by rw [List.length_take, Nat.min_eq_left hle]) fun i hi _ => ?_
  rw [List.getElem_take, ← List.getD_eq_getElem w 0 hi,
    ← List.getD_eq_getElem x 0 (lt_of_lt_of_le hi hle)]
  exact (byte_of_agree h (by unfold bitLen; omega)).symm

/-- A comparison with the key of a node, of as many bytes as the string has. -/
theorem read_eq_iff (hK : IsKey 0 K) (hp : p.read 0 K.length = K) (hw : (0 : UInt8) ∉ w) :
    p.read 0 w.length = w ↔ w <+: K := by
  constructor
  · intro h
    rcases Nat.le_total w.length K.length with hle | hle
    · obtain ⟨d, hd⟩ := Nat.exists_eq_add_of_le hle
      rw [hd, Memory.read_add, h] at hp
      exact ⟨_, hp⟩
    · -- the string would have the terminator of the key
      obtain ⟨d, hd⟩ := Nat.exists_eq_add_of_le hle
      rw [hd, Memory.read_add, hp] at h
      obtain ⟨u, -, rfl⟩ := hK.size
      refine absurd ?_ hw
      rw [← h]
      exact List.mem_append_left _ (List.mem_append_right u List.mem_cons_self)
  · rintro ⟨r, rfl⟩
    rw [List.length_append, Memory.read_add] at hp
    exact (List.append_inj hp (Memory.length_read _ _ _)).1

end

/-- Of two strings that differ in the last bit of the first one, the other has the byte 1. -/
theorem LastDiff.one_mem {key : List UInt8} (hkey : IsKey 0 key) (h : LastDiff x key) :
    (1 : UInt8) ∈ x := by
  obtain ⟨u, hu, rfl⟩ := hkey.size
  have hlast : bitLen (u ++ [0]) - 1 = u.length * 8 + 7 := by
    unfold bitLen
    rw [List.length_append, List.length_singleton]
    omega
  rw [LastDiff, hlast] at h
  have hlong : u.length < x.length := by
    have hleft := h.left
    unfold bitLen at hleft
    omega
  have hzero : (u ++ [0]).getD u.length 0 = 0 := by
    rw [List.getD_append_right u [0] 0 _ le_rfl, Nat.sub_self]
    rfl
  have hone : x.getD u.length 0 = 1 := by
    refine byte_ext fun j hj => ?_
    rcases Nat.lt_or_eq_of_le (Nat.le_of_lt_succ hj) with hlt | rfl
    · have hbit := h.agree (u.length * 8 + j) (by omega)
      rw [nthBit_eq, nthBit_eq, show (u.length * 8 + j) / 8 = u.length by omega,
        show (u.length * 8 + j) % 8 = j by omega, hzero] at hbit
      rw [hbit]
      have hlow : ∀ j < 7, byteBit 0 j = byteBit 1 j := by decide
      exact hlow j hlt
    · have hbit := h.differ
      rw [nthBit_eq, nthBit_eq, show (u.length * 8 + 7) / 8 = u.length by omega,
        show (u.length * 8 + 7) % 8 = 7 by omega, hzero] at hbit
      cases hb : byteBit (x.getD u.length 0) 7
      · exact absurd hb hbit
      · rfl
  rw [← hone, List.getD_eq_getElem x 0 hlong]
  exact List.getElem_mem hlong

/-- The numbers that `get_tc` puts into the set, and the number of the node in front. -/
def gather (M : Links) (len : Nat) : BitTree Nat → List Nat
  | .nil => []
  | .leaf a => if M.check a < len then [a] else []
  | .node a _ l r => a :: (gather M len r ++ gather M len l)

theorem gather_perm (M : Links) (len : Nat) (t : BitTree Nat) :
    (gather M len t).Perm (t.inners ++ t.leaves.filter fun a => M.check a < len) := by
  induction t with
  | nil => exact List.Perm.refl _
  | leaf a =>
      by_cases ha : M.check a < len
      · simp [gather, BitTree.inners, BitTree.leaves, ha]
      · simp [gather, BitTree.inners, BitTree.leaves, ha]
  | node a c l r ihl ihr =>
      rw [gather, BitTree.inners, BitTree.leaves, List.filter_append, List.cons_append]
      refine List.Perm.cons a ((ihr.append ihl).trans ?_)
      -- the nodes of both sides are in front of the leaves of both
      generalize List.filter _ l.leaves = xl
      generalize List.filter _ r.leaves = xr
      rw [List.perm_iff_count]
      intro x
      simp only [List.count_append]
      omega

section

variable {s : SenSym} {ks : List (List UInt8)} {t l r : BitTree Nat} {w : List UInt8}
  {len n k a c v : Nat} {x : Int} {p : Nat × Bool}

theorem getTc_node (hcheck : (s.nodes a).check = c)
    (hr : s.getTcSide len c (s.getTc len k) (s.link (a, true)) = some (gather s.links len r))
    (hl : s.getTcSide len c (s.getTc len k) (s.link (a, false)) = some (gather s.links len l)) :
    (s.getTc len (k + 1) (s.nodes a)).map (a :: ·) =
      some (gather s.links len (node a c l r)) := by
  rw [getTc, hcheck]
  change Option.map _ (Option.bind (s.getTcSide len c (s.getTc len k) (s.link (a, true)))
    fun right => Option.map _ (s.getTcSide len c (s.getTc len k) (s.link (a, false)))) = _
  rw [hr, Option.bind_some, hl]
  rfl

/-- `get_tc` goes through all nodes below. -/
theorem getTcSide_gather (len k : Nat) (hrep : s.links.Rep (c + 1) v t)
    (hat : ∀ a ∈ t.inners ++ t.leaves, s.patAt a = some (s.nodes a))
    (hbound : ∀ a ∈ t.inners, (s.nodes a).check < n) (hk : n - (c + 1) ≤ k) :
    s.getTcSide len c (s.getTc len k) v = some (gather s.links len t) := by
  induction t generalizing c k v with
  | nil => exact if_pos hrep
  | leaf a =>
      obtain ⟨rfl, hpos, hcheck⟩ := hrep
      have hcheck : (s.nodes v).check < c + 1 := hcheck
      rw [getTcSide, if_neg hpos, hat v List.mem_cons_self]
      dsimp only
      rw [if_neg (by omega)]
      by_cases hlen : (s.nodes v).check < len
      · rw [if_pos hlen, gather]
        exact congrArg some (if_pos hlen).symm
      · rw [if_neg hlen, gather]
        exact congrArg some (if_neg hlen).symm
  | node a d l r ihl ihr =>
      obtain ⟨rfl, hpos, hcheck, hd, hl, hr⟩ := hrep
      have hcheck : (s.nodes v).check = d := hcheck
      have hlt := hbound v List.mem_cons_self
      obtain ⟨k, rfl⟩ := Nat.exists_eq_add_one_of_ne_zero (by omega : k ≠ 0)
      have hright := ihr k hr (fun b hb => hat b (mem_child (b := true) hb v d))
        (fun b hb => hbound b (inners_child (b := true) hb v d)) (by omega)
      have hleft := ihl k hl (fun b hb => hat b (mem_child (b := false) hb v d))
        (fun b hb => hbound b (inners_child (b := false) hb v d)) (by omega)
      rw [getTcSide, if_neg hpos, hat v List.mem_cons_self]
      dsimp only
      rw [hcheck, if_pos (by omega)]
      exact getTc_node hcheck hright hleft

/-- The numbers below the node `a`, if its key begins with the string. -/
def SenSym.prefixAt (s : SenSym) (w : List UInt8) (a : Nat) (t : BitTree Nat) :
    Option (List Nat) :=
  (s.patNodeGetKey (s.nodes a)).bind fun p =>
    if p.read 0 w.length = w then some (gather s.links (bitLen w) t) else none

/-- What a prefix search finds at the end of the way of the string. -/
def SenSym.prefixEnd (s : SenSym) (w : List UInt8) : BitTree Nat → Option (List Nat)
  | .nil => none
  | .leaf a => s.prefixAt w a (.leaf a)
  | .node a c l r => s.prefixAt w a (.node a c l r)

/-- The loop of `sen_sym_prefix_search_with_set` goes the way of the string. -/
theorem prefixLoop_walk (hrep : s.links.Rep n (s.link p) t)
    (hat : ∀ a ∈ t.inners ++ t.leaves, s.patAt a = some (s.nodes a))
    (hbound : ∀ a ∈ t.inners, (s.nodes a).check < senSymMaxKeyLength) (hx : x + 1 = n)
    (hn : n ≤ bitLen w) (hk : bitLen w - n + senSymMaxKeyLength < k) :
    s.prefixLoop w k x (s.link p) =
      some (s.prefixEnd w (walk nthBit w (bitLen w) p n t).tree) := by
  induction t generalizing n k x p with
  | nil =>
      obtain ⟨k, rfl⟩ := Nat.exists_eq_add_one_of_ne_zero (Nat.ne_zero_of_lt hk)
      have hnil : s.link p = 0 := hrep
      rw [prefixLoop, if_pos hnil]
      rfl
  | leaf a =>
      obtain ⟨k, rfl⟩ := Nat.exists_eq_add_one_of_ne_zero (Nat.ne_zero_of_lt hk)
      have hlink : s.link p = a := hrep.1
      have hcheck : (s.nodes a).check < n := hrep.2.2
      have hlow : (s.nodes a).check < bitLen w := lt_of_lt_of_le hcheck hn
      rw [prefixLoop, hlink, if_neg hrep.2.1, hat a List.mem_cons_self]
      dsimp only
      rw [if_neg (by omega), BitTree.walk_leaf, prefixEnd, prefixAt, gather]
      cases s.patNodeGetKey (s.nodes a) with
      | none => rfl
      | some b =>
          have hin : ¬ w.length * 8 ≤ (s.nodes a).check := not_le.mpr hlow
          have hown : (if s.links.check a < bitLen w then [a] else []) = [a] := if_pos hlow
          rw [Option.bind_some, hown]
          dsimp only
          rw [if_neg hin]
          split_ifs <;> rfl
  | node a d l r ihl ihr =>
      obtain ⟨k, rfl⟩ := Nat.exists_eq_add_one_of_ne_zero (Nat.ne_zero_of_lt hk)
      have hlink : s.link p = a := hrep.1
      have hcheck : (s.nodes a).check = d := hrep.2.2.1
      have hd : n ≤ d := hrep.2.2.2.1
      rw [prefixLoop, hlink, if_neg hrep.2.1, hat a List.mem_cons_self]
      dsimp only
      rw [hcheck]
      by_cases hlen : d < bitLen w
      · have hlen' : d < w.length * 8 := hlen
        have hchild := hrep.child (nthBit w d)
        have hatC : ∀ b ∈ (child l r (nthBit w d)).inners ++
            (child l r (nthBit w d)).leaves, s.patAt b = some (s.nodes b) :=
          fun b hb => hat b (mem_child hb a d)
        have hboundC : ∀ b ∈ (child l r (nthBit w d)).inners,
            (s.nodes b).check < senSymMaxKeyLength := fun b hb => hbound b (inners_child hb a d)
        rw [if_pos ⟨by omega, hlen'⟩, walk_node p n l r hlen]
        cases hbit : nthBit w d <;> rw [hbit] at hchild hatC hboundC
        · exact ihl hchild hatC hboundC rfl hlen (by omega)
        · exact ihr hchild hatC hboundC rfl hlen (by omega)
      · have hlen' : ¬ d < w.length * 8 := hlen
        rw [if_neg (fun h => hlen' h.2), walk_stop p n l r hlen, prefixEnd, prefixAt]
        cases s.patNodeGetKey (s.nodes a) with
        | none => rfl
        | some b =>
            obtain ⟨k, rfl⟩ := Nat.exists_eq_add_one_of_ne_zero (by
              have := hbound a List.mem_cons_self
              omega : k ≠ 0)
            have hright := getTcSide_gather (bitLen w) k (hrep.child true)
              (fun b hb => hat b (mem_child hb a d))
              (fun b hb => hbound b (inners_child hb a d)) (by omega)
            have hleft := getTcSide_gather (bitLen w) k (hrep.child false)
              (fun b hb => hat b (mem_child hb a d))
              (fun b hb => hbound b (inners_child hb a d)) (by omega)
            rw [Option.bind_some]
            dsimp only
            rw [if_pos (not_lt.mp hlen')]
            split_ifs
            · refine Eq.trans ?_ (congrArg (Option.map some) (getTc_node hcheck hright hleft))
              rw [Option.map_map]
              rfl
            · rfl

theorem number_inj {x y : List UInt8} (h : ks.Nodup) (hx : x ∈ ks) (hy : y ∈ ks)
    (heq : number ks x = number ks y) : x = y := by
  obtain ⟨a, ha, rfl⟩ := exists_live hx
  obtain ⟨b, hb, rfl⟩ := exists_live hy
  rw [number_keyOf h ha, number_keyOf h hb] at heq
  rw [heq]

/-- The numbers of the keys that begin with a string. -/
def withPrefix (ks : List (List UInt8)) (w : List UInt8) : List Nat :=
  (ks.filter fun key => w <+: key).map (number ks)

theorem mem_withPrefix (h : ks.Nodup) : a ∈ withPrefix ks w ↔ Live ks a ∧ w <+: keyOf ks a := by
  unfold withPrefix
  rw [List.mem_map]
  constructor
  · rintro ⟨key, hkey, rfl⟩
    obtain ⟨hmem, hpre⟩ := List.mem_filter.mp hkey
    obtain ⟨b, hb, rfl⟩ := exists_live hmem
    rw [number_keyOf h hb]
    exact ⟨hb, of_decide_eq_true hpre⟩
  · rintro ⟨ha, hpre⟩
    exact ⟨keyOf ks a, List.mem_filter.mpr ⟨ha.mem, decide_eq_true hpre⟩, number_keyOf h ha⟩

theorem nodup_withPrefix (h : ks.Nodup) : (withPrefix ks w).Nodup :=
  List.Nodup.map_on (fun _ hx _ hy heq =>
    number_inj h (List.mem_filter.mp hx).1 (List.mem_filter.mp hy).1 heq) (h.filter _)

/-- The numbers below the node where the search for a string ends are those of all its keys. -/
theorem Holds.gather_perm (h : Holds s ks t) (hwhole : ∀ a, Live ks a → a ∈ t.inners)
    (hall : ∀ a ∈ (walk nthBit w (bitLen w) rootLink 0 t).tree.leaves, w <+: keyOf ks a) :
    (gather s.links (bitLen w) (walk nthBit w (bitLen w) rootLink 0 t).tree).Perm
      (withPrefix ks w) := by
  have hok : (walk nthBit w (bitLen w) rootLink 0 t).tree.Ok bitLen nthBit (keyOf ks)
    (walk nthBit w (bitLen w) rootLink 0 t).floor := h.ok.walk.1
  have hrep : s.links.Rep (bitLen w) _ (walk nthBit w (bitLen w) rootLink 0 t).tree :=
    h.rep.walk.lower (floor_le (Nat.zero_le _)) fun _ _ _ _ htree => le_of_walk htree
  have hnodup : (walk nthBit w (bitLen w) rootLink 0 t).tree.inners.Nodup := by
    obtain ⟨pre, post, hold, -⟩ := inners_graft nthBit w (bitLen w) rootLink 0 nil t
    have hdistinct := h.distinct
    rw [hold] at hdistinct
    exact (List.nodup_append.mp (List.nodup_append.mp hdistinct).1).2.1
  refine (Sym.gather_perm _ _ _).trans ((List.perm_ext_iff_of_nodup ?_
    (nodup_withPrefix h.nodup)).mpr fun a => ?_)
  · refine List.nodup_append.mpr ⟨hnodup, hok.nodup_leaves.filter _, ?_⟩
    rintro a ha _ hb rfl
    have hlow := of_decide_eq_true (List.mem_filter.mp hb).2
    exact absurd (hrep.le_check ha) (not_le.mpr hlow)
  · rw [List.mem_append, List.mem_filter, mem_withPrefix h.nodup]
    constructor
    · intro ha
      have hleaf : a ∈ (walk nthBit w (bitLen w) rootLink 0 t).tree.leaves :=
        ha.elim (fun hin => hok.mem_leaves hin) fun hleaf => hleaf.1
      exact ⟨(h.leaves a).mp (h.ok.walk.2.2 a hleaf), hall a hleaf⟩
    · rintro ⟨ha, hpre⟩
      have hleaf : a ∈ (walk nthBit w (bitLen w) rootLink 0 t).tree.leaves :=
        mem_walk h.ok ((h.leaves a).mpr ha) (agree_of_begins hpre)
      by_cases hin : a ∈ (walk nthBit w (bitLen w) rootLink 0 t).tree.inners
      · exact .inl hin
      · exact .inr ⟨hleaf, decide_eq_true (h.rep.check_lt h.ok (hwhole a ha) hleaf hin)⟩

/-- Of the keys where the search for a string ends, all begin with it if one does. -/
theorem Holds.prefix_all {b : Nat} (h : Holds s ks t)
    (ha : a ∈ (walk nthBit w (bitLen w) rootLink 0 t).tree.leaves) (hpre : w <+: keyOf ks a)
    (hb : b ∈ (walk nthBit w (bitLen w) rootLink 0 t).tree.leaves) : w <+: keyOf ks b := by
  cases htree : (walk nthBit w (bitLen w) rootLink 0 t).tree with
  | nil =>
      rw [htree] at hb
      exact absurd hb List.not_mem_nil
  | leaf d =>
      rw [htree] at ha hb
      rw [List.mem_singleton.mp hb, ← List.mem_singleton.mp ha]
      exact hpre
  | node d c l r =>
      have hok : (walk nthBit w (bitLen w) rootLink 0 t).tree.Ok bitLen nthBit (keyOf ks) _ :=
        h.ok.walk.1
      have hle := le_of_walk htree
      rw [htree] at ha hb hok
      obtain ⟨_, hsideA, -⟩ := hok.side ha
      obtain ⟨_, hsideB, -⟩ := hok.side hb
      have hsame : Agree nthBit (bitLen w) (keyOf ks b) (keyOf ks a) :=
        (hsideB.agree.trans hsideA.agree.symm).mono hle
      refine prefix_of_agree (hsame.trans (agree_of_begins hpre)) ?_
      have hlong := hsideB.long
      unfold bitLen at hle hlong
      omega

/-- **Prefix search** puts the number of each key that begins with the string into the set, once,
and no other; there is no set if no key begins with it. -/
theorem Holds.prefix_search (h : Holds s ks t) (hsize : s.keySize = 0)
    (hone : ∀ key ∈ ks, (1 : UInt8) ∉ key) (hw : (0 : UInt8) ∉ w)
    (hk : bitLen w + senSymMaxKeyLength < k) :
    ∃ r, s.senSymPrefixSearch w k = some r ∧ (r.getD []).Perm (withPrefix ks w) ∧
      (r = none ↔ ∀ key ∈ ks, ¬ w <+: key) := by
  have hwhole : ∀ a, Live ks a → a ∈ t.inners := by
    intro a ha
    rcases h.whole a ha with hin | ⟨key, hkey, hlast⟩
    · exact hin
    · exact absurd (hlast.one_mem (hsize ▸ h.isKey _ ha.mem)) (hone key hkey)
  have htake : w.takeWhile (· ≠ 0) = w :=
    List.takeWhile_eq_self_iff.mpr fun b hb => decide_eq_true fun hzero => hw (hzero ▸ hb)
  have hbound : ∀ a ∈ t.inners, (s.nodes a).check < senSymMaxKeyLength := fun a ha =>
    lt_of_lt_of_le (h.inside a (h.inners a ha)) (h.isKey _ (h.inners a ha).mem).short
  have hrun : s.senSymPrefixSearch w k =
      some (s.prefixEnd w (walk nthBit w (bitLen w) rootLink 0 t).tree) := by
    rw [senSymPrefixSearch, if_neg (not_not_intro hsize), htake]
    exact prefixLoop_walk h.rep (fun a ha => h.patAt (h.live ha).le) hbound rfl (Nat.zero_le _)
      (by omega)
  refine ⟨_, hrun, ?_⟩
  -- a key with the prefix is where the search ends
  have hend : ∀ a, Live ks a → w <+: keyOf ks a →
      a ∈ (walk nthBit w (bitLen w) rootLink 0 t).tree.leaves := fun a ha hpre =>
    mem_walk h.ok ((h.leaves a).mpr ha) (agree_of_begins hpre)
  have hempty : (∀ key ∈ ks, ¬ w <+: key) → withPrefix ks w = [] := fun hnone => by
    refine List.eq_nil_iff_forall_not_mem.mpr fun a ha => ?_
    obtain ⟨hlive, hpre⟩ := (mem_withPrefix h.nodup).mp ha
    exact hnone _ hlive.mem hpre
  have hat : ∀ a T, (walk nthBit w (bitLen w) rootLink 0 t).tree = T → a ∈ T.leaves →
      ((s.prefixAt w a T).getD []).Perm (withPrefix ks w) ∧
        (s.prefixAt w a T = none ↔ ∀ key ∈ ks, ¬ w <+: key) := by
    rintro a T rfl hmem
    have ha : Live ks a := (h.leaves a).mp (h.ok.walk.2.2 a hmem)
    obtain ⟨p, hget, hp⟩ := h.getKey ha
    have hiff := read_eq_iff (hsize ▸ h.isKey _ ha.mem) hp hw
    rw [prefixAt, hget, Option.bind_some]
    by_cases hpre : w <+: keyOf ks a
    · rw [if_pos (hiff.mpr hpre)]
      refine ⟨h.gather_perm hwhole fun b hb => h.prefix_all hmem hpre hb, ?_, ?_⟩
      · exact fun heq => absurd heq (Option.some_ne_none _)
      · exact fun hnone => absurd hpre (hnone _ ha.mem)
    · have hnone : ∀ key ∈ ks, ¬ w <+: key := by
        intro key hkey hkeyPre
        obtain ⟨b, hb, rfl⟩ := exists_live hkey
        exact hpre (h.prefix_all (hend b hb hkeyPre) hkeyPre hmem)
      rw [if_neg fun hread => hpre (hiff.mp hread), hempty hnone]
      exact ⟨List.Perm.refl _, fun _ => hnone, fun _ => rfl⟩
  cases hT : (walk nthBit w (bitLen w) rootLink 0 t).tree with
  | nil =>
      have hnone : ∀ key ∈ ks, ¬ w <+: key := by
        intro key hkey hkeyPre
        obtain ⟨b, hb, rfl⟩ := exists_live hkey
        have hmem := hend b hb hkeyPre
        rw [hT] at hmem
        exact absurd hmem List.not_mem_nil
      rw [hempty hnone]
      exact ⟨List.Perm.refl _, fun _ => hnone, fun _ => rfl⟩
  | leaf a => exact hat a _ hT List.mem_cons_self
  | node a c l r =>
      have hok : (walk nthBit w (bitLen w) rootLink 0 t).tree.Ok bitLen nthBit (keyOf ks) _ :=
        h.ok.walk.1
      rw [hT] at hok
      exact hat a _ hT hok.own

/-- **Prefix search in a table of strings.** After strings without the byte 1 have been put into a
new table, a prefix search returns the number of each of them that begins with the string, once. -/
theorem getAll_prefix_search {keys : List (List UInt8)} (hkeys : ∀ key ∈ keys, IsKey 0 key)
    (hfits : Fits (enterAll [] keys)) (hone : ∀ key ∈ keys, (1 : UInt8) ∉ key)
    (hw : (0 : UInt8) ∉ w) (hk : bitLen w + senSymMaxKeyLength < k) :
    ∃ ids s r, (senSymCreate 0).getAll k keys = some (ids, s) ∧
      s.senSymPrefixSearch w k = some r ∧
      (r.getD []).Perm (withPrefix (enterAll [] keys) w) ∧
      (r = none ↔ ∀ key ∈ keys, ¬ w <+: key) := by
  obtain ⟨s, t, hrun, h, hsize⟩ := (holds_create 0).getAll hkeys hfits
    (by omega : senSymMaxKeyLength < k)
  have hmem : ∀ key, key ∈ enterAll [] keys ↔ key ∈ keys := fun key => by
    rw [mem_enterAll]
    exact ⟨fun hor => hor.elim (fun hn => absurd hn List.not_mem_nil) id, .inr⟩
  obtain ⟨r, hsearch, hperm, hnone⟩ := h.prefix_search hsize
    (fun key hkey => hone key ((hmem key).mp hkey)) hw hk
  refine ⟨_, s, r, hrun, hsearch, hperm, hnone.trans ?_⟩
  exact ⟨fun hall key hkey => hall key ((hmem key).mpr hkey),
    fun hall key hkey => hall key ((hmem key).mp hkey)⟩

/-- Two of three strings begin with one byte. -/
theorem getAll_prefix_search_two :
    ∃ ids s r, (senSymCreate 0).getAll 0x20000 [[97, 98, 0], [98, 0], [97, 0]] = some (ids, s) ∧
      s.senSymPrefixSearch [97] 0x20000 = some r ∧ (r.getD []).Perm [1, 3] ∧ r ≠ none := by
  have hkeys : ∀ key ∈ [[97, 98, 0], [98, 0], [97, 0]], IsKey 0 key ∧ (1 : UInt8) ∉ key := by
    intro key hkey
    rcases List.mem_cons.mp hkey with rfl | hkey
    · exact ⟨isKey_string (w := [97, 98]) (by decide) (by decide), by decide⟩
    · rcases List.mem_cons.mp hkey with rfl | hkey
      · exact ⟨isKey_string (w := [98]) (by decide) (by decide), by decide⟩
      · rw [List.mem_singleton.mp hkey]
        exact ⟨isKey_string (w := [97]) (by decide) (by decide), by decide⟩
  obtain ⟨ids, s, r, hrun, hsearch, hperm, hnone⟩ := getAll_prefix_search (w := [97])
    (k := 0x20000) (fun key hkey => (hkeys key hkey).1) ⟨by decide, by decide⟩
    (fun key hkey => (hkeys key hkey).2) (by decide) (by decide)
  have hids : withPrefix (enterAll [] [[97, 98, 0], [98, 0], [97, 0]]) [97] = [1, 3] := by decide
  exact ⟨ids, s, r, hrun, hsearch, hids ▸ hperm,
    fun heq => hnone.mp heq [97, 0] (by decide) (by decide)⟩

end

end Senna.Sym
