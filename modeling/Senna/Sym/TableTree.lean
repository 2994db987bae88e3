/-
# The tree of a symbol table

The nodes of a symbol table hold a PATRICIA tree, whose leaves are the numbers of the keys. The
loop of `_sen_sym_get` goes the way of its key through the tree, and finds the last two nodes on it
and the link where it ends. The key met there tells the first position where the new key differs
from all keys near it, and this is where the new node goes.
-/

import Senna.Sym.TableKeys

namespace Senna.Sym

open Senna.Lib Senna.Lib.BitTree SenSym

/-- The links and the positions in the nodes of a table. -/
def SenSym.links (s : SenSym) : Links := ⟨s.link, fun a => (s.nodes a).check⟩

/-- The link to the root. -/
def rootLink : Nat × Bool := (0, true)

/-- A key differs from another one in its last bit only. -/
def LastDiff (key' key : List UInt8) : Prop :=
  FirstDiff bitLen nthBit (bitLen key - 1) key' key

/-- A table with the keys `ks` and the tree `t`. A number that is no node of it is below a bit that
is the last one of its key. -/
structure Holds (s : SenSym) (ks : List (List UInt8)) (t : BitTree Nat) : Prop
    extends Stored s ks where
  ok : t.Ok bitLen nthBit (keyOf ks) 0
  leaves : ∀ a, a ∈ t.leaves ↔ Live ks a
  inners : ∀ a ∈ t.inners, Live ks a
  distinct : t.inners.Nodup
  rep : s.links.Rep 0 (s.link rootLink) t
  inside : ∀ a, Live ks a → (s.nodes a).check < bitLen (keyOf ks a)
  whole : ∀ a, Live ks a → a ∈ t.inners ∨ ∃ key ∈ ks, LastDiff key (keyOf ks a)

/-- The node whose key is compared where a search has stopped. -/
def met (w : Stop Nat) : Nat :=
  match w.tree with
  | .nil => w.slot.1
  | .leaf a => a
  | .node a _ _ _ => a

/-- The variables `y` of a search that has come from `x` through the tree `t`. -/
structure Came (key : List UInt8) (len n : Nat) (t : BitTree Nat) (x y : GetPos) : Prop where
  slot : y.p0 = (walk nthBit key len x.p0 n t).slot
  last : y.c0 + 1 = (walk nthBit key len x.p0 n t).floor
  prev : (walk nthBit key len x.p0 n t = ⟨x.p0, n, t⟩ ∧ y.p1 = x.p1 ∧ y.c1 = x.c1) ∨
    ∃ a c l r, c < len ∧ (walk nthBit key c x.p0 n t).tree = node a c l r ∧
      walk nthBit key len x.p0 n t = ⟨(a, nthBit key c), c + 1, child l r (nthBit key c)⟩ ∧
      y.p1 = (walk nthBit key c x.p0 n t).slot ∧ y.c1 + 1 = (walk nthBit key c x.p0 n t).floor

/-- The end of a search at the node `a`, whose number is returned if it has the key. -/
def SenSym.endAt (s : SenSym) (key : List UInt8) (len : Nat) (w : Stop Nat) (y : GetPos) :
    GetEnd :=
  (s.patNodeGetKey (s.nodes (met w))).elim .failed fun p =>
    match w.tree with
    | .nil => .stop y p
    | _ =>
        if (s.nodes (met w)).check < len ∧ p.read 0 key.length = key then .found (met w)
        else .stop y p

section

variable {s : SenSym} {ks : List (List UInt8)} {t : BitTree Nat} {key : List UInt8}
  {K : Nat → List UInt8} {len n k c : Nat} {x : GetPos} {p : Nat × Bool}

/-- **The loop of `_sen_sym_get`** goes the way of the key. -/
theorem getLoop_walk (key : List UInt8) (len : Nat) (x : GetPos)
    (hok : t.Ok bitLen nthBit K n) (hrep : s.links.Rep n (s.link x.p0) t)
    (hat : ∀ a ∈ t.inners ++ t.leaves, s.patAt a = some (s.nodes a)) (hc0 : x.c0 + 1 = n)
    (hrn0 : x.rn0 = x.p0.1) (hk : len - n < k) :
    ∃ y, Came key len n t x y ∧
      s.getLoop key len k x = some (s.endAt key len (walk nthBit key len x.p0 n t) y) := by
  induction t generalizing n k x with
  | nil =>
      obtain ⟨k, rfl⟩ := Nat.exists_eq_add_one_of_ne_zero (Nat.ne_zero_of_lt hk)
      refine ⟨x, ⟨rfl, hc0, .inl ⟨rfl, rfl, rfl⟩⟩, ?_⟩
      have hnil : s.link x.p0 = 0 := hrep
      rw [getLoop]
      rw [if_pos hnil, walk_nil, endAt, met, hrn0]
  | leaf a =>
      obtain ⟨k, rfl⟩ := Nat.exists_eq_add_one_of_ne_zero (Nat.ne_zero_of_lt hk)
      obtain ⟨hlink, hpos, hcheck⟩ := hrep
      have hcheck : (s.nodes a).check < n := hcheck
      have hlink : s.link x.p0 = a := hlink
      refine ⟨{ x with rn0 := a }, ⟨rfl, hc0, .inl ⟨rfl, rfl, rfl⟩⟩, ?_⟩
      rw [getLoop]
      rw [hlink, if_neg hpos, hat a (List.mem_append_right _ List.mem_cons_self)]
      dsimp only
      rw [if_neg (by omega), walk_leaf, endAt, met]
  | node a d l r ihl ihr =>
      obtain ⟨k, rfl⟩ := Nat.exists_eq_add_one_of_ne_zero (Nat.ne_zero_of_lt hk)
      have hlink : s.link x.p0 = a := hrep.1
      have hcheck : (s.nodes a).check = d := hrep.2.2.1
      have hn : n ≤ d := hrep.2.2.2.1
      rw [getLoop]
      rw [hlink, if_neg hrep.2.1, hat a List.mem_cons_self]
      dsimp only
      rw [hcheck]
      by_cases hd : d < len
      · have hokC := hok.child (nthBit key d)
        have hchild := hrep.child (nthBit key d)
        have hatC : ∀ b ∈ (child l r (nthBit key d)).inners ++
            (child l r (nthBit key d)).leaves, s.patAt b = some (s.nodes b) :=
          fun b hb => hat b (mem_child hb a d)
        have hstep : ∃ y, Came key len (d + 1) (child l r (nthBit key d))
              ⟨d, x.c0, (a, nthBit key d), x.p0, a⟩ y ∧
            s.getLoop key len k ⟨d, x.c0, (a, nthBit key d), x.p0, a⟩ =
              some (s.endAt key len (walk nthBit key len (a, nthBit key d) (d + 1)
                (child l r (nthBit key d))) y) := by
          cases hbit : nthBit key d <;> rw [hbit] at hokC hchild hatC
          · exact ihl _ hokC hchild hatC rfl rfl (by omega)
          · exact ihr _ hokC hchild hatC rfl rfl (by omega)
        obtain ⟨y, hcame, hrun⟩ := hstep
        rw [if_pos ⟨by omega, hd⟩, hrun, walk_node x.p0 n l r hd]
        refine ⟨y, ?_, rfl⟩
        constructor
        · rw [walk_node x.p0 n l r hd]
          exact hcame.slot
        · rw [walk_node x.p0 n l r hd]
          exact hcame.last
        · refine .inr ?_
          have hprev := hcame.prev
          dsimp only at hprev
          rcases hprev with ⟨hend, hp1, hc1⟩ | ⟨a', d', l', r', hd', htree, hend, hp1, hc1⟩
          · refine ⟨a, d, l, r, hd, ?_⟩
            rw [walk_node x.p0 n l r hd, walk_stop x.p0 n l r (lt_irrefl d)]
            exact ⟨rfl, hend, hp1, by rw [hc1]; exact hc0⟩
          · have hokD : (walk nthBit key d' (a, nthBit key d) (d + 1)
                (child l r (nthBit key d))).tree.Ok bitLen nthBit K _ ∧ d + 1 ≤ _ ∧ _ := hokC.walk
            rw [htree] at hokD
            have hbelow : d < d' := lt_of_lt_of_le (Nat.lt_of_succ_le hokD.2.1) hokD.1.1
            refine ⟨a', d', l', r', hd', ?_⟩
            rw [walk_node x.p0 n l r hd, walk_node x.p0 n l r hbelow]
            exact ⟨htree, hend, hp1, hc1⟩
      · rw [if_neg (fun h => hd h.2), walk_stop x.p0 n l r hd]
        refine ⟨{ x with rn0 := a }, ⟨?_, ?_, .inl ⟨walk_stop x.p0 n l r hd, rfl, rfl⟩⟩, ?_⟩
        · rw [walk_stop x.p0 n l r hd]
        · rw [walk_stop x.p0 n l r hd]
          exact hc0
        · rw [endAt, met, hcheck]

/-- The loop from the root on goes the way of the key up to the position `c`, if a node is there. -/
theorem moveLoop_walk {a d : Nat} {l r : BitTree Nat} (hrep : s.links.Rep n (s.link p) t)
    (hat : ∀ a ∈ t.inners ++ t.leaves, s.patAt a = some (s.nodes a))
    (htree : (walk nthBit key (c + 1) p n t).tree = node a d l r) (hk : c + 1 - n < k) :
    s.moveLoop key c k p = some (some (walk nthBit key (c + 1) p n t).slot) := by
  induction t generalizing n k p with
  | nil => cases htree
  | leaf b => cases htree
  | node b e l' r' ihl ihr =>
      obtain ⟨k, rfl⟩ := Nat.exists_eq_add_one_of_ne_zero (Nat.ne_zero_of_lt hk)
      have hlink : s.link p = b := hrep.1
      have hcheck : (s.nodes b).check = e := hrep.2.2.1
      have hn : n ≤ e := hrep.2.2.2.1
      rw [moveLoop]
      rw [hlink, if_neg hrep.2.1, hat b List.mem_cons_self]
      dsimp only
      rw [hcheck]
      by_cases he : e < c + 1
      · have hchild := hrep.child (nthBit key e)
        have hatC : ∀ x ∈ (child l' r' (nthBit key e)).inners ++
            (child l' r' (nthBit key e)).leaves, s.patAt x = some (s.nodes x) :=
          fun x hx => hat x (mem_child hx b e)
        rw [walk_node p n l' r' he] at htree
        rw [if_neg (by omega), walk_node p n l' r' he]
        cases hbit : nthBit key e <;> rw [hbit] at hchild hatC htree
        · exact ihl hchild hatC htree (by omega)
        · exact ihr hchild hatC htree (by omega)
      · rw [if_pos (by omega), walk_stop p n l' r' he]

end

/-- Where the key `key` goes in a tree: in front of a tree whose keys first differ from it at `c`,
or to an empty side of the last bit. -/
inductive Placed (K : Nat → List UInt8) (t : BitTree Nat) (key : List UInt8) (c : Nat)
    (q : Nat × Bool) : Prop
  | join (hslot : q = (walk nthBit key c rootLink 0 t).slot)
      (hfits : t.Fits bitLen nthBit K key c)
      (hok : (walk nthBit key c rootLink 0 t).tree.Ok bitLen nthBit K (c + 1))
      (hdiff : ∀ x ∈ (walk nthBit key c rootLink 0 t).tree.leaves,
        FirstDiff bitLen nthBit c (K x) key)
  | stub (hslot : q = (walk nthBit key (c + 1) rootLink 0 t).slot)
      (hfits : t.Fits bitLen nthBit K key (c + 1))
      (hfloor : (walk nthBit key (c + 1) rootLink 0 t).floor = c + 1)
      (hnil : (walk nthBit key (c + 1) rootLink 0 t).tree = nil)
      (hlast : ∃ b ∈ t.leaves, LastDiff (K b) key)

section

variable {s : SenSym} {t l r : BitTree Nat} {key : List UInt8} {K : Nat → List UInt8}
  {m k a b c d : Nat} {x y : GetPos}

/-- A key goes where it first differs from one that a search for it meets. -/
theorem Placed.target (hok : t.Ok bitLen nthBit K 0)
    (hb : b ∈ (walk nthBit key m rootLink 0 t).tree.leaves)
    (hdiff : FirstDiff bitLen nthBit c (K b) key) (hc : c < m) :
    Placed K t key c (walk nthBit key c rootLink 0 t).slot := by
  obtain ⟨hbelow, hall⟩ := hok.target hb hdiff hc
  refine .join rfl ?_ hbelow hall
  exact hok.fits (hok.walk.2.2 b hb) (hdiff.agree.mono (Nat.sub_le c 1)) hdiff.right.le

/-- **The place in front of the last nodes** of the way, where the keys have parted before. -/
theorem getPlace_before (hok : t.Ok bitLen nthBit K 0)
    (hrep : s.links.Rep 0 (s.link rootLink) t)
    (hat : ∀ a ∈ t.inners ++ t.leaves, s.patAt a = some (s.nodes a))
    (htree : (walk nthBit key d rootLink 0 t).tree = node a d l r) (hc0 : y.c0 = d)
    (hp1 : y.p1 = (walk nthBit key d rootLink 0 t).slot)
    (hc1 : y.c1 + 1 = (walk nthBit key d rootLink 0 t).floor)
    (hb : b ∈ (node a d l r).leaves) (hdiff : FirstDiff bitLen nthBit c (K b) key) (hc : c < d)
    (hd : d < bitLen key) (hk : bitLen key < k) :
    ∃ q, s.getPlace key (bitLen key) k y c = some (some (c, q)) ∧ Placed K t key c q := by
  rw [← htree] at hb
  refine ⟨_, ?_, Placed.target hok hb hdiff hc⟩
  unfold getPlace
  rw [if_neg (by omega), if_pos (by omega)]
  by_cases hlast : (c : Int) > y.c1
  · rw [if_pos hlast, hp1, walk_of_floor hc.le (by omega) hok]
  · rw [if_neg hlast]
    obtain ⟨hbelow, -⟩ := hok.target hb hdiff hc
    have hon : walk nthBit key d (walk nthBit key c rootLink 0 t).slot
        (walk nthBit key c rootLink 0 t).floor (walk nthBit key c rootLink 0 t).tree =
          walk nthBit key d rootLink 0 t := walk_walk hc.le
    have hnext : walk nthBit key (c + 1) (walk nthBit key c rootLink 0 t).slot
        (walk nthBit key c rootLink 0 t).floor (walk nthBit key c rootLink 0 t).tree =
          walk nthBit key (c + 1) rootLink 0 t := walk_walk (Nat.le_succ c)
    -- a node is there, as the way goes on
    cases hT : (walk nthBit key c rootLink 0 t).tree with
    | nil =>
        rw [hT, walk_nil] at hon
        rw [← hon] at htree
        cases htree
    | leaf a' =>
        rw [hT, walk_leaf] at hon
        rw [← hon] at htree
        cases htree
    | node a' d' l' r' =>
        rw [hT] at hbelow
        rw [hT, walk_stop _ _ l' r' (not_lt.mpr hbelow.1)] at hnext
        have hmove : s.moveLoop key c k rootLink =
            some (some (walk nthBit key (c + 1) rootLink 0 t).slot) :=
          moveLoop_walk hrep hat (by rw [← hnext]) (by omega)
        change Option.map _ (s.moveLoop key c k rootLink) = _
        rw [hmove, ← hnext]
        rfl

theorem mem_met {w : Stop Nat} {n : Nat} (hok : w.tree.Ok bitLen nthBit K n)
    (hnil : w.tree ≠ nil) : met w ∈ w.tree.leaves := by
  unfold met
  cases hT : w.tree with
  | nil => exact absurd hT hnil
  | leaf a => exact List.mem_cons_self
  | node a c l r =>
      rw [hT] at hok
      exact hok.own

/-- **The place of a new node**, given the first position where its key differs from the one that
the search has met. -/
theorem getPlace_spec (hok : t.Ok bitLen nthBit K 0)
    (hrep : s.links.Rep 0 (s.link rootLink) t)
    (hat : ∀ a ∈ t.inners ++ t.leaves, s.patAt a = some (s.nodes a)) (ht : t ≠ nil)
    (hx : x.p0 = rootLink) (hcame : Came key (bitLen key) 0 t x y)
    (hdiff : FirstDiff bitLen nthBit c
      (K (met (walk nthBit key (bitLen key) rootLink 0 t))) key) (hk : bitLen key < k) :
    ∃ m q, s.getPlace key (bitLen key) k y c = some (some (m, q)) ∧ m < bitLen key ∧
      Placed K t key m q := by
  obtain ⟨hslot, hlast, hprev⟩ := hcame
  rw [hx] at hslot hlast hprev
  have hlink : s.links.Rep _ (s.link y.p0) _ := hslot ▸ hrep.walk
  have hokW : (walk nthBit key (bitLen key) rootLink 0 t).tree.Ok bitLen nthBit K _ := hok.walk.1
  by_cases hnil : (walk nthBit key (bitLen key) rootLink 0 t).tree = nil
  · rcases hprev with ⟨hend, -, -⟩ | ⟨a, d, l, r, hd, htree, hend, hp1, hc1⟩
    · rw [hend] at hnil
      exact absurd hnil ht
    · -- the key of the node above is on its other side
      have hmet : met (walk nthBit key (bitLen key) rootLink 0 t) = a := by
        rw [hend] at hnil ⊢
        rw [met, show child l r (nthBit key d) = nil from hnil]
      rw [hmet] at hdiff
      have hokD : (walk nthBit key d rootLink 0 t).tree.Ok bitLen nthBit K _ ∧ _ ∧
          ∀ b ∈ (walk nthBit key d rootLink 0 t).tree.leaves, b ∈ t.leaves := hok.walk
      rw [htree] at hokD
      have hother : nthBit (K a) d ≠ nthBit key d := by
        obtain ⟨b, hside, hmem⟩ := hokD.1.side hokD.1.own
        rintro heq
        rw [← hside.side, heq] at hmem
        rw [hend] at hnil
        rw [show child l r (nthBit key d) = nil from hnil] at hmem
        exact absurd hmem List.not_mem_nil
      have hle : c ≤ d := not_lt.mp fun hlt => hother (hdiff.agree d hlt)
      rw [hend] at hlast
      dsimp only at hlast
      rcases Nat.lt_or_eq_of_le hle with hlt | rfl
      · obtain ⟨q, hrun, hplaced⟩ := getPlace_before hok hrep hat htree (by omega) hp1 hc1
          hokD.1.own hdiff hlt hd hk
        exact ⟨c, q, hrun, hdiff.right, hplaced⟩
      · have hzero : s.link y.p0 = 0 := by
          rw [hend, show child l r (nthBit key c) = nil from by rw [hend] at hnil; exact hnil]
            at hlink
          exact hlink
        have hsame : walk nthBit key (c + 1) rootLink 0 t =
            walk nthBit key (bitLen key) rootLink 0 t :=
          walk_of_floor hd (by rw [hend]) hok
        have hfits : t.Fits bitLen nthBit K key (c + 1) :=
          hok.fits (hokD.2.2 a hokD.1.own) hdiff.agree hd
        unfold getPlace
        rw [if_pos ⟨by omega, hzero⟩]
        by_cases hbit : c < bitLen key - 1
        · refine ⟨c + 1, _, by rw [if_pos hbit], by omega, .join ?_ hfits ?_ ?_⟩
          · rw [hslot, hsame]
          · rw [hsame, hnil]
            trivial
          · rw [hsame, hnil]
            exact fun b hb => absurd hb List.not_mem_nil
        · refine ⟨c, _, by rw [if_neg hbit], hd, .stub ?_ hfits ?_ ?_ ?_⟩
          · rw [hslot, hsame]
          · rw [hsame, hend]
          · rw [hsame, hnil]
          · refine ⟨a, hokD.2.2 a hokD.1.own, ?_⟩
            rwa [LastDiff, show bitLen key - 1 = c by omega]
  · have hmem := mem_met hokW hnil
    have hafter : (walk nthBit key (bitLen key) rootLink 0 t).floor ≤ c →
        ¬ (c : Int) = y.c0 → ∃ m q, s.getPlace key (bitLen key) k y c = some (some (m, q)) ∧
          m < bitLen key ∧ Placed K t key m q := by
      intro hfloor hne
      refine ⟨c, y.p0, ?_, hdiff.right, ?_⟩
      · unfold getPlace
        rw [if_neg (fun h => hne h.1), if_neg (by omega)]
      · rw [hslot, ← walk_of_floor hdiff.right.le hfloor hok]
        exact .target hok hmem hdiff hdiff.right
    rcases hprev with ⟨hend, -, -⟩ | ⟨a, d, l, r, hd, htree, hend, hp1, hc1⟩
    · rw [hend] at hlast hafter
      dsimp only at hlast hafter
      exact hafter (Nat.zero_le c) (by omega)
    · have hokD : (walk nthBit key d rootLink 0 t).tree.Ok bitLen nthBit K _ := hok.walk.1
      rw [htree] at hokD
      rw [hend] at hlast hafter
      dsimp only at hlast hafter
      have hbelow : met (walk nthBit key (bitLen key) rootLink 0 t) ∈
          (child l r (nthBit key d)).leaves := by
        rw [hend] at hmem ⊢
        exact hmem
      have hne : c ≠ d := by
        rintro rfl
        exact hdiff.differ (hokD.side_child hbelow).side
      rcases Nat.lt_or_gt_of_ne hne with hlt | hgt
      · obtain ⟨q, hrun, hplaced⟩ := getPlace_before hok hrep hat htree (by omega) hp1 hc1
          (leaves_child hbelow a d) hdiff hlt hd hk
        exact ⟨c, q, hrun, hdiff.right, hplaced⟩
      · exact hafter hgt (by omega)

end

end Senna.Sym
