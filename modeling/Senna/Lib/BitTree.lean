/-
# Trees that branch on bits

A PATRICIA tree holds keys as its leaves. Each of its inner nodes tells by which bit the keys below
it are parted, and the positions of these bits grow on the way down, while the bits that the way
skips are the same in all keys below. So a search looks at one bit in each node and compares one
key in the end.

Nodes and leaves share their numbers: the leaf of a number is a link up to the node of that number,
or to a node that stands nowhere in the tree. In a memory a link leads down where the position
grows.
-/

import Mathlib.Tactic

namespace Senna.Lib

universe u v

/-- A tree whose nodes have a number and the position of a bit. -/
inductive BitTree (ι : Type u)
  | nil
  | leaf (a : ι)
  | node (a : ι) (check : Nat) (l r : BitTree ι)

namespace BitTree

variable {ι : Type u} {κ : Type v}

/-- The keys of a tree, from the left to the right. -/
def leaves : BitTree ι → List ι
  | nil => []
  | leaf a => [a]
  | node _ _ l r => leaves l ++ leaves r

/-- The nodes, each in front of those below it. -/
def inners : BitTree ι → List ι
  | nil => []
  | leaf _ => []
  | node a _ l r => a :: (inners l ++ inners r)

/-- The side of a node. -/
def child (l r : BitTree ι) (right : Bool) : BitTree ι := if right then r else l

theorem leaves_child {l r : BitTree ι} {b : Bool} {x : ι} (hx : x ∈ (child l r b).leaves) (a : ι)
    (c : Nat) : x ∈ (node a c l r).leaves := by
  cases b
  · exact List.mem_append_left _ hx
  · exact List.mem_append_right _ hx

theorem inners_child {l r : BitTree ι} {b : Bool} {x : ι} (hx : x ∈ (child l r b).inners) (a : ι)
    (c : Nat) : x ∈ (node a c l r).inners := by
  cases b
  · exact List.mem_cons_of_mem _ (List.mem_append_left _ hx)
  · exact List.mem_cons_of_mem _ (List.mem_append_right _ hx)

theorem mem_child {l r : BitTree ι} {b : Bool} {x : ι}
    (hx : x ∈ (child l r b).inners ++ (child l r b).leaves) (a : ι) (c : Nat) :
    x ∈ (node a c l r).inners ++ (node a c l r).leaves := by
  rcases List.mem_append.mp hx with hx | hx
  · exact List.mem_append_left _ (inners_child hx a c)
  · exact List.mem_append_right _ (leaves_child hx a c)

/-- The nodes of one side are not those of the other one, and not the node above. -/
theorem inners_apart {l r : BitTree ι} {a : ι} {c : Nat} (h : (node a c l r).inners.Nodup)
    {b : Bool} {x : ι} (hx : x ∈ (child l r b).inners) :
    x ∉ (child l r (!b)).inners ∧ x ≠ a := by
  obtain ⟨hnot, hnodup⟩ := List.nodup_cons.mp h
  obtain ⟨-, -, hdisjoint⟩ := List.nodup_append.mp hnodup
  cases b
  · exact ⟨fun hr => hdisjoint x hx x hr rfl, fun heq => hnot (heq ▸ List.mem_append_left _ hx)⟩
  · exact ⟨fun hl => hdisjoint x hl x hx rfl, fun heq => hnot (heq ▸ List.mem_append_right _ hx)⟩

theorem nodup_child {l r : BitTree ι} {a : ι} {c : Nat} (h : (node a c l r).inners.Nodup)
    (b : Bool) : (child l r b).inners.Nodup := by
  obtain ⟨hl, hr, -⟩ := List.nodup_append.mp (List.nodup_cons.mp h).2
  cases b
  · exact hl
  · exact hr

section

variable (len : κ → Nat) (bit : κ → Nat → Bool)

/-- The first `n` bits of two keys are the same. -/
def Agree (n : Nat) (x y : κ) : Prop := ∀ i < n, bit x i = bit y i

/-- `c` is the first position where two keys differ. -/
structure FirstDiff (c : Nat) (x y : κ) : Prop where
  agree : Agree bit c x y
  differ : bit x c ≠ bit y c
  left : c < len x
  right : c < len y

variable (key : ι → κ)

/-- The key `x` below the node `a` is on the side `b` of the position `c`. -/
structure Side (a : ι) (c : Nat) (b : Bool) (x : ι) : Prop where
  long : c < len (key x)
  agree : Agree bit c (key x) (key a)
  side : bit (key x) c = b

/-- Positions grow from `n` on, each node parts the keys below it, and its own is one of them. -/
def Ok : Nat → BitTree ι → Prop
  | _, nil => True
  | _, leaf _ => True
  | n, node a c l r => n ≤ c ∧ a ∈ l.leaves ++ r.leaves ∧
      (∀ x ∈ l.leaves, Side len bit key a c false x) ∧
      (∀ x ∈ r.leaves, Side len bit key a c true x) ∧ Ok (c + 1) l ∧ Ok (c + 1) r

end

/-- Where a search has stopped: at which side of which node, with which position allowed next, and
in front of which tree. -/
structure Stop (ι : Type u) where
  slot : ι × Bool
  floor : Nat
  tree : BitTree ι

/-- The way of the key `k` through the positions below `m`. -/
def walk (bit : κ → Nat → Bool) (k : κ) (m : Nat) : ι × Bool → Nat → BitTree ι → Stop ι
  | p, n, node a c l r =>
      if c < m then
        if bit k c then walk bit k m (a, true) (c + 1) r else walk bit k m (a, false) (c + 1) l
      else ⟨p, n, node a c l r⟩
  | p, n, t => ⟨p, n, t⟩

/-- The tree with `s` at the end of the way. -/
def graft (bit : κ → Nat → Bool) (k : κ) (m : Nat) (s : BitTree ι) : BitTree ι → BitTree ι
  | node a c l r =>
      if c < m then
        if bit k c then node a c l (graft bit k m s r) else node a c (graft bit k m s l) r
      else s
  | _ => s

/-- A new node for the key `k`, with `t` on the other side. -/
def join (bit : κ → Nat → Bool) (k : κ) (a : ι) (c : Nat) (t : BitTree ι) : BitTree ι :=
  if bit k c then node a c t (leaf a) else node a c (leaf a) t

section

variable {len : κ → Nat} {bit : κ → Nat → Bool} {key : ι → κ} {k : κ} {m m' n c : Nat} {a x : ι}
  {p : ι × Bool} {s t l r : BitTree ι}

theorem Agree.symm {x y : κ} (h : Agree bit n x y) : Agree bit n y x := fun i hi => (h i hi).symm

theorem Agree.trans {x y z : κ} (hxy : Agree bit n x y) (hyz : Agree bit n y z) : Agree bit n x z :=
  fun i hi => (hxy i hi).trans (hyz i hi)

theorem Agree.mono {x y : κ} (h : Agree bit n x y) (hm : m ≤ n) : Agree bit m x y :=
  fun i hi => h i (lt_of_lt_of_le hi hm)

theorem walk_nil (bit : κ → Nat → Bool) (k : κ) (m : Nat) (p : ι × Bool) (n : Nat) :
    walk bit k m p n nil = ⟨p, n, nil⟩ := rfl

theorem walk_leaf (bit : κ → Nat → Bool) (k : κ) (m : Nat) (p : ι × Bool) (n : Nat) (a : ι) :
    walk bit k m p n (leaf a) = ⟨p, n, leaf a⟩ := rfl

theorem walk_node (p : ι × Bool) (n : Nat) (l r : BitTree ι) (hc : c < m) :
    walk bit k m p n (node a c l r) = walk bit k m (a, bit k c) (c + 1) (child l r (bit k c)) := by
  rw [walk, if_pos hc, child]
  split_ifs with hbit <;> simp only [hbit]

theorem walk_stop (p : ι × Bool) (n : Nat) (l r : BitTree ι) (hc : ¬ c < m) :
    walk bit k m p n (node a c l r) = ⟨p, n, node a c l r⟩ := by
  rw [walk, if_neg hc]

/-- Only the keys of its leaves matter to a tree. -/
theorem Ok.congr {key' : ι → κ} (h : t.Ok len bit key n) (hkey : ∀ x ∈ t.leaves, key' x = key x) :
    t.Ok len bit key' n := by
  induction t generalizing n with
  | node a c l r ihl ihr =>
      obtain ⟨hn, hown, hl, hr, hokl, hokr⟩ := h
      have hside : ∀ {x b}, x ∈ l.leaves ++ r.leaves → Side len bit key a c b x →
          Side len bit key' a c b x := by
        intro x b hx hside
        have hxkey := hkey x hx
        have hakey := hkey a hown
        exact ⟨hxkey ▸ hside.long, hakey ▸ hxkey ▸ hside.agree, hxkey ▸ hside.side⟩
      refine ⟨hn, hown, fun x hx => hside (List.mem_append_left _ hx) (hl x hx),
        fun x hx => hside (List.mem_append_right _ hx) (hr x hx), ?_, ?_⟩
      · exact ihl hokl fun x hx => hkey x (List.mem_append_left _ hx)
      · exact ihr hokr fun x hx => hkey x (List.mem_append_right _ hx)
  | _ => trivial

theorem Ok.child (h : (node a c l r).Ok len bit key n) (b : Bool) :
    (child l r b).Ok len bit key (c + 1) := by
  cases b
  · exact h.2.2.2.2.1
  · exact h.2.2.2.2.2

theorem Ok.side_child {b : Bool} (h : (node a c l r).Ok len bit key n)
    (hx : x ∈ (BitTree.child l r b).leaves) : Side len bit key a c b x := by
  cases b
  · exact h.2.2.1 x hx
  · exact h.2.2.2.1 x hx

/-- All keys below a node. -/
theorem Ok.side (h : (node a c l r).Ok len bit key n) (hx : x ∈ (node a c l r).leaves) :
    ∃ b, Side len bit key a c b x ∧ x ∈ (BitTree.child l r b).leaves := by
  rcases List.mem_append.mp hx with hl | hr
  · exact ⟨false, h.2.2.1 x hl, hl⟩
  · exact ⟨true, h.2.2.2.1 x hr, hr⟩

theorem Ok.own (h : (node a c l r).Ok len bit key n) : a ∈ (node a c l r).leaves := h.2.1

/-- The number of a node is one of the keys. -/
theorem Ok.mem_leaves (h : t.Ok len bit key n) (hx : x ∈ t.inners) : x ∈ t.leaves := by
  induction t generalizing n with
  | node a c l r ihl ihr =>
      rcases List.mem_cons.mp hx with rfl | hx
      · exact h.own
      · rcases List.mem_append.mp hx with hx | hx
        · exact List.mem_append_left _ (ihl h.2.2.2.2.1 hx)
        · exact List.mem_append_right _ (ihr h.2.2.2.2.2 hx)
  | _ => exact absurd hx List.not_mem_nil

/-- A key stands in one place. -/
theorem Ok.nodup_leaves (h : t.Ok len bit key n) : t.leaves.Nodup := by
  induction t generalizing n with
  | nil => exact List.nodup_nil
  | leaf a => exact List.nodup_singleton a
  | node a c l r ihl ihr =>
      refine List.nodup_append.mpr ⟨ihl h.2.2.2.2.1, ihr h.2.2.2.2.2, ?_⟩
      rintro x hxl _ hxr rfl
      exact Bool.false_ne_true ((h.2.2.1 x hxl).side.symm.trans (h.2.2.2.1 x hxr).side)

/-- The tree where a search stops is one, and its keys are some of those in front. -/
theorem Ok.walk (h : t.Ok len bit key n) :
    (walk bit k m p n t).tree.Ok len bit key (walk bit k m p n t).floor ∧
      n ≤ (walk bit k m p n t).floor ∧ ∀ x ∈ (walk bit k m p n t).tree.leaves, x ∈ t.leaves := by
  induction t generalizing p n with
  | node a c l r ihl ihr =>
      by_cases hc : c < m
      · rw [walk_node p n l r hc]
        have hchild := h.child (bit k c)
        cases hbit : bit k c <;> rw [hbit] at hchild <;> simp only [BitTree.child] at hchild ⊢
        · obtain ⟨hok, hle, hsub⟩ := ihl (p := (a, false)) hchild
          exact ⟨hok, le_trans (le_trans h.1 (Nat.le_succ c)) hle,
            fun x hx => List.mem_append_left _ (hsub x hx)⟩
        · obtain ⟨hok, hle, hsub⟩ := ihr (p := (a, true)) hchild
          exact ⟨hok, le_trans (le_trans h.1 (Nat.le_succ c)) hle,
            fun x hx => List.mem_append_right _ (hsub x hx)⟩
      · rw [walk_stop p n l r hc]
        exact ⟨h, le_rfl, fun x hx => hx⟩
  | _ => exact ⟨h, le_rfl, fun x hx => hx⟩

/-- What stops a search is no node with a position below `m`. -/
theorem le_of_walk (h : (walk bit k m p n t).tree = node a c l r) : m ≤ c := by
  induction t generalizing p n with
  | node b d l' r' ihl ihr =>
      by_cases hd : d < m
      · rw [walk_node p n l' r' hd] at h
        cases hbit : bit k d <;> rw [hbit] at h
        · exact ihl h
        · exact ihr h
      · rw [walk_stop p n l' r' hd] at h
        cases h
        exact not_lt.mp hd
  | _ => cases h

/-- A key that agrees with `k` is where the search for `k` goes. -/
theorem mem_walk (h : t.Ok len bit key n) (hx : x ∈ t.leaves) (hagree : Agree bit m (key x) k) :
    x ∈ (walk bit k m p n t).tree.leaves := by
  induction t generalizing p n with
  | node a c l r ihl ihr =>
      by_cases hc : c < m
      · obtain ⟨b, hside, hmem⟩ := h.side hx
        have hchild := h.child b
        obtain rfl : bit k c = b := (hagree c hc).symm.trans hside.side
        rw [walk_node p n l r hc]
        cases hbit : bit k c <;> rw [hbit] at hmem hchild
        · exact ihl hchild hmem
        · exact ihr hchild hmem
      · rw [walk_stop p n l r hc]
        exact hx
  | _ => exact hx

/-- With less far to go, a search that has skipped all between stops at the same place. -/
theorem walk_of_floor (hle : m' ≤ m) (hfloor : (walk bit k m p n t).floor ≤ m')
    (h : t.Ok len bit key n) : walk bit k m' p n t = walk bit k m p n t := by
  induction t generalizing p n with
  | node a c l r ihl ihr =>
      by_cases hc : c < m
      · rw [walk_node p n l r hc] at hfloor ⊢
        have hchild := h.child (bit k c)
        have hlow : c + 1 ≤ (walk bit k m (a, bit k c) (c + 1) (child l r (bit k c))).floor :=
          hchild.walk.2.1
        rw [walk_node p n l r (by omega : c < m')]
        cases hbit : bit k c <;> rw [hbit] at hfloor hchild
        · exact ihl hfloor hchild
        · exact ihr hfloor hchild
      · rw [walk_stop p n l r hc, walk_stop p n l r (by omega)]
  | _ => rfl

/-- A search goes on from where one for less far has stopped. -/
theorem walk_walk (hle : m' ≤ m) :
    walk bit k m (walk bit k m' p n t).slot (walk bit k m' p n t).floor
      (walk bit k m' p n t).tree = walk bit k m p n t := by
  induction t generalizing p n with
  | node a c l r ihl ihr =>
      by_cases hc : c < m'
      · rw [walk_node p n l r hc, walk_node p n l r (by omega : c < m)]
        cases bit k c
        · exact ihl
        · exact ihr
      · rw [walk_stop p n l r hc]
  | _ => rfl

theorem floor_le (hn : n ≤ m) : (walk bit k m p n t).floor ≤ m := by
  induction t generalizing p n with
  | node a c l r ihl ihr =>
      by_cases hc : c < m
      · rw [walk_node p n l r hc]
        cases bit k c
        · exact ihl hc
        · exact ihr hc
      · rw [walk_stop p n l r hc]
        exact hn
  | _ => exact hn

/-- The nodes on the way of `k` have skipped bits of `k`. -/
def Fits (len : κ → Nat) (bit : κ → Nat → Bool) (key : ι → κ) (k : κ) (m : Nat) : BitTree ι → Prop
  | node a c l r => c < m →
      Agree bit c k (key a) ∧ c < len k ∧
        if bit k c then Fits len bit key k m r else Fits len bit key k m l
  | _ => True

/-- What one key skips, another one that agrees with it does. -/
theorem Ok.fits (h : t.Ok len bit key n) (hx : x ∈ t.leaves)
    (hagree : Agree bit (m - 1) (key x) k) (hm : m ≤ len k) : t.Fits len bit key k m := by
  induction t generalizing n with
  | node a c l r ihl ihr =>
      intro hc
      obtain ⟨b, hside, hmem⟩ := h.side hx
      refine ⟨(hagree.mono (by omega)).symm.trans hside.agree, by omega, ?_⟩
      have hchild := h.child b
      by_cases hlast : c + 1 < m
      · obtain rfl : bit k c = b := (hagree c (by omega)).symm.trans hside.side
        cases hbit : bit k c <;> rw [hbit] at hmem hchild
        · rw [if_neg Bool.false_ne_true]
          exact ihl hchild hmem
        · rw [if_pos rfl]
          exact ihr hchild hmem
      · -- behind the last position nothing is on the way
        have hend : ∀ t : BitTree ι, t.Ok len bit key (c + 1) → t.Fits len bit key k m := by
          intro t ht
          cases t with
          | node a' c' l' r' => exact fun hc' => absurd hc' (by have := ht.1; omega)
          | _ => trivial
        split_ifs
        · exact hend r (h.child true)
        · exact hend l (h.child false)
  | _ => trivial

theorem graft_node (s l r : BitTree ι) (a : ι) (hc : c < m) :
    graft bit k m s (node a c l r) = if bit k c then node a c l (graft bit k m s r)
      else node a c (graft bit k m s l) r := by
  rw [graft, if_pos hc]

theorem graft_stop (s l r : BitTree ι) (a : ι) (hc : ¬ c < m) :
    graft bit k m s (node a c l r) = s := by
  rw [graft, if_neg hc]

/-- The keys after a graft that keeps those in its place. -/
theorem mem_leaves_graft (hs : ∀ x ∈ (walk bit k m p n t).tree.leaves, x ∈ s.leaves) :
    x ∈ (graft bit k m s t).leaves ↔ x ∈ t.leaves ∨ x ∈ s.leaves := by
  induction t generalizing p n with
  | node a c l r ihl ihr =>
      by_cases hc : c < m
      · rw [walk_node p n l r hc] at hs
        rw [graft_node s l r a hc]
        cases hbit : bit k c <;> rw [hbit] at hs
        · rw [if_neg Bool.false_ne_true, leaves, leaves, List.mem_append, List.mem_append, ihl hs]
          exact or_right_comm
        · rw [if_pos rfl, leaves, leaves, List.mem_append, List.mem_append, ihr hs, or_assoc]
      · rw [walk_stop p n l r hc] at hs
        rw [graft_stop s l r a hc]
        exact ⟨.inr, fun h => h.elim (hs x) id⟩
  | _ => exact ⟨.inr, fun h => h.elim (hs x) id⟩

/-- The nodes after a graft. -/
theorem inners_graft (bit : κ → Nat → Bool) (k : κ) (m : Nat) (p : ι × Bool) (n : Nat)
    (s t : BitTree ι) :
    ∃ pre post, t.inners = pre ++ (walk bit k m p n t).tree.inners ++ post ∧
      (graft bit k m s t).inners = pre ++ s.inners ++ post := by
  induction t generalizing p n with
  | node a c l r ihl ihr =>
      by_cases hc : c < m
      · rw [walk_node p n l r hc, graft_node s l r a hc]
        cases hbit : bit k c
        · obtain ⟨pre, post, hold, hnew⟩ := ihl (a, false) (c + 1)
          refine ⟨a :: pre, post ++ r.inners, ?_, ?_⟩
          · rw [inners, hold, child, if_neg Bool.false_ne_true]
            simp only [List.cons_append, List.append_assoc]
          · rw [if_neg Bool.false_ne_true, inners, hnew]
            simp only [List.cons_append, List.append_assoc]
        · obtain ⟨pre, post, hold, hnew⟩ := ihr (a, true) (c + 1)
          refine ⟨a :: (l.inners ++ pre), post, ?_, ?_⟩
          · rw [inners, hold, child, if_pos rfl]
            simp only [List.cons_append, List.append_assoc]
          · rw [if_pos rfl, inners, hnew]
            simp only [List.cons_append, List.append_assoc]
      · rw [walk_stop p n l r hc, graft_stop s l r a hc]
        exact ⟨[], [], by simp, by simp⟩
  | _ => exact ⟨[], [], by simp [walk], by simp [graft]⟩

/-- **A graft keeps the tree one**, if it adds no key but `k`. -/
theorem Ok.graft (h : t.Ok len bit key n) (hfits : t.Fits len bit key k m)
    (hs : s.Ok len bit key (BitTree.walk bit k m p n t).floor)
    (hkeep : ∀ x ∈ (BitTree.walk bit k m p n t).tree.leaves, x ∈ s.leaves)
    (hnew : ∀ x ∈ s.leaves, x ∈ (BitTree.walk bit k m p n t).tree.leaves ∨ key x = k) :
    (BitTree.graft bit k m s t).Ok len bit key n := by
  induction t generalizing p n with
  | node a c l r ihl ihr =>
      by_cases hc : c < m
      · obtain ⟨hagree, hlong, hrest⟩ := hfits hc
        rw [walk_node p n l r hc] at hs hkeep hnew
        rw [graft_node s l r a hc]
        have hleaves : ∀ x ∈ (BitTree.graft bit k m s (BitTree.child l r (bit k c))).leaves,
            Side len bit key a c (bit k c) x := by
          intro x hx
          rcases (mem_leaves_graft hkeep).mp hx with hx | hx
          · exact h.side_child hx
          · rcases hnew x hx with hx | rfl
            · exact h.side_child ((h.child (bit k c)).walk.2.2 x hx)
            · exact ⟨hlong, hagree, rfl⟩
        cases hbit : bit k c <;> rw [hbit] at hs hkeep hnew hleaves
        · rw [hbit, if_neg Bool.false_ne_true] at hrest
          rw [if_neg Bool.false_ne_true]
          refine ⟨h.1, ?_, hleaves, h.2.2.2.1, ihl h.2.2.2.2.1 hrest hs hkeep hnew, h.2.2.2.2.2⟩
          rcases List.mem_append.mp h.2.1 with hl | hr
          · exact List.mem_append_left _ ((mem_leaves_graft hkeep).mpr (.inl hl))
          · exact List.mem_append_right _ hr
        · rw [hbit, if_pos rfl] at hrest
          rw [if_pos rfl]
          refine ⟨h.1, ?_, h.2.2.1, hleaves, h.2.2.2.2.1, ihr h.2.2.2.2.2 hrest hs hkeep hnew⟩
          rcases List.mem_append.mp h.2.1 with hl | hr
          · exact List.mem_append_left _ hl
          · exact List.mem_append_right _ ((mem_leaves_graft hkeep).mpr (.inl hr))
      · rw [walk_stop p n l r hc] at hs
        rw [graft_stop s l r a hc]
        exact hs
  | _ => exact hs

theorem leaves_join (k : κ) (a : ι) (c : Nat) (t : BitTree ι) :
    x ∈ (join bit k a c t).leaves ↔ x = a ∨ x ∈ t.leaves := by
  unfold join
  split_ifs <;> simp [leaves, or_comm]

theorem inners_join (bit : κ → Nat → Bool) (k : κ) (a : ι) (c : Nat) (t : BitTree ι) :
    (join bit k a c t).inners = a :: t.inners := by
  unfold join
  split_ifs <;> simp [inners]

/-- A new node parts its key from those that first differ from it there. -/
theorem Ok.join (h : t.Ok len bit key (c + 1)) (hn : n ≤ c) (hlen : c < len (key a))
    (hdiff : ∀ x ∈ t.leaves, FirstDiff len bit c (key x) (key a)) :
    (BitTree.join bit (key a) a c t).Ok len bit key n := by
  have hown : Side len bit key a c (bit (key a) c) a := ⟨hlen, fun _ _ => rfl, rfl⟩
  have hothers : ∀ x ∈ t.leaves, Side len bit key a c (! bit (key a) c) x := by
    intro x hx
    obtain ⟨hagree, hdiffer, hleft, -⟩ := hdiff x hx
    exact ⟨hleft, hagree, Bool.eq_not.mpr hdiffer⟩
  unfold BitTree.join
  cases hbit : bit (key a) c <;> rw [hbit] at hown hothers
  · rw [if_neg Bool.false_ne_true]
    refine ⟨hn, List.mem_append_left _ List.mem_cons_self, ?_, hothers, trivial, h⟩
    exact fun x hx => List.mem_singleton.mp hx ▸ hown
  · rw [if_pos rfl]
    refine ⟨hn, List.mem_append_right _ List.mem_cons_self, hothers, ?_, h, trivial⟩
    exact fun x hx => List.mem_singleton.mp hx ▸ hown

/-- Where a key that agrees with `k` up to `c` is looked for, all keys first differ from `k` at
`c`, and no node has the position `c`. -/
theorem Ok.target {b : ι} (h : t.Ok len bit key n)
    (hb : b ∈ (BitTree.walk bit k m p n t).tree.leaves) (hdiff : FirstDiff len bit c (key b) k)
    (hc : c < m) :
    (BitTree.walk bit k c p n t).tree.Ok len bit key (c + 1) ∧
      ∀ x ∈ (BitTree.walk bit k c p n t).tree.leaves, FirstDiff len bit c (key x) k := by
  have hmem : b ∈ (BitTree.walk bit k c p n t).tree.leaves :=
    mem_walk h (h.walk.2.2 b hb) hdiff.agree
  have hok : (BitTree.walk bit k c p n t).tree.Ok len bit key
    (BitTree.walk bit k c p n t).floor := h.walk.1
  have hon : BitTree.walk bit k m (BitTree.walk bit k c p n t).slot
    (BitTree.walk bit k c p n t).floor (BitTree.walk bit k c p n t).tree =
      BitTree.walk bit k m p n t := walk_walk hc.le
  cases hT : (BitTree.walk bit k c p n t).tree with
  | nil =>
      rw [hT] at hmem
      cases hmem
  | leaf a =>
      rw [hT] at hmem
      obtain rfl := List.mem_singleton.mp hmem
      exact ⟨trivial, fun x hx => List.mem_singleton.mp hx ▸ hdiff⟩
  | node a d l r =>
      rw [hT] at hmem hok hon
      have hle := le_of_walk hT
      have hne : d ≠ c := by
        rintro rfl
        rw [walk_node _ _ l r hc] at hon
        rw [← hon] at hb
        exact hdiff.differ (hok.side_child ((hok.child (bit k d)).walk.2.2 b hb)).side
      have hlt : c < d := lt_of_le_of_ne hle hne.symm
      refine ⟨⟨hlt, hok.2⟩, fun x hx => ?_⟩
      obtain ⟨_, hsideB, -⟩ := hok.side hmem
      obtain ⟨_, hsideX, -⟩ := hok.side hx
      have hsame : Agree bit d (key x) (key b) := hsideX.agree.trans hsideB.agree.symm
      refine ⟨(hsame.mono hlt.le).trans hdiff.agree, ?_, lt_trans hlt hsideX.long, hdiff.right⟩
      rw [hsame c hlt]
      exact hdiff.differ

end

/-- The links and the positions in the nodes of a memory. -/
structure Links where
  link : Nat × Bool → Nat
  check : Nat → Nat

/-- The link `v` holds the tree: it is 0, a link up to a node with a position below `n`, or a link
down. -/
def Links.Rep (M : Links) : Nat → Nat → BitTree Nat → Prop
  | _, v, nil => v = 0
  | n, v, leaf a => v = a ∧ a ≠ 0 ∧ M.check a < n
  | n, v, node a c l r => v = a ∧ a ≠ 0 ∧ M.check a = c ∧ n ≤ c ∧
      M.Rep (c + 1) (M.link (a, false)) l ∧ M.Rep (c + 1) (M.link (a, true)) r

section

variable {bit : κ → Nat → Bool} {k : κ} {m n v : Nat} {p : Nat × Bool} {s t : BitTree Nat}
  {M M' : Links}

/-- A tree reads its nodes, and the positions of the nodes that its leaves lead to. -/
theorem Links.Rep.congr (h : M.Rep n v t)
    (hlink : ∀ q : Nat × Bool, q.1 ∈ t.inners → M'.link q = M.link q)
    (hcheck : ∀ a ∈ t.inners ++ t.leaves, M'.check a = M.check a) : M'.Rep n v t := by
  induction t generalizing n v with
  | nil => exact h
  | leaf a =>
      rw [Links.Rep, hcheck a (List.mem_append_right _ List.mem_cons_self)]
      exact h
  | node a c l r ihl ihr =>
      obtain ⟨hv, ha, hc, hn, hl, hr⟩ := h
      refine ⟨hv, ha, (hcheck a List.mem_cons_self).trans hc, hn, ?_, ?_⟩
      · rw [hlink (a, false) List.mem_cons_self]
        exact ihl hl (fun q hq => hlink q (inners_child (b := false) hq a c))
          fun x hx => hcheck x (mem_child (b := false) hx a c)
      · rw [hlink (a, true) List.mem_cons_self]
        exact ihr hr (fun q hq => hlink q (inners_child (b := true) hq a c))
          fun x hx => hcheck x (mem_child (b := true) hx a c)

/-- A tree may hang lower, if that is still above its first node. -/
theorem Links.Rep.lower (h : M.Rep n v t) (hn : n ≤ m)
    (hnode : ∀ a c l r, t = node a c l r → m ≤ c) : M.Rep m v t := by
  cases t with
  | nil => exact h
  | leaf a => exact ⟨h.1, h.2.1, lt_of_lt_of_le h.2.2 hn⟩
  | node a c l r => exact ⟨h.1, h.2.1, h.2.2.1, hnode a c l r rfl, h.2.2.2.2⟩

theorem Links.Rep.child {a c : Nat} {l r : BitTree Nat} (h : M.Rep n v (node a c l r)) (b : Bool) :
    M.Rep (c + 1) (M.link (a, b)) (BitTree.child l r b) := by
  cases b
  · exact h.2.2.2.2.1
  · exact h.2.2.2.2.2

/-- The link where a search stops holds the tree there. -/
theorem Links.Rep.walk (h : M.Rep n (M.link p) t) :
    M.Rep (BitTree.walk bit k m p n t).floor (M.link (BitTree.walk bit k m p n t).slot)
      (BitTree.walk bit k m p n t).tree := by
  induction t generalizing p n with
  | node a c l r ihl ihr =>
      by_cases hc : c < m
      · have hchild := h.child (bit k c)
        rw [walk_node p n l r hc]
        cases hbit : bit k c <;> rw [hbit] at hchild
        · exact ihl hchild
        · exact ihr hchild
      · rw [walk_stop p n l r hc]
        exact h
  | _ => exact h

/-- A search stops at the link it began with, or in a node. -/
theorem slot_walk (bit : κ → Nat → Bool) (k : κ) (m : Nat) (p : Nat × Bool) (n : Nat)
    (t : BitTree Nat) :
    (walk bit k m p n t).slot = p ∨ (walk bit k m p n t).slot.1 ∈ t.inners := by
  induction t generalizing p n with
  | node a c l r ihl ihr =>
      by_cases hc : c < m
      · rw [walk_node p n l r hc]
        refine .inr ?_
        cases bit k c
        · rcases ihl (a, false) (c + 1) with h | h
          · exact List.mem_cons.mpr (.inl (congrArg Prod.fst h))
          · exact List.mem_cons_of_mem _ (List.mem_append_left _ h)
        · rcases ihr (a, true) (c + 1) with h | h
          · exact List.mem_cons.mpr (.inl (congrArg Prod.fst h))
          · exact List.mem_cons_of_mem _ (List.mem_append_right _ h)
      · rw [walk_stop p n l r hc]
        exact .inl rfl
  | _ => exact .inl rfl

/-- The node where a search stops is above the tree there. -/
theorem slot_not_mem (hnodup : t.inners.Nodup) (hp : p.1 ∉ t.inners) :
    (walk bit k m p n t).slot.1 ∉ (walk bit k m p n t).tree.inners := by
  induction t generalizing p n with
  | node a c l r ihl ihr =>
      by_cases hc : c < m
      · have hnot : ∀ b, a ∉ (child l r b).inners := fun b hx => (inners_apart hnodup hx).2 rfl
        have hnodupC := nodup_child hnodup (bit k c)
        rw [walk_node p n l r hc]
        cases hbit : bit k c <;> rw [hbit] at hnodupC
        · exact ihl hnodupC (hnot false)
        · exact ihr hnodupC (hnot true)
      · rw [walk_stop p n l r hc]
        exact hp
  | _ => exact hp

/-- Positions in a memory grow. -/
theorem Links.Rep.le_check (h : M.Rep n v t) {a : Nat} (ha : a ∈ t.inners) : n ≤ M.check a := by
  induction t generalizing n v with
  | node b c l r ihl ihr =>
      obtain ⟨-, -, hc, hn, hl, hr⟩ := h
      rcases List.mem_cons.mp ha with rfl | ha
      · exact hc ▸ hn
      · rcases List.mem_append.mp ha with ha | ha
        · exact le_trans (le_trans hn (Nat.le_succ c)) (ihl hl ha)
        · exact le_trans (le_trans hn (Nat.le_succ c)) (ihr hr ha)
  | _ => exact absurd ha List.not_mem_nil

/-- A node with its key where a search stops is there as well, or on the way. -/
theorem Links.Rep.check_lt {len : κ → Nat} {key : Nat → κ} (h : M.Rep n v t)
    (hok : t.Ok len bit key n) {a : Nat} (ha : a ∈ t.inners)
    (hleaf : a ∈ (BitTree.walk bit k m p n t).tree.leaves)
    (hnot : a ∉ (BitTree.walk bit k m p n t).tree.inners) : M.check a < m := by
  induction t generalizing n v p with
  | node b c l r ihl ihr =>
      by_cases hc : c < m
      · rw [walk_node p n l r hc] at hleaf hnot
        rcases List.mem_cons.mp ha with rfl | ha
        · exact h.2.2.1 ▸ hc
        · have hside : a ∈ (BitTree.child l r (bit k c)).leaves :=
            (hok.child (bit k c)).walk.2.2 a hleaf
          have hown := (hok.side_child hside).side
          have hin : a ∈ (BitTree.child l r (bit k c)).inners := by
            rcases List.mem_append.mp ha with ha | ha
            · have hother := (hok.2.2.1 a (hok.2.2.2.2.1.mem_leaves ha)).side
              rw [← hown, hother]
              exact ha
            · have hother := (hok.2.2.2.1 a (hok.2.2.2.2.2.mem_leaves ha)).side
              rw [← hown, hother]
              exact ha
          have hchild := h.child (bit k c)
          have hokC := hok.child (bit k c)
          cases hbit : bit k c <;> rw [hbit] at hin hchild hokC hleaf hnot
          · exact ihl hchild hokC hin hleaf hnot
          · exact ihr hchild hokC hin hleaf hnot
      · rw [walk_stop p n l r hc] at hnot
        exact absurd ha hnot
  | _ => exact absurd ha List.not_mem_nil

/-- A new node in a memory, with a link to itself and one to the tree `t`. -/
theorem Links.Rep.join {a c : Nat} (h : M.Rep (c + 1) v t) (hn : n ≤ c) (ha : a ≠ 0)
    (hcheck : M.check a = c) (hown : M.link (a, bit k c) = a) (hother : M.link (a, !bit k c) = v) :
    M.Rep n a (BitTree.join bit k a c t) := by
  have hleaf : M.Rep (c + 1) a (leaf a) := ⟨rfl, ha, by omega⟩
  rw [← hother] at h
  have hup : M.Rep (c + 1) (M.link (a, bit k c)) (leaf a) := hown.symm ▸ hleaf
  unfold BitTree.join
  cases hbit : bit k c <;> rw [hbit] at h hup
  · rw [if_neg Bool.false_ne_true]
    exact ⟨rfl, ha, hcheck, hn, hup, h⟩
  · rw [if_pos rfl]
    exact ⟨rfl, ha, hcheck, hn, h, hup⟩

/-- **A graft in a memory** is one link changed. -/
theorem Links.Rep.graft (h : M.Rep n (M.link p) t) (hnodup : t.inners.Nodup) (hp : p.1 ∉ t.inners)
    (hlink : ∀ q, q ≠ (BitTree.walk bit k m p n t).slot → q = p ∨ q.1 ∈ t.inners →
      M'.link q = M.link q)
    (hcheck : ∀ a ∈ t.inners ++ t.leaves, M'.check a = M.check a)
    (hs : M'.Rep (BitTree.walk bit k m p n t).floor
      (M'.link (BitTree.walk bit k m p n t).slot) s) :
    M'.Rep n (M'.link p) (BitTree.graft bit k m s t) := by
  induction t generalizing p n with
  | node a c l r ihl ihr =>
      by_cases hc : c < m
      · have hslot := slot_walk bit k m (a, bit k c) (c + 1) (BitTree.child l r (bit k c))
        have hnot : ∀ b, a ∉ (BitTree.child l r b).inners := fun b hx =>
          (inners_apart hnodup hx).2 rfl
        rw [walk_node p n l r hc] at hlink hs
        have hfirst : M'.link p = a := by
          rw [hlink p (fun heq => ?_) (.inl rfl), h.1]
          rcases hslot with hslot | hslot
          · exact hp (by rw [heq, hslot]; exact List.mem_cons_self)
          · exact hp (by rw [heq]; exact inners_child hslot a c)
        have hown : M'.check a = c := (hcheck a List.mem_cons_self).trans h.2.2.1
        -- the side that the search does not take
        have hother : M'.Rep (c + 1) (M'.link (a, !bit k c)) (BitTree.child l r (!bit k c)) := by
          have hkept : ∀ q : Nat × Bool, q = (a, !bit k c) ∨
              q.1 ∈ (BitTree.child l r (!bit k c)).inners → M'.link q = M.link q := by
            rintro q hq
            refine hlink q (fun heq => ?_) (.inr ?_)
            · rcases hslot with hslot | hslot <;> rcases hq with hq | hq
              · have hside := (Prod.mk.inj (hq.symm.trans (heq.trans hslot))).2
                cases hbit : bit k c <;> rw [hbit] at hside <;> cases hside
              · have hown : q.1 = a := congrArg Prod.fst (heq.trans hslot)
                exact hnot _ (hown ▸ hq)
              · have hown : q.1 = a := congrArg Prod.fst hq
                exact hnot _ (hown ▸ heq ▸ hslot)
              · exact (inners_apart hnodup hslot).1 (heq ▸ hq)
            · rcases hq with rfl | hq
              · exact List.mem_cons_self
              · exact inners_child hq a c
          rw [hkept _ (.inl rfl)]
          exact (h.child _).congr (fun q hq => hkept q (.inr hq))
            fun x hx => hcheck x (mem_child hx a c)
        have hin : ∀ q : Nat × Bool, q = (a, bit k c) ∨ q.1 ∈ (BitTree.child l r (bit k c)).inners →
            q.1 ∈ (node a c l r).inners := by
          rintro q (rfl | hq)
          · exact List.mem_cons_self
          · exact inners_child hq a c
        have hchild := h.child (bit k c)
        have hnodupC := nodup_child hnodup (bit k c)
        have hcheckC : ∀ x ∈ (BitTree.child l r (bit k c)).inners ++
            (BitTree.child l r (bit k c)).leaves, M'.check x = M.check x :=
          fun x hx => hcheck x (mem_child hx a c)
        rw [graft_node s l r a hc]
        cases hbit : bit k c <;> rw [hbit] at hlink hs hother hin hchild hnodupC hcheckC
        · rw [if_neg Bool.false_ne_true]
          exact ⟨hfirst, h.2.1, hown, h.2.2.2.1, ihl hchild hnodupC (hnot false)
            (fun q hne hq => hlink q hne (.inr (hin q hq))) hcheckC hs, hother⟩
        · rw [if_pos rfl]
          exact ⟨hfirst, h.2.1, hown, h.2.2.2.1, hother, ihr hchild hnodupC (hnot true)
            (fun q hne hq => hlink q hne (.inr (hin q hq))) hcheckC hs⟩
      · rw [walk_stop p n l r hc] at hs
        rw [graft_stop s l r a hc]
        exact hs
  | _ => exact hs

end

end BitTree

end Senna.Lib
