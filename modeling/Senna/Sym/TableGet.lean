/-
# Keys and their numbers

`sen_sym_get` returns the number of a key, and gives the next one to a key that is new; it changes
one link of the tree for that. `sen_sym_at` returns the number of a key, or 0. So a table into
which keys have been put numbers them in the order in which they have first come.
-/

import Senna.Sym.TableTree

namespace Senna.Sym

open Senna.Lib Senna.Lib.BitTree SenSym

section

variable {s s₁ : SenSym} {ks : List (List UInt8)} {t S : BitTree Nat} {key : List UInt8}
  {m k a c : Nat} {q p : Nat × Bool}

theorem setNode_nodes (s : SenSym) (a : Nat) (n : PatNode) (id : Nat) :
    (s.setNode a n).nodes id = if id = a then n else s.nodes id :=
  Function.update_apply s.nodes a n id

theorem setLink_key (s : SenSym) (q : Nat × Bool) (v id : Nat) :
    ((s.setLink q v).nodes id).key = (s.nodes id).key := by
  unfold setLink
  dsimp only
  rw [Function.update_apply]
  split_ifs with hid
  · rw [hid]
  · rw [hid]
  · rfl

theorem setLink_check (s : SenSym) (q : Nat × Bool) (v id : Nat) :
    ((s.setLink q v).nodes id).check = (s.nodes id).check := by
  unfold setLink
  dsimp only
  rw [Function.update_apply]
  split_ifs with hid
  · rw [hid]
  · rw [hid]
  · rfl

theorem setLink_link (s : SenSym) (q p : Nat × Bool) (v : Nat) :
    (s.setLink q v).link p = if p = q then v else s.link p := by
  obtain ⟨i, b⟩ := p
  obtain ⟨j, b'⟩ := q
  unfold setLink link
  dsimp only
  rw [Function.update_apply]
  by_cases hij : i = j
  · subst hij
    rw [if_pos rfl]
    cases b <;> cases b' <;> simp
  · rw [if_neg hij, if_neg fun h => hij (congrArg Prod.fst h)]

theorem link_congr (h : s₁.nodes p.1 = s.nodes p.1) : s₁.link p = s.link p := by
  unfold SenSym.link
  rw [h]

/-- The node that is linked into the tree. -/
theorem getLink_node (s : SenSym) (key : List UInt8) (a c : Nat) (q : Nat × Bool) :
    ∃ n : PatNode, s.getLink key a c q = (s.setNode a n).setLink q a ∧ n.key = (s.nodes a).key ∧
      n.check = c ∧ (s.setNode a n).link (a, nthBit key c) = a ∧
      (s.setNode a n).link (a, ! nthBit key c) = s.link q := by
  refine ⟨_, rfl, ?_, ?_, ?_, ?_⟩
  · split_ifs <;> rfl
  · split_ifs <;> rfl
  · rw [SenSym.link, setNode_nodes, if_pos rfl]
    cases nthBit key c <;> rfl
  · rw [SenSym.link, setNode_nodes, if_pos rfl]
    cases nthBit key c <;> rfl

theorem getLink_key (id : Nat) : ((s.getLink key a c q).nodes id).key = (s.nodes id).key := by
  obtain ⟨n, hrun, hkey, -⟩ := getLink_node s key a c q
  rw [hrun, setLink_key, setNode_nodes]
  split_ifs with hid
  · rw [hkey, hid]
  · rfl

theorem getLink_check (id : Nat) :
    ((s.getLink key a c q).nodes id).check = if id = a then c else (s.nodes id).check := by
  obtain ⟨n, hrun, -, hcheck, -⟩ := getLink_node s key a c q
  rw [hrun, setLink_check, setNode_nodes]
  split_ifs
  · exact hcheck
  · rfl

/-- The link `q` leads to the new node, one link of which leads to itself, and the other one to
what was there before. The other links stay. -/
theorem getLink_link (s : SenSym) (key : List UInt8) (c : Nat) (hq : q.1 ≠ a) :
    (s.getLink key a c q).link q = a ∧ (s.getLink key a c q).link (a, nthBit key c) = a ∧
      (s.getLink key a c q).link (a, ! nthBit key c) = s.link q ∧
      ∀ p, p ≠ q → p.1 ≠ a → (s.getLink key a c q).link p = s.link p := by
  obtain ⟨n, hrun, -, -, hown, hother⟩ := getLink_node s key a c q
  have hne : ∀ b, (a, b) ≠ q := fun b h => hq (congrArg Prod.fst h).symm
  rw [hrun]
  refine ⟨?_, ?_, ?_, fun p hp ha => ?_⟩
  · rw [setLink_link, if_pos rfl]
  · rw [setLink_link, if_neg (hne _), hown]
  · rw [setLink_link, if_neg (hne _), hother]
  · rw [setLink_link, if_neg hp, SenSym.link, SenSym.link, setNode_nodes, if_neg ha]

theorem Stored.getLink (h : Stored s ks) : Stored (s.getLink key a c q) ks where
  count := h.count
  total := h.total
  idLe := h.idLe
  pat := h.pat
  sis := h.sis
  noGarbage := h.noGarbage
  top := h.top
  isKey := h.isKey
  nodup := h.nodup
  own b hb := by
    rw [getLink_key]
    exact (h.own b hb).congr le_rfl (fun _ => le_rfl) fun _ _ _ => rfl

theorem Holds.live (h : Holds s ks t) (ha : a ∈ t.inners ++ t.leaves) : Live ks a := by
  rcases List.mem_append.mp ha with ha | ha
  · exact h.inners a ha
  · exact (h.leaves a).mp ha

theorem Holds.live_walk (h : Holds s ks t) (key : List UInt8) (m : Nat)
    (ha : a ∈ (walk nthBit key m rootLink 0 t).tree.inners ++
      (walk nthBit key m rootLink 0 t).tree.leaves) : Live ks a := by
  rcases List.mem_append.mp ha with ha | ha
  · obtain ⟨pre, post, hold, -⟩ := inners_graft nthBit key m rootLink 0 nil t
    refine h.inners a ?_
    rw [hold]
    exact List.mem_append_left _ (List.mem_append_right _ ha)
  · exact (h.leaves a).mp (h.ok.walk.2.2 a ha)

/-- The node where a search stops is not the next one. -/
theorem Holds.slot_ne_new (h : Holds s ks t) :
    (walk nthBit key m rootLink 0 t).slot.1 ≠ ks.length + 1 := by
  rcases slot_walk nthBit key m rootLink 0 t with heq | hmem
  · rw [heq]
    exact (Nat.succ_ne_zero ks.length).symm
  · have hle := (h.inners _ hmem).le
    omega

/-- **A graft of the new node.** The tree `S` holds the new number besides what was in its place. -/
theorem Holds.graft (h : Holds s ks t) (hs₁ : Stored s₁ (ks ++ [key]))
    (hnodes : ∀ id ≠ ks.length + 1, s₁.nodes id = s.nodes id)
    (hslot : q = (walk nthBit key m rootLink 0 t).slot)
    (hfits : t.Fits bitLen nthBit (keyOf (ks ++ [key])) key m)
    (hS : S.Ok bitLen nthBit (keyOf (ks ++ [key])) (walk nthBit key m rootLink 0 t).floor)
    (hleaves : ∀ x, x ∈ S.leaves ↔
      x = ks.length + 1 ∨ x ∈ (walk nthBit key m rootLink 0 t).tree.leaves)
    (hinners : S.inners = (walk nthBit key m rootLink 0 t).tree.inners ∨
      S.inners = (ks.length + 1) :: (walk nthBit key m rootLink 0 t).tree.inners)
    (hrep : (s₁.getLink key (ks.length + 1) c q).links.Rep
      (walk nthBit key m rootLink 0 t).floor (ks.length + 1) S)
    (hc : c < bitLen key)
    (hwhole : S.inners = (ks.length + 1) :: (walk nthBit key m rootLink 0 t).tree.inners ∨
      ∃ k ∈ ks, LastDiff k key) :
    Holds (s₁.getLink key (ks.length + 1) c q) (ks ++ [key]) (BitTree.graft nthBit key m S t) := by
  have hfresh : ∀ {b}, Live ks b → b ≠ ks.length + 1 := fun hb heq => by
    have := hb.le
    omega
  have hroot : rootLink.1 ∉ t.inners := fun hmem => absurd (h.inners _ hmem).pos (by decide)
  have hq : q.1 ≠ ks.length + 1 := hslot ▸ h.slot_ne_new
  obtain ⟨hto, -, -, hsame⟩ := getLink_link s₁ key c hq
  have hsub : ∀ x ∈ (walk nthBit key m rootLink 0 t).tree.leaves, x ∈ t.leaves := h.ok.walk.2.2
  have hmem : ∀ x, x ∈ (BitTree.graft nthBit key m S t).leaves ↔ Live (ks ++ [key]) x := by
    intro x
    rw [mem_leaves_graft (p := rootLink) (n := 0) fun x hx => (hleaves x).mpr (.inr hx), hleaves,
      h.leaves, live_append_iff]
    exact ⟨fun hx => hx.elim .inl fun hx => hx.elim .inr fun hx =>
      .inl ((h.leaves x).mp (hsub x hx)), fun hx => hx.elim .inl fun hx => .inr (.inl hx)⟩
  obtain ⟨pre, post, hold, hnew⟩ := inners_graft nthBit key m rootLink 0 S t
  have hperm : (BitTree.graft nthBit key m S t).inners = t.inners ∨
      (BitTree.graft nthBit key m S t).inners.Perm ((ks.length + 1) :: t.inners) := by
    rcases hinners with heq | heq
    · exact .inl (by rw [hnew, hold, heq])
    · refine .inr ?_
      rw [hnew, hold, heq, List.append_assoc, List.append_assoc]
      exact List.perm_middle
  have hnot : ks.length + 1 ∉ t.inners := fun hmem => hfresh (h.inners _ hmem) rfl
  exact {
    toStored := hs₁.getLink
    ok := by
      refine Ok.graft (h.ok.congr fun x hx => keyOf_append ((h.leaves x).mp hx)) hfits hS
        (fun x hx => (hleaves x).mpr (.inr hx)) fun x hx => ?_
      rcases (hleaves x).mp hx with rfl | hx
      · exact .inr (keyOf_new ks key)
      · exact .inl hx
    leaves := hmem
    inners := fun x hx => by
      rcases hperm with heq | hperm
      · exact (h.inners x (heq ▸ hx)).append key
      · rcases List.mem_cons.mp (hperm.mem_iff.mp hx) with rfl | hx
        · exact live_new ks key
        · exact (h.inners x hx).append key
    distinct := by
      rcases hperm with heq | hperm
      · exact heq ▸ h.distinct
      · exact hperm.nodup_iff.mpr (List.nodup_cons.mpr ⟨hnot, h.distinct⟩)
    rep := by
      refine h.rep.graft h.distinct hroot (fun p hp hin => ?_) (fun b hb => ?_) ?_
      · have hp1 : p.1 ≠ ks.length + 1 := by
          rcases hin with rfl | hin
          · exact (Nat.succ_ne_zero ks.length).symm
          · exact hfresh (h.inners _ hin)
        exact (hsame p (hslot ▸ hp) hp1).trans (link_congr (hnodes _ hp1))
      · have hlive := h.live hb
        refine (getLink_check b).trans ?_
        rw [if_neg (hfresh hlive), hnodes _ (hfresh hlive)]
        rfl
      · rw [← hslot]
        change Links.Rep _ _ ((s₁.getLink key (ks.length + 1) c q).link q) S
        rw [hto]
        exact hrep
    inside := fun b hb => by
      rw [getLink_check]
      rcases live_append_iff.mp hb with hlive | rfl
      · rw [if_neg (hfresh hlive), hnodes _ (hfresh hlive), keyOf_append hlive]
        exact h.inside b hlive
      · rw [if_pos rfl, keyOf_new]
        exact hc
    whole := fun b hb => by
      rcases live_append_iff.mp hb with hlive | rfl
      · rw [keyOf_append hlive]
        rcases h.whole b hlive with hin | ⟨k, hk, hlast⟩
        · refine .inl ?_
          rcases hperm with heq | hperm
          · exact heq ▸ hin
          · exact hperm.mem_iff.mpr (List.mem_cons_of_mem _ hin)
        · exact .inr ⟨k, List.mem_append_left _ hk, hlast⟩
      · rw [keyOf_new]
        rcases hwhole with heq | ⟨k, hk, hlast⟩
        · exact .inl (hnew ▸ List.mem_append_left _ (List.mem_append_right _
            (heq ▸ List.mem_cons_self)))
        · exact .inr ⟨k, List.mem_append_left _ hk, hlast⟩ }

/-- A new node at its place. -/
theorem Holds.placed (h : Holds s ks t) (hs₁ : Stored s₁ (ks ++ [key]))
    (hnodes : ∀ id ≠ ks.length + 1, s₁.nodes id = s.nodes id)
    (hplaced : Placed (keyOf (ks ++ [key])) t key c q) (hc : c < bitLen key) :
    ∃ t', Holds (s₁.getLink key (ks.length + 1) c q) (ks ++ [key]) t' := by
  have hfresh : ∀ {b}, Live ks b → b ≠ ks.length + 1 := fun hb heq => by
    have := hb.le
    omega
  have hroot : rootLink.1 ∉ t.inners := fun hmem => absurd (h.inners _ hmem).pos (by decide)
  cases hplaced with
  | join hslot hfits hok hdiff =>
      refine ⟨_, h.graft (S := BitTree.join nthBit key (ks.length + 1) c
        (walk nthBit key c rootLink 0 t).tree) hs₁ hnodes hslot hfits ?_
        (fun x => leaves_join key _ c _) (.inr (inners_join nthBit key _ c _)) ?_ hc
        (.inl (inners_join nthBit key _ c _))⟩
      · have hjoin := hok.join (a := ks.length + 1) (n := (walk nthBit key c rootLink 0 t).floor)
          (floor_le (Nat.zero_le c)) (by rw [keyOf_new]; exact hc)
          (fun x hx => by rw [keyOf_new]; exact hdiff x hx)
        rwa [keyOf_new] at hjoin
      · have hq : q.1 ≠ ks.length + 1 := hslot ▸ h.slot_ne_new
        obtain ⟨-, hown, hother, hsame⟩ := getLink_link s₁ key c hq
        have hbelow : s.links.Rep (c + 1) (s.link q)
            (walk nthBit key c rootLink 0 t).tree := by
          refine (hslot ▸ h.rep.walk : s.links.Rep _ (s.link q) _).lower
            (Nat.le_succ_of_le (floor_le (Nat.zero_le c))) fun b d l r htree => ?_
          rw [htree] at hok
          exact hok.1
        have hkept : ∀ b ∈ (walk nthBit key c rootLink 0 t).tree.inners ++
            (walk nthBit key c rootLink 0 t).tree.leaves, Live ks b :=
          fun b hb => h.live_walk key c hb
        have hrest : (s₁.getLink key (ks.length + 1) c q).links.Rep (c + 1) (s₁.link q)
            (walk nthBit key c rootLink 0 t).tree := by
          rw [link_congr (hnodes _ hq)]
          refine hbelow.congr (fun p hp => ?_) fun b hb => ?_
          · have hp1 : p.1 ≠ ks.length + 1 := hfresh (hkept _ (List.mem_append_left _ hp))
            have hpq : p ≠ q := fun heq =>
              slot_not_mem h.distinct hroot (hslot ▸ heq ▸ hp)
            exact (hsame p hpq hp1).trans (link_congr (hnodes _ hp1))
          · refine (getLink_check b).trans ?_
            rw [if_neg (hfresh (hkept b hb)), hnodes _ (hfresh (hkept b hb))]
            rfl
        refine hrest.join (floor_le (Nat.zero_le c)) (Nat.succ_ne_zero _) ?_ hown hother
        exact (getLink_check _).trans (if_pos rfl)
  | stub hslot hfits hfloor hnil hlast =>
      have hold : ∃ k ∈ ks, LastDiff k key := by
        obtain ⟨b, hb, hdiff⟩ := hlast
        have hlive := (h.leaves b).mp hb
        rw [keyOf_append hlive] at hdiff
        exact ⟨_, hlive.mem, hdiff⟩
      refine ⟨_, h.graft (S := .leaf (ks.length + 1)) hs₁ hnodes hslot hfits trivial (fun x => ?_)
        (.inl ?_) ⟨rfl, Nat.succ_ne_zero _, ?_⟩ hc (.inr hold)⟩
      · rw [hnil]
        exact ⟨fun hx => .inl (List.mem_singleton.mp hx), fun hx => hx.elim
          (fun hx => List.mem_singleton.mpr hx) fun hx => absurd hx List.not_mem_nil⟩
      · rw [hnil]
        rfl
      · rw [hfloor]
        change ((s₁.getLink key (ks.length + 1) c q).nodes (ks.length + 1)).check < c + 1
        rw [getLink_check, if_pos rfl]
        exact Nat.lt_succ_self c

/-- Keys at the same place are the same. -/
theorem IsKey.eq_of_read {keySize : Nat} {K : List UInt8} {b : Memory UInt8}
    (hK : IsKey keySize K) (hkey : IsKey keySize key) (hb : b.read 0 K.length = K)
    (hb' : b.read 0 key.length = key) : K = key := by
  rcases Nat.le_total K.length key.length with hle | hle
  · refine hK.eq_of_prefix hkey ?_
    obtain ⟨d, hd⟩ := Nat.exists_eq_add_of_le hle
    rw [hd, Memory.read_add, hb] at hb'
    exact ⟨_, hb'⟩
  · refine (hkey.eq_of_prefix hK ?_).symm
    obtain ⟨d, hd⟩ := Nat.exists_eq_add_of_le hle
    rw [hd, Memory.read_add, hb'] at hb
    exact ⟨_, hb⟩

/-- The way of a key that is there ends at its number. -/
theorem Holds.walk_leaf (h : Holds s ks t) (ha : Live ks a) :
    (walk nthBit (keyOf ks a) (bitLen (keyOf ks a)) rootLink 0 t).tree = leaf a := by
  have hmem : a ∈ (walk nthBit (keyOf ks a) (bitLen (keyOf ks a)) rootLink 0 t).tree.leaves :=
    mem_walk h.ok ((h.leaves a).mpr ha) fun _ _ => rfl
  have hok : (walk nthBit (keyOf ks a) (bitLen (keyOf ks a)) rootLink 0 t).tree.Ok bitLen nthBit
    (keyOf ks) _ := h.ok.walk.1
  cases hT : (walk nthBit (keyOf ks a) (bitLen (keyOf ks a)) rootLink 0 t).tree with
  | nil =>
      rw [hT] at hmem
      exact absurd hmem List.not_mem_nil
  | leaf b =>
      rw [hT] at hmem
      rw [List.mem_singleton.mp hmem]
  | node b c l r =>
      rw [hT] at hmem hok
      obtain ⟨_, hside, -⟩ := hok.side hmem
      exact absurd hside.long (not_lt.mpr (le_of_walk hT))

/-- The key that a search meets is one of the table. -/
theorem Came.live_met {x y : GetPos} (h : Holds s ks t) (ht : t ≠ nil)
    (hcame : Came key (bitLen key) 0 t x y) (hx : x.p0 = rootLink) :
    Live ks (met (walk nthBit key (bitLen key) rootLink 0 t)) := by
  have hprev := hcame.prev
  rw [hx] at hprev
  by_cases hnil : (walk nthBit key (bitLen key) rootLink 0 t).tree = nil
  · rcases hprev with ⟨hend, -, -⟩ | ⟨a, d, l, r, hd, htree, hend, -, -⟩
    · rw [hend] at hnil
      exact absurd hnil ht
    · have hmet : met (walk nthBit key (bitLen key) rootLink 0 t) = a := by
        rw [hend] at hnil ⊢
        rw [met, show child l r (nthBit key d) = nil from hnil]
      rw [hmet]
      refine h.live_walk key d (List.mem_append_left _ ?_)
      rw [htree]
      exact List.mem_cons_self
  · have hok : (walk nthBit key (bitLen key) rootLink 0 t).tree.Ok bitLen nthBit (keyOf ks) _ :=
      h.ok.walk.1
    exact h.live_walk key (bitLen key) (List.mem_append_right _ (mem_met hok hnil))

/-- The loop ends at the number of the key, or with a key to compare if there is none. -/
theorem Holds.getLoop (h : Holds s ks t) (hkey : IsKey s.keySize key) (ht : t ≠ nil)
    (hk : bitLen key < k) :
    (∃ b, Live ks b ∧ keyOf ks b = key ∧
      s.getLoop key (bitLen key) k ⟨-1, -1, rootLink, rootLink, 0⟩ = some (.found b)) ∨
    key ∉ ks ∧ ∃ y p, Came key (bitLen key) 0 t ⟨-1, -1, rootLink, rootLink, 0⟩ y ∧
      s.getLoop key (bitLen key) k ⟨-1, -1, rootLink, rootLink, 0⟩ = some (.stop y p) ∧
      Live ks (met (walk nthBit key (bitLen key) rootLink 0 t)) ∧
      p.read 0 (keyOf ks (met (walk nthBit key (bitLen key) rootLink 0 t))).length =
        keyOf ks (met (walk nthBit key (bitLen key) rootLink 0 t)) := by
  have hat : ∀ a ∈ t.inners ++ t.leaves, s.patAt a = some (s.nodes a) := fun a ha =>
    h.patAt (h.live ha).le
  obtain ⟨y, hcame, hrun⟩ := getLoop_walk key (bitLen key) ⟨-1, -1, rootLink, rootLink, 0⟩
    h.ok h.rep hat rfl rfl hk
  have hlive := hcame.live_met h ht rfl
  obtain ⟨p, hget, hp⟩ := h.getKey hlive
  have hnew : (walk nthBit key (bitLen key) rootLink 0 t).tree ≠
        leaf (met (walk nthBit key (bitLen key) rootLink 0 t)) ∨
      ¬ ((s.nodes (met (walk nthBit key (bitLen key) rootLink 0 t))).check < bitLen key ∧
        p.read 0 key.length = key) → key ∉ ks := by
    intro hor hmem
    obtain ⟨b, hb, rfl⟩ := exists_live hmem
    have hleaf := h.walk_leaf hb
    have hmet : met (walk nthBit (keyOf ks b) (bitLen (keyOf ks b)) rootLink 0 t) = b := by
      rw [met, hleaf]
    rw [hmet] at hor hp
    exact hor.elim (fun hne => hne hleaf) fun hne => hne ⟨h.inside b hb, hp⟩
  rw [endAt, hget, Option.elim_some] at hrun
  have hcompare : s.getLoop key (bitLen key) k ⟨-1, -1, rootLink, rootLink, 0⟩ = some
      (if (s.nodes (met (walk nthBit key (bitLen key) rootLink 0 t))).check < bitLen key ∧
        p.read 0 key.length = key then .found (met (walk nthBit key (bitLen key) rootLink 0 t))
      else .stop y p) →
    (∃ b, Live ks b ∧ keyOf ks b = key ∧
      s.getLoop key (bitLen key) k ⟨-1, -1, rootLink, rootLink, 0⟩ = some (.found b)) ∨
    key ∉ ks ∧ s.getLoop key (bitLen key) k ⟨-1, -1, rootLink, rootLink, 0⟩ =
      some (.stop y p) := by
    intro hrun
    split_ifs at hrun with hcond
    · exact .inl ⟨_, hlive, (h.isKey _ hlive.mem).eq_of_read hkey hp hcond.2, hrun⟩
    · exact .inr ⟨hnew (.inr hcond), hrun⟩
  have hends : (∃ b, Live ks b ∧ keyOf ks b = key ∧
      s.getLoop key (bitLen key) k ⟨-1, -1, rootLink, rootLink, 0⟩ = some (.found b)) ∨
    key ∉ ks ∧ s.getLoop key (bitLen key) k ⟨-1, -1, rootLink, rootLink, 0⟩ =
      some (.stop y p) := by
    cases hT : (walk nthBit key (bitLen key) rootLink 0 t).tree with
    | nil =>
        rw [hT] at hnew hrun
        exact .inr ⟨hnew (.inl fun heq => by cases heq), hrun⟩
    | leaf a =>
        rw [hT] at hrun
        exact hcompare hrun
    | node a c l r =>
        rw [hT] at hrun
        exact hcompare hrun
  rcases hends with hfound | ⟨hnone, hstop⟩
  · exact .inl hfound
  · exact .inr ⟨hnone, y, p, hcame, hstop, hlive, hp⟩

theorem Holds.link_eq_zero (h : Holds s ks t) : s.link rootLink = 0 ↔ t = nil := by
  have hrep := h.rep
  cases t with
  | nil => exact ⟨fun _ => rfl, fun _ => hrep⟩
  | leaf a => exact ⟨fun hz => absurd (hrep.1.symm.trans hz) hrep.2.1, fun ht => by cases ht⟩
  | node a c l r =>
      exact ⟨fun hz => absurd (hrep.1.symm.trans hz) hrep.2.1, fun ht => by cases ht⟩

/-- A key that is there keeps its number, and the table stays as it is. -/
theorem Holds.get_old (h : Holds s ks t) (ha : Live ks a) (hk : bitLen (keyOf ks a) < k) :
    s.senSymGet (keyOf ks a) k = some (a, s) := by
  have hkey := h.isKey _ ha.mem
  have hshort : ¬ senSymMaxKeyLength < (keyOf ks a).length * 8 := not_lt.mpr hkey.short
  have ht : t ≠ nil := by
    rintro rfl
    exact absurd ((h.leaves a).mpr ha) List.not_mem_nil
  have hlink : s.link (0, true) ≠ 0 := fun hz => ht (h.link_eq_zero.mp hz)
  unfold senSymGet senSymGetKey
  rw [hkey.sizeOf]
  dsimp only
  rw [List.take_length, if_neg hshort, if_neg hlink]
  rcases h.getLoop hkey ht hk with ⟨b, hb, hsame, hrun⟩ | ⟨hnew, -⟩
  · obtain rfl := hb.inj h.nodup ha hsame
    change Option.map _ (Option.bind (s.getLoop (keyOf ks b) (bitLen (keyOf ks b)) k
      ⟨-1, -1, rootLink, rootLink, 0⟩) _) = _
    rw [hrun]
    rfl
  · exact absurd ha.mem hnew

/-- **A new key** gets the next number. -/
theorem Holds.get_new (h : Holds s ks t) (hfits : Fits (ks ++ [key])) (hkey : IsKey s.keySize key)
    (hnew : key ∉ ks) (hk : bitLen key < k) :
    ∃ s' t', s.senSymGet key k = some (ks.length + 1, s') ∧ Holds s' (ks ++ [key]) t' ∧
      s'.keySize = s.keySize := by
  have hshort : ¬ senSymMaxKeyLength < key.length * 8 := not_lt.mpr hkey.short
  obtain ⟨l, s₁, hnode, hs₁, hsize, hnodes⟩ := h.getNode hfits hkey hnew
  have hokNew : t.Ok bitLen nthBit (keyOf (ks ++ [key])) 0 :=
    h.ok.congr fun x hx => keyOf_append ((h.leaves x).mp hx)
  have hplace : ∀ c q, c < bitLen key → Placed (keyOf (ks ++ [key])) t key c q →
      ∃ s' t', Option.map (fun r => (r.1, r.2.2.2))
          (if key.length * 8 ≤ c then some (0, false, 0, s)
          else (s.getNode key key.length 0).map fun r =>
            if r.1 = 0 then (0, false, r.2.1, r.2.2)
            else (r.1, true, r.2.1, r.2.2.getLink key r.1 c q)) = some (ks.length + 1, s') ∧
        Holds s' (ks ++ [key]) t' ∧ s'.keySize = s.keySize := by
    intro c q hc hplaced
    obtain ⟨t', ht'⟩ := h.placed hs₁ hnodes hplaced hc
    have hin : ¬ key.length * 8 ≤ c := not_le.mpr hc
    rw [if_neg hin, hnode]
    exact ⟨_, t', rfl, ht', hsize⟩
  unfold senSymGet senSymGetKey
  rw [hkey.sizeOf]
  dsimp only
  rw [List.take_length, if_neg hshort]
  by_cases ht : t = nil
  · have hlink : s.link (0, true) = 0 := h.link_eq_zero.mpr ht
    have hpos := hkey.length_pos
    rw [if_pos hlink]
    refine hplace (key.length * 8 - 1) rootLink (by unfold bitLen; omega) ?_
    subst ht
    exact .join rfl trivial trivial fun x hx => absurd hx List.not_mem_nil
  · have hlink : s.link (0, true) ≠ 0 := fun hz => ht (h.link_eq_zero.mp hz)
    rw [if_neg hlink]
    rcases h.getLoop hkey ht hk with ⟨b, hb, rfl, -⟩ | ⟨-, y, p, hcame, hrun, hlive, hp⟩
    · exact absurd hb.mem hnew
    · obtain ⟨c, hc, hdiff⟩ := (h.isKey _ hlive.mem).diffAt hkey
        (fun heq => hnew (heq ▸ hlive.mem)) hp
      rw [← keyOf_append hlive] at hdiff
      obtain ⟨m, q, hplaceRun, hm, hplaced⟩ := getPlace_spec hokNew h.rep
        (fun a ha => h.patAt (h.live ha).le) ht rfl hcame hdiff hk
      change ∃ s' t', Option.map _ (Option.bind (s.getLoop key (bitLen key) k
        ⟨-1, -1, rootLink, rootLink, 0⟩) _) = _ ∧ _
      rw [hrun]
      dsimp only [Option.bind_some]
      rw [hc]
      dsimp only [Option.bind_some]
      change ∃ s' t', Option.map _ (Option.bind (s.getPlace key (bitLen key) k y c) _) = _ ∧ _
      rw [hplaceRun]
      exact hplace m q hm hplaced

/-- What `sen_sym_at` finds at the end of the way of a key. -/
def SenSym.atEnd (s : SenSym) (key : List UInt8) (len : Nat) : BitTree Nat → Nat
  | .leaf a =>
      if len ≤ (s.nodes a).check then 0
      else (s.patNodeGetKey (s.nodes a)).elim 0 fun p => if p.read 0 (len / 8) = key then a else 0
  | _ => 0

/-- The loop of `sen_sym_at` goes the way of the key. -/
theorem atLoop_walk {K : Nat → List UInt8} {len n : Nat} {x : Int} (hok : t.Ok bitLen nthBit K n)
    (hrep : s.links.Rep n (s.link p) t)
    (hat : ∀ a ∈ t.inners ++ t.leaves, s.patAt a = some (s.nodes a)) (hx : x + 1 = n)
    (hk : len - n < k) :
    s.atLoop key len k x (s.link p) =
      some (s.atEnd key len (walk nthBit key len p n t).tree) := by
  induction t generalizing n k x p with
  | nil =>
      obtain ⟨k, rfl⟩ := Nat.exists_eq_add_one_of_ne_zero (Nat.ne_zero_of_lt hk)
      have hnil : s.link p = 0 := hrep
      rw [atLoop, if_pos hnil]
      rfl
  | leaf a =>
      obtain ⟨k, rfl⟩ := Nat.exists_eq_add_one_of_ne_zero (Nat.ne_zero_of_lt hk)
      have hlink : s.link p = a := hrep.1
      have hcheck : (s.nodes a).check < n := hrep.2.2
      rw [atLoop, hlink, if_neg hrep.2.1, hat a (List.mem_append_right _ List.mem_cons_self)]
      dsimp only
      rw [BitTree.walk_leaf, atEnd]
      split_ifs
      · rfl
      · rfl
      · omega
  | node a d l r ihl ihr =>
      obtain ⟨k, rfl⟩ := Nat.exists_eq_add_one_of_ne_zero (Nat.ne_zero_of_lt hk)
      have hlink : s.link p = a := hrep.1
      have hcheck : (s.nodes a).check = d := hrep.2.2.1
      have hn : n ≤ d := hrep.2.2.2.1
      rw [atLoop, hlink, if_neg hrep.2.1, hat a List.mem_cons_self]
      dsimp only
      rw [hcheck]
      by_cases hd : d < len
      · have hokC := hok.child (nthBit key d)
        have hchild := hrep.child (nthBit key d)
        have hatC : ∀ b ∈ (child l r (nthBit key d)).inners ++
            (child l r (nthBit key d)).leaves, s.patAt b = some (s.nodes b) :=
          fun b hb => hat b (mem_child hb a d)
        rw [if_neg (not_le.mpr hd), if_neg (by omega), walk_node p n l r hd]
        cases hbit : nthBit key d <;> rw [hbit] at hokC hchild hatC
        · exact ihl hokC hchild hatC rfl (by omega)
        · exact ihr hokC hchild hatC rfl (by omega)
      · rw [if_pos (not_lt.mp hd), walk_stop p n l r hd]
        rfl

theorem Holds.at_end (h : Holds s ks t) (hkey : IsKey s.keySize key) (hk : bitLen key < k) :
    s.senSymAt key k =
      some (s.atEnd key (bitLen key) (walk nthBit key (bitLen key) rootLink 0 t).tree) := by
  unfold senSymAt
  rw [hkey.sizeOf, List.take_length]
  exact atLoop_walk (p := rootLink) h.ok h.rep (fun a ha => h.patAt (h.live ha).le) rfl hk

/-- `sen_sym_at` finds a key that is there. -/
theorem Holds.at_old (h : Holds s ks t) (ha : Live ks a) (hk : bitLen (keyOf ks a) < k) :
    s.senSymAt (keyOf ks a) k = some a := by
  have hkey := h.isKey _ ha.mem
  obtain ⟨p, hget, hp⟩ := h.getKey ha
  rw [h.at_end hkey hk, h.walk_leaf ha, atEnd, if_neg (not_le.mpr (h.inside a ha)), hget,
    Option.elim_some, bitLen, Nat.mul_div_cancel _ (by decide), if_pos hp]

/-- `sen_sym_at` does not find other keys. -/
theorem Holds.at_new (h : Holds s ks t) (hkey : IsKey s.keySize key) (hnew : key ∉ ks)
    (hk : bitLen key < k) : s.senSymAt key k = some 0 := by
  refine (h.at_end hkey hk).trans (congrArg some ?_)
  cases hT : (walk nthBit key (bitLen key) rootLink 0 t).tree with
  | nil => rfl
  | node a c l r => rfl
  | leaf a =>
      have ha : Live ks a := by
        refine h.live_walk key (bitLen key) (List.mem_append_right _ ?_)
        rw [hT]
        exact List.mem_cons_self
      obtain ⟨p, hget, hp⟩ := h.getKey ha
      rw [atEnd, hget, Option.elim_some, bitLen, Nat.mul_div_cancel _ (by decide)]
      split_ifs with hlen hread
      · rfl
      · exact absurd ((h.isKey _ ha.mem).eq_of_read hkey hp hread ▸ ha.mem) hnew
      · rfl

end

end Senna.Sym
