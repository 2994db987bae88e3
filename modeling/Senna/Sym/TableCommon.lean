/-
# The longest key at the beginning of a text

`sen_sym_common_prefix_search` goes the way of the text. Where it turns to the right for the first
time in a byte, it looks on the left for a key that ends there, and the last key found in this way
is the longest one, unless the way ends at a key which the text begins with.
-/

import Senna.Sym.TablePrefix

namespace Senna.Sym

open Senna.Lib Senna.Lib.BitTree SenSym

namespace SenSym

variable (s : SenSym)

/-- The loop to the left, for a key that ends at the byte `n`: the number found, or `r2`. -/
def leftLoop (key : List UInt8) (n len2 r2 : Nat) : Nat → Nat → Nat → Option Nat
  | 0, _, _ => none
  | k + 1, cl, rl =>
      if rl = 0 then some r2
      else
        match s.patAt rl with
        | none => some r2
        | some rnl =>
            if len2 ≤ rnl.check then some r2
            else if rnl.check ≤ cl then
              match s.patNodeGetKey rnl with
              | none => some r2
              | some p => some (if p n = 0 ∧ p.read 0 n = key.take n then rl else r2)
            else leftLoop key n len2 r2 k rnl.check (s.link (rl, false))

/-- The loop of `sen_sym_common_prefix_search`. -/
def commonLoop (key : List UInt8) : Nat → Int → Nat → Nat → Nat → Nat → Option Nat
  | 0, _, _, _, _, _ => none
  | k + 1, c, len, len2, r, r2 =>
      if r = 0 then some r2
      else
        match s.patAt r with
        | none => some r2
        | some rn =>
            if rn.check ≤ c then
              match s.patNodeGetKey rn with
              | none => some r2
              | some p => (strlen p k 0).map fun l => if p.read 0 l = key.take l then r else r2
            else
              let n := rn.check / 8
              if (List.range' len (n - len)).any fun i => key.getD i 0 = 0 then some r2
              else if nthBit key rn.check then
                if len2 ≤ rn.check then
                  (s.leftLoop key n ((n + 1) * 8) r2 k rn.check (s.link (r, false))).bind fun r2 =>
                    commonLoop key k rn.check (max len n) ((n + 1) * 8) (s.link (r, true)) r2
                else commonLoop key k rn.check (max len n) len2 (s.link (r, true)) r2
              else commonLoop key k rn.check (max len n) len2 (s.link (r, false)) r2

/-- `sen_sym_common_prefix_search` -/
def senSymCommonPrefixSearch (key : List UInt8) (k : Nat) : Option Nat :=
  if s.keySize ≠ 0 then some 0 else s.commonLoop key k (-1) 0 8 (s.link rootLink) 0

end SenSym

section

variable {s : SenSym} {ks : List (List UInt8)} {t l r : BitTree Nat} {w key : List UInt8}
  {c n len len2 k a b v r2 : Nat} {x : Int} {p : Nat × Bool}

/-- What the loop to the left finds at its end. -/
def SenSym.leftEnd (s : SenSym) (key : List UInt8) (n r2 : Nat) : BitTree Nat → Nat
  | .leaf a => (s.patNodeGetKey (s.nodes a)).elim r2 fun p =>
      if p n = 0 ∧ p.read 0 n = key.take n then a else r2
  | _ => r2

/-- The loop to the left goes the way of the key that ends at the byte. -/
theorem leftLoop_walk {z : List UInt8} (hrep : s.links.Rep (c + 1) (s.link p) t)
    (hat : ∀ a ∈ t.inners ++ t.leaves, s.patAt a = some (s.nodes a)) (hc : n * 8 ≤ c)
    (hc2 : c < (n + 1) * 8) (hz : ∀ d, n * 8 ≤ d → d < (n + 1) * 8 → nthBit z d = false)
    (hk : (n + 1) * 8 - c ≤ k) :
    s.leftLoop key n ((n + 1) * 8) r2 k c (s.link p) =
      some (s.leftEnd key n r2 (walk nthBit z ((n + 1) * 8) p (c + 1) t).tree) := by
  induction t generalizing c k p with
  | nil =>
      obtain ⟨k, rfl⟩ := Nat.exists_eq_add_one_of_ne_zero (by omega : k ≠ 0)
      have hnil : s.link p = 0 := hrep
      rw [leftLoop, if_pos hnil]
      rfl
  | leaf a =>
      obtain ⟨k, rfl⟩ := Nat.exists_eq_add_one_of_ne_zero (by omega : k ≠ 0)
      have hlink : s.link p = a := hrep.1
      have hcheck : (s.nodes a).check < c + 1 := hrep.2.2
      rw [leftLoop, hlink, if_neg hrep.2.1, hat a List.mem_cons_self]
      dsimp only
      rw [if_neg (by omega), if_pos (by omega), walk_leaf, leftEnd]
      cases s.patNodeGetKey (s.nodes a) <;> rfl
  | node a d l r ihl ihr =>
      obtain ⟨k, rfl⟩ := Nat.exists_eq_add_one_of_ne_zero (by omega : k ≠ 0)
      have hlink : s.link p = a := hrep.1
      have hcheck : (s.nodes a).check = d := hrep.2.2.1
      have hd : c + 1 ≤ d := hrep.2.2.2.1
      rw [leftLoop, hlink, if_neg hrep.2.1, hat a List.mem_cons_self]
      dsimp only
      rw [hcheck]
      by_cases hlen : d < (n + 1) * 8
      · have hbit : nthBit z d = false := hz d (by omega) hlen
        rw [if_neg (not_le.mpr hlen), if_neg (by omega), walk_node p (c + 1) l r hlen, hbit]
        exact ihl (hrep.child false) (fun b hb => hat b (mem_child (b := false) hb a d))
          (by omega) hlen (by omega)
      · rw [if_pos (not_lt.mp hlen), walk_stop p (c + 1) l r hlen]
        rfl

theorem nthBit_zero {d : Nat} (h : key.getD (d / 8) 0 = 0) : nthBit key d = false := by
  have hall : ∀ j < 8, byteBit 0 j = false := by decide
  rw [nthBit_eq, h]
  exact hall _ (Nat.mod_lt d (by decide))

/-- **The loop to the left** finds the key with the first `n` bytes of the text, if it is there. -/
theorem leftLoop_spec (p : Nat × Bool) (r2 k : Nat) (hok : t.Ok bitLen nthBit (keyOf ks) (c + 1))
    (hrep : s.links.Rep (c + 1) (s.link p) t) (h : Stored s ks) (hsize : s.keySize = 0)
    (hlive : ∀ a ∈ t.inners ++ t.leaves, Live ks a)
    (hlong : ∀ a ∈ t.leaves, c < bitLen (keyOf ks a)) (hw : (0 : UInt8) ∉ w) (hn : n ≤ w.length)
    (hc : n * 8 ≤ c) (hc2 : c < (n + 1) * 8) (hk : (n + 1) * 8 - c ≤ k) :
    ∃ r, s.leftLoop (w ++ [0]) n ((n + 1) * 8) r2 k c (s.link p) = some r ∧
      ((r ∈ t.leaves ∧ keyOf ks r = w.take n ++ [0]) ∨
        (r = r2 ∧ ∀ b ∈ t.leaves, keyOf ks b ≠ w.take n ++ [0])) := by
  have hlen : (w.take n).length = n := by rw [List.length_take, Nat.min_eq_left hn]
  have hbits : bitLen (w.take n ++ [0]) = (n + 1) * 8 := by
    rw [bitLen, List.length_append, hlen, List.length_singleton]
  have hleft : ∀ d, n * 8 ≤ d → d < (n + 1) * 8 → nthBit (w.take n ++ [0]) d = false := by
    intro d hd hd2
    refine nthBit_zero ?_
    rw [show d / 8 = n by omega, List.getD_append_right _ [0] 0 _ hlen.le, hlen, Nat.sub_self]
    rfl
  refine ⟨_, leftLoop_walk hrep (fun a ha => h.patAt (hlive a ha).le) hc hc2 hleft hk, ?_⟩
  have hwalk : ∀ b ∈ t.leaves, keyOf ks b = w.take n ++ [0] →
      b ∈ (walk nthBit (w.take n ++ [0]) ((n + 1) * 8) p (c + 1) t).tree.leaves :=
    fun b hb heq => mem_walk hok hb (heq ▸ fun _ _ => rfl)
  cases htree : (walk nthBit (w.take n ++ [0]) ((n + 1) * 8) p (c + 1) t).tree with
  | nil =>
      refine .inr ⟨rfl, fun b hb heq => ?_⟩
      have hmem := hwalk b hb heq
      rw [htree] at hmem
      exact absurd hmem List.not_mem_nil
  | node a d l r =>
      refine .inr ⟨rfl, fun b hb heq => ?_⟩
      have hmem := hwalk b hb heq
      have hokW : (walk nthBit (w.take n ++ [0]) ((n + 1) * 8) p (c + 1) t).tree.Ok bitLen nthBit
        (keyOf ks) _ := hok.walk.1
      have hle := le_of_walk htree
      rw [htree] at hmem hokW
      obtain ⟨_, hside, -⟩ := hokW.side hmem
      have hlt := hside.long
      rw [heq, hbits] at hlt
      exact absurd hlt (not_lt.mpr hle)
  | leaf a =>
      have ha : a ∈ t.leaves := by
        have hsub : ∀ x ∈ (walk nthBit (w.take n ++ [0]) ((n + 1) * 8) p (c + 1) t).tree.leaves,
          x ∈ t.leaves := hok.walk.2.2
        rw [htree] at hsub
        exact hsub a List.mem_cons_self
      have haLive := hlive a (List.mem_append_right _ ha)
      have hkeyA : IsKey 0 (keyOf ks a) := hsize ▸ h.isKey _ haLive.mem
      obtain ⟨b, hget, hb⟩ := h.getKey haLive
      have hz : IsKey 0 (w.take n ++ [0]) := by
        refine isKey_string (fun hmem => hw (List.mem_of_mem_take hmem)) ?_
        have hshort := hkeyA.short
        have hlongA := hlong a ha
        unfold bitLen at hlongA
        rw [List.length_append, hlen, List.length_singleton]
        omega
      have hread : b.read 0 (n + 1) = b.read 0 n ++ [b n] := by
        rw [Memory.read_add, Nat.zero_add]
        rfl
      have hiff : (b n = 0 ∧ b.read 0 n = (w ++ [0]).take n) ↔ keyOf ks a = w.take n ++ [0] := by
        rw [List.take_append_of_le_length hn]
        constructor
        · rintro ⟨hzero, htake⟩
          refine hkeyA.eq_of_read hz hb ?_
          rw [List.length_append, hlen, List.length_singleton, hread, hzero, htake]
        · intro heq
          rw [heq, List.length_append, hlen, List.length_singleton, hread] at hb
          obtain ⟨htake, hlast⟩ := List.append_inj hb (by rw [Memory.length_read, hlen])
          exact ⟨(List.cons.inj hlast).1, htake⟩
      rw [leftEnd, hget, Option.elim_some]
      by_cases heq : keyOf ks a = w.take n ++ [0]
      · rw [if_pos (hiff.mpr heq)]
        exact .inl ⟨ha, heq⟩
      · rw [if_neg fun hcond => heq (hiff.mp hcond)]
        refine .inr ⟨rfl, fun x hx hxeq => heq ?_⟩
        have hmem := hwalk x hx hxeq
        rw [htree] at hmem
        rw [← List.mem_singleton.mp hmem]
        exact hxeq

/-- The text begins with the key of a number. -/
def Begins (ks : List (List UInt8)) (w : List UInt8) (a : Nat) : Prop :=
  (keyOf ks a).dropLast <+: w

/-- Of the numbers with `P`, `r` is that of the longest key that the text begins with; 0 if there is
none. -/
def Longest (ks : List (List UInt8)) (w : List UInt8) (P : Nat → Prop) (r : Nat) : Prop :=
  (r = 0 ∧ ∀ a, Live ks a → P a → ¬ Begins ks w a) ∨
    (Live ks r ∧ P r ∧ Begins ks w r ∧
      ∀ a, Live ks a → P a → Begins ks w a → (keyOf ks a).length ≤ (keyOf ks r).length)

theorem Longest.mono {P Q : Nat → Prop} {r : Nat} (h : Longest ks w P r) (hPQ : ∀ a, P a → Q a)
    (hQP : ∀ a, Live ks a → Begins ks w a → Q a → P a) : Longest ks w Q r := by
  rcases h with ⟨hzero, hnone⟩ | ⟨hlive, hP, hbegins, hall⟩
  · exact .inl ⟨hzero, fun a ha hQ hb => hnone a ha (hQP a ha hb hQ) hb⟩
  · exact .inr ⟨hlive, hPQ r hP, hbegins, fun a ha hQ hb => hall a ha (hQP a ha hb hQ) hb⟩

/-- A bit of a key that the text begins with is one of the text, or of the terminator. -/
theorem Begins.bit (hkey : IsKey 0 (keyOf ks b)) (h : Begins ks w b)
    (hc : c < bitLen (keyOf ks b)) :
    c / 8 + 1 < (keyOf ks b).length ∧ nthBit (keyOf ks b) c = nthBit (w ++ [0]) c ∨
      c / 8 + 1 = (keyOf ks b).length ∧ nthBit (keyOf ks b) c = false := by
  obtain ⟨u, -, heq⟩ := hkey.size
  unfold Begins at h
  rw [heq] at h hc ⊢
  rw [List.dropLast_concat] at h
  obtain ⟨v, rfl⟩ := h
  unfold bitLen at hc
  rw [List.length_append, List.length_singleton] at hc ⊢
  rcases Nat.lt_or_eq_of_le (show c / 8 ≤ u.length by omega) with hlt | hlast
  · refine .inl ⟨by omega, ?_⟩
    rw [nthBit_eq, nthBit_eq, List.getD_append u [0] 0 _ hlt, List.append_assoc,
      List.getD_append u _ 0 _ hlt]
  · refine .inr ⟨by omega, nthBit_zero ?_⟩
    rw [List.getD_append_right u [0] 0 _ hlast.ge, hlast, Nat.sub_self]
    rfl

theorem Begins.eq_take (hkey : IsKey 0 (keyOf ks b)) (h : Begins ks w b)
    (hn : n + 1 = (keyOf ks b).length) : keyOf ks b = w.take n ++ [0] := by
  obtain ⟨u, -, heq⟩ := hkey.size
  unfold Begins at h
  rw [heq, List.dropLast_concat] at h
  rw [heq, List.length_append, List.length_singleton] at hn
  rw [heq, Nat.succ_inj.mp hn, ← List.prefix_iff_eq_take.mp h]

/-- The loop goes on as long as the text does. -/
theorem any_zero_iff (hw : (0 : UInt8) ∉ w) (hlen : len ≤ w.length) :
    ((List.range' len (n - len)).any fun i => (w ++ [0]).getD i 0 = 0) = true ↔
      w.length < n := by
  rw [List.any_eq_true]
  constructor
  · rintro ⟨i, hi, hzero⟩
    obtain ⟨hlow, hhigh⟩ := List.mem_range'_1.mp hi
    by_contra hle
    have hlt : i < w.length := by omega
    have hzero := of_decide_eq_true hzero
    rw [List.getD_append w [0] 0 _ hlt, List.getD_eq_getElem w 0 hlt] at hzero
    exact hw (hzero ▸ List.getElem_mem hlt)
  · intro hlt
    refine ⟨w.length, List.mem_range'_1.mpr ⟨hlen, by omega⟩, decide_eq_true ?_⟩
    rw [List.getD_append_right w [0] 0 _ le_rfl, Nat.sub_self]
    rfl

/-- What the loop has found in front of a tree: `r2` is that of the longest key outside of the tree,
and those inside are longer, by a byte at least than `len2` bits. -/
structure Sought (ks : List (List UInt8)) (w : List UInt8) (t : BitTree Nat) (len2 r2 : Nat) :
    Prop where
  best : Longest ks w (· ∉ t.leaves) r2
  short : ∀ a b, Live ks a → a ∉ t.leaves → Begins ks w a → b ∈ t.leaves → Begins ks w b →
    (keyOf ks a).length < (keyOf ks b).length
  long : ∀ b ∈ t.leaves, Begins ks w b → len2 + 8 ≤ bitLen (keyOf ks b)

/-- There is nothing to be found in the tree. -/
theorem Sought.done (hs : Sought ks w t len2 r2)
    (hnone : ∀ b ∈ t.leaves, Live ks b → ¬ Begins ks w b) :
    Longest ks w (fun _ => True) r2 :=
  hs.best.mono (fun _ _ => trivial) fun b hb hbegins _ hmem => hnone b hmem hb hbegins

/-- The text begins with the key of the leaf. -/
theorem Sought.leaf (hs : Sought ks w (leaf a) len2 r2) (ha : Live ks a)
    (hbegins : Begins ks w a) : Longest ks w (fun _ => True) a := by
  refine .inr ⟨ha, trivial, hbegins, fun x hx _ hxb => ?_⟩
  by_cases hxa : x = a
  · rw [hxa]
  · exact (hs.short x a hx (fun hmem => hxa (List.mem_singleton.mp hmem)) hxb
      List.mem_cons_self hbegins).le

/-- The loop goes to a side, and the text begins with no key on the other one. -/
theorem Sought.onto (hs : Sought ks w (node a c l r) len2 r2) (bit : Bool)
    (hnone : ∀ b ∈ (child l r (! bit)).leaves, ¬ Begins ks w b) :
    Sought ks w (child l r bit) len2 r2 := by
  have hout : ∀ b, Begins ks w b → b ∉ (child l r bit).leaves →
      b ∉ (node a c l r).leaves := by
    intro b hbegins hnot hmem
    cases bit
    · exact (List.mem_append.mp hmem).elim hnot fun hr => hnone b hr hbegins
    · exact (List.mem_append.mp hmem).elim (fun hl => hnone b hl hbegins) hnot
  refine ⟨hs.best.mono (fun b hnot hb => hnot (leaves_child hb a c))
    fun b _ hbegins hnot => hout b hbegins hnot, ?_, ?_⟩
  · exact fun x y hx hnot hxb hy hyb =>
      hs.short x y hx (hout x hxb hnot) hxb (leaves_child hy a c) hyb
  · exact fun b hb hbegins => hs.long b (leaves_child hb a c) hbegins

/-- The loop goes to the right, and has looked on the left for the key with `n` bytes of the text
before. -/
theorem Sought.turn {r' : Nat} (hs : Sought ks w (node a c l r) len2 r2)
    (hapart : ∀ b ∈ l.leaves, b ∉ r.leaves) (hlive : ∀ b ∈ l.leaves, Live ks b)
    (hkeys : ∀ b, Live ks b → IsKey 0 (keyOf ks b))
    (hleft : ∀ b ∈ l.leaves, Begins ks w b → n + 1 = (keyOf ks b).length)
    (hright : ∀ b ∈ r.leaves, Begins ks w b → n + 1 < (keyOf ks b).length)
    (hfound : (r' ∈ l.leaves ∧ keyOf ks r' = w.take n ++ [0]) ∨
      (r' = r2 ∧ ∀ b ∈ l.leaves, keyOf ks b ≠ w.take n ++ [0])) :
    Sought ks w r ((n + 1) * 8) r' := by
  have hout : ∀ x, x ∉ l.leaves → x ∉ r.leaves → x ∉ (node a c l r).leaves :=
    fun x hl hr hmem => (List.mem_append.mp hmem).elim hl hr
  refine ⟨?_, fun x y hx hnot hxb hy hyb => ?_, fun b hb hbegins => ?_⟩
  · rcases hfound with ⟨hmem, heq⟩ | ⟨rfl, hnone⟩
    · have hbegins : Begins ks w r' := by
        rw [Begins, heq, List.dropLast_concat]
        exact List.take_prefix _ w
      refine .inr ⟨hlive r' hmem, hapart r' hmem, hbegins, fun b hb hnot hbb => ?_⟩
      by_cases hbl : b ∈ l.leaves
      · rw [← hleft b hbl hbb, ← hleft r' hmem hbegins]
      · exact (hs.short b r' hb (hout b hbl hnot) hbb (List.mem_append_left _ hmem) hbegins).le
    · refine hs.best.mono (fun b hnot hb => hnot (List.mem_append_right _ hb))
        fun b hb hbb hnot hmem => ?_
      rcases List.mem_append.mp hmem with hbl | hbr
      · exact hnone b hbl (hbb.eq_take (hkeys b hb) (hleft b hbl hbb))
      · exact hnot hbr
  · by_cases hxl : x ∈ l.leaves
    · have hends := hleft x hxl hxb
      have hlong := hright y hy hyb
      omega
    · exact hs.short x y hx (hout x hxl hnot) hxb (List.mem_append_right _ hy) hyb
  · have hlong := hright b hb hbegins
    unfold bitLen
    omega

/-- At a leaf, the loop compares the key. -/
theorem commonLoop_leaf (h : Stored s ks) (hsize : s.keySize = 0) (ha : Live ks a)
    (hrep : s.links.Rep n (s.link p) (leaf a)) (hx : x + 1 = n) (hk : senSymMaxKeyLength ≤ k) :
    ∃ r, s.commonLoop (w ++ [0]) (k + 1) x len len2 (s.link p) r2 = some r ∧
      (Begins ks w a ∧ r = a ∨ ¬ Begins ks w a ∧ r = r2) := by
  have hlink : s.link p = a := hrep.1
  have hcheck : (s.nodes a).check < n := hrep.2.2
  have hkey : IsKey 0 (keyOf ks a) := hsize ▸ h.isKey _ ha.mem
  obtain ⟨b, hget, hb⟩ := h.getKey ha
  obtain ⟨u, hu, heq⟩ := hkey.size
  have hstrlen : strlen b k 0 = some u.length := by
    have hsmall := hkey.short
    rw [heq, List.length_append, List.length_singleton] at hsmall
    rw [heq] at hb
    rw [strlen_eq hu hb (by omega), Nat.zero_add]
  have hread : b.read 0 u.length = u := by
    rw [heq, List.length_append, Memory.read_add] at hb
    exact (List.append_inj hb (Memory.length_read _ _ _)).1
  have hiff : b.read 0 u.length = (w ++ [0]).take u.length ↔ Begins ks w a := by
    unfold Begins
    rw [hread, heq, List.dropLast_concat, ← List.prefix_iff_eq_take, List.prefix_concat_iff]
    refine or_iff_right fun hfull => hu ?_
    rw [hfull]
    exact List.mem_append_right w List.mem_cons_self
  rw [commonLoop, hlink, if_neg hrep.2.1, h.patAt ha.le]
  dsimp only
  rw [if_pos (by omega), hget]
  dsimp only
  rw [hstrlen, Option.map_some]
  refine ⟨_, rfl, ?_⟩
  by_cases hbegins : Begins ks w a
  · exact .inl ⟨hbegins, if_pos (hiff.mpr hbegins)⟩
  · exact .inr ⟨hbegins, if_neg fun hcond => hbegins (hiff.mp hcond)⟩

/-- **The loop of `sen_sym_common_prefix_search`** finds the longest key that the text begins
with. -/
theorem commonLoop_spec (h : Stored s ks) (hsize : s.keySize = 0) (hw : (0 : UInt8) ∉ w)
    (hok : t.Ok bitLen nthBit (keyOf ks) n) (hrep : s.links.Rep n (s.link p) t)
    (hlive : ∀ a ∈ t.inners ++ t.leaves, Live ks a)
    (hbound : ∀ a ∈ t.inners, (s.nodes a).check < senSymMaxKeyLength) (hx : x + 1 = n)
    (hlen : len ≤ w.length) (hs : Sought ks w t len2 r2)
    (hk : senSymMaxKeyLength - n + senSymMaxKeyLength < k) :
    ∃ r, s.commonLoop (w ++ [0]) k x len len2 (s.link p) r2 = some r ∧
      Longest ks w (fun _ => True) r := by
  have hkeys : ∀ b, Live ks b → IsKey 0 (keyOf ks b) := fun b hb => hsize ▸ h.isKey _ hb.mem
  induction t generalizing n k x p len len2 r2 with
  | nil =>
      obtain ⟨k, rfl⟩ := Nat.exists_eq_add_one_of_ne_zero (Nat.ne_zero_of_lt hk)
      have hnil : s.link p = 0 := hrep
      exact ⟨r2, by rw [commonLoop, if_pos hnil], hs.done fun b hb => absurd hb List.not_mem_nil⟩
  | leaf a =>
      obtain ⟨k, rfl⟩ := Nat.exists_eq_add_one_of_ne_zero (Nat.ne_zero_of_lt hk)
      have ha : Live ks a := hlive a List.mem_cons_self
      have hfuel : senSymMaxKeyLength ≤ k := by omega
      obtain ⟨r, hrun, hr⟩ := commonLoop_leaf h hsize ha hrep hx hfuel
      refine ⟨r, hrun, ?_⟩
      rcases hr with ⟨hbegins, rfl⟩ | ⟨hnot, rfl⟩
      · exact hs.leaf ha hbegins
      · exact hs.done fun b hb _ => (List.mem_singleton.mp hb).symm ▸ hnot
  | node a c l r ihl ihr =>
      obtain ⟨k, rfl⟩ := Nat.exists_eq_add_one_of_ne_zero (Nat.ne_zero_of_lt hk)
      have hlink : s.link p = a := hrep.1
      have hcheck : (s.nodes a).check = c := hrep.2.2.1
      have hn : n ≤ c := hrep.2.2.2.1
      have hc := hcheck ▸ hbound a List.mem_cons_self
      have hbits : ∀ b ∈ (node a c l r).leaves, Begins ks w b →
          c / 8 + 1 < (keyOf ks b).length ∧ nthBit (keyOf ks b) c = nthBit (w ++ [0]) c ∨
            c / 8 + 1 = (keyOf ks b).length ∧ nthBit (keyOf ks b) c = false := by
        intro b hb hbegins
        obtain ⟨_, hside, -⟩ := hok.side hb
        exact hbegins.bit (hkeys b (hlive b (List.mem_append_right _ hb))) hside.long
      rw [commonLoop, hlink, if_neg hrep.2.1, h.patAt (hlive a List.mem_cons_self).le]
      dsimp only
      rw [hcheck, if_neg (by omega)]
      by_cases hend : w.length < c / 8
      · -- the text ends here, and no key below does
        rw [if_pos ((any_zero_iff hw hlen).mpr hend)]
        refine ⟨r2, rfl, hs.done fun b hb hlv hbegins => ?_⟩
        obtain ⟨u, -, heq⟩ := (hkeys b hlv).size
        have hle : c / 8 + 1 ≤ (keyOf ks b).length :=
          (hbits b hb hbegins).elim (fun hlt => hlt.1.le) fun heq => heq.1.le
        unfold Begins at hbegins
        have hshorter := hbegins.length_le
        rw [heq, List.length_append, List.length_singleton] at hle
        rw [heq, List.dropLast_concat] at hshorter
        omega
      · rw [if_neg fun hzero => hend ((any_zero_iff hw hlen).mp hzero)]
        have hrec : ∀ bit r2' len2', Sought ks w (child l r bit) len2' r2' →
            ∃ r, s.commonLoop (w ++ [0]) k c (max len (c / 8)) len2' (s.link (a, bit)) r2' =
              some r ∧ Longest ks w (fun _ => True) r := by
          intro bit r2' len2' hs'
          have hliveC : ∀ b ∈ (child l r bit).inners ++ (child l r bit).leaves, Live ks b :=
            fun b hb => hlive b (mem_child hb a c)
          have hboundC : ∀ b ∈ (child l r bit).inners, (s.nodes b).check < senSymMaxKeyLength :=
            fun b hb => hbound b (inners_child hb a c)
          have hlen' : max len (c / 8) ≤ w.length := max_le hlen (not_lt.mp hend)
          cases bit
          · exact ihl (hok.child false) (hrep.child false) hliveC hboundC rfl hlen' hs' (by omega)
          · exact ihr (hok.child true) (hrep.child true) hliveC hboundC rfl hlen' hs' (by omega)
        -- on the left of a turn to the right, only a key that ends in this byte is
        have hleft : nthBit (w ++ [0]) c = true → ∀ b ∈ l.leaves, Begins ks w b →
            c / 8 + 1 = (keyOf ks b).length := by
          intro htrue b hb hbegins
          rcases hbits b (List.mem_append_left _ hb) hbegins with ⟨-, hsame⟩ | ⟨hends, -⟩
          · have hfalse := (hok.2.2.1 b hb).side
            rw [hsame, htrue] at hfalse
            exact absurd hfalse (by decide)
          · exact hends
        have hright : ∀ b ∈ r.leaves, Begins ks w b →
            c / 8 + 1 < (keyOf ks b).length ∧ nthBit (w ++ [0]) c = true := by
          intro b hb hbegins
          have htrue := (hok.2.2.2.1 b hb).side
          rcases hbits b (List.mem_append_right _ hb) hbegins with ⟨hlt, hsame⟩ | ⟨-, hfalse⟩
          · exact ⟨hlt, hsame.symm.trans htrue⟩
          · exact absurd (hfalse.symm.trans htrue) (by decide)
        by_cases hbit : nthBit (w ++ [0]) c = true
        · rw [if_pos hbit]
          by_cases hfirst : len2 ≤ c
          · rw [if_pos hfirst]
            have hdivided : c / 8 * 8 ≤ c := Nat.div_mul_le_self c 8
            have hbelow : c < (c / 8 + 1) * 8 := by omega
            have height : 8 ≤ senSymMaxKeyLength := by decide
            obtain ⟨r', hrun, hfound⟩ := leftLoop_spec (a, false) r2 k
              (hok.child false) (hrep.child false) h hsize
              (fun b hb => hlive b (mem_child (b := false) hb a c))
              (fun b hb => (hok.2.2.1 b hb).long) hw (not_lt.mp hend) hdivided hbelow (by omega)
            rw [hrun, Option.bind_some]
            have hapart : ∀ b ∈ l.leaves, b ∉ r.leaves := fun b hl hr =>
              absurd ((hok.2.2.1 b hl).side.symm.trans (hok.2.2.2.1 b hr).side) (by decide)
            exact hrec true r' ((c / 8 + 1) * 8) (hs.turn hapart
              (fun b hb => hlive b (List.mem_append_right _ (List.mem_append_left _ hb)))
              hkeys (hleft hbit) (fun b hb hbegins => (hright b hb hbegins).1) hfound)
          · rw [if_neg hfirst]
            refine hrec true r2 len2 (hs.onto true fun b hb hbegins => ?_)
            have hends := hleft hbit b hb hbegins
            have hlong := hs.long b (List.mem_append_left _ hb) hbegins
            unfold bitLen at hlong
            omega
        · rw [if_neg hbit]
          exact hrec false r2 len2 (hs.onto false fun b hb hbegins =>
            hbit (hright b hb hbegins).2)

/-- The longest of the keys that the text begins with. -/
structure LongestKey (ks : List (List UInt8)) (w u : List UInt8) : Prop where
  mem : u ++ [0] ∈ ks
  begins : u <+: w
  longest : ∀ v, v ++ [0] ∈ ks → v <+: w → v.length ≤ u.length

/-- `sen_sym_common_prefix_search` finds the longest key that the text begins with. -/
theorem Holds.common_prefix_search (h : Holds s ks t) (hsize : s.keySize = 0)
    (hne : [0] ∉ ks) (hw : (0 : UInt8) ∉ w) (hk : senSymMaxKeyLength + senSymMaxKeyLength < k) :
    ∃ r, s.senSymCommonPrefixSearch (w ++ [0]) k = some r ∧
      ((r = 0 ∧ ∀ u, u ++ [0] ∈ ks → ¬ u <+: w) ∨
        ∃ u, LongestKey ks w u ∧ r = number ks (u ++ [0])) := by
  have hbound : ∀ a ∈ t.inners, (s.nodes a).check < senSymMaxKeyLength := fun a ha =>
    lt_of_lt_of_le (h.inside a (h.inners a ha)) (h.isKey _ (h.inners a ha).mem).short
  have hall : ∀ a, Live ks a → a ∈ t.leaves := fun a ha => (h.leaves a).mpr ha
  have hlong : ∀ b ∈ t.leaves, Begins ks w b → 8 + 8 ≤ bitLen (keyOf ks b) := by
    intro b hb _
    have hlive := (h.leaves b).mp hb
    obtain ⟨u, -, heq⟩ := (hsize ▸ h.isKey _ hlive.mem : IsKey 0 (keyOf ks b)).size
    have hpos : u ≠ [] := by
      rintro rfl
      have hmem := hlive.mem
      rw [heq] at hmem
      exact hne hmem
    have hlength := List.length_pos_of_ne_nil hpos
    unfold bitLen
    rw [heq, List.length_append, List.length_singleton]
    omega
  have hbegins : ∀ v, v ++ [0] ∈ ks → v <+: w →
      ∃ a, Live ks a ∧ keyOf ks a = v ++ [0] ∧ Begins ks w a := by
    intro v hv hpre
    obtain ⟨a, ha, heq⟩ := exists_live hv
    refine ⟨a, ha, heq, ?_⟩
    rw [Begins, heq, List.dropLast_concat]
    exact hpre
  obtain ⟨r, hrun, hlongest⟩ := commonLoop_spec (p := rootLink) (x := -1) h.toStored hsize hw h.ok
    h.rep (fun a ha => h.live ha) hbound rfl (Nat.zero_le _)
    ⟨.inl ⟨rfl, fun a ha hnot _ => hnot (hall a ha)⟩,
      fun a b ha hnot _ _ _ => absurd (hall a ha) hnot, hlong⟩
    (by omega : senSymMaxKeyLength - 0 + senSymMaxKeyLength < k)
  refine ⟨r, ?_, ?_⟩
  · rw [senSymCommonPrefixSearch, if_neg (not_not_intro hsize)]
    exact hrun
  · rcases hlongest with ⟨hzero, hnone⟩ | ⟨hlive, -, hbeginsR, hmax⟩
    · refine .inl ⟨hzero, fun u hu hpre => ?_⟩
      obtain ⟨a, ha, -, hbeginsA⟩ := hbegins u hu hpre
      exact hnone a ha trivial hbeginsA
    · obtain ⟨u, -, heq⟩ := (hsize ▸ h.isKey _ hlive.mem : IsKey 0 _).size
      refine .inr ⟨u, ⟨heq ▸ hlive.mem, ?_, fun v hv hpre => ?_⟩, ?_⟩
      · rw [Begins, heq, List.dropLast_concat] at hbeginsR
        exact hbeginsR
      · obtain ⟨a, ha, heqA, hbeginsA⟩ := hbegins v hv hpre
        have hle := hmax a ha trivial hbeginsA
        rw [heq, heqA, List.length_append, List.length_append] at hle
        exact Nat.le_of_add_le_add_right hle
      · rw [← heq, number_keyOf h.nodup hlive]

/-- **The longest key.** After strings that are not empty have been put into a new table, a common
prefix search of a text returns the number of the longest of them that the text begins with, or 0 if
there is none. -/
theorem getAll_common_prefix_search {keys : List (List UInt8)}
    (hkeys : ∀ key ∈ keys, IsKey 0 key) (hfits : Fits (enterAll [] keys)) (hne : [0] ∉ keys)
    (hw : (0 : UInt8) ∉ w) (hk : senSymMaxKeyLength + senSymMaxKeyLength < k) :
    ∃ ids s r, (senSymCreate 0).getAll k keys = some (ids, s) ∧
      s.senSymCommonPrefixSearch (w ++ [0]) k = some r ∧
      ((r = 0 ∧ ∀ u, u ++ [0] ∈ enterAll [] keys → ¬ u <+: w) ∨
        ∃ u, LongestKey (enterAll [] keys) w u ∧ r = number (enterAll [] keys) (u ++ [0])) := by
  obtain ⟨s, t, hrun, h, hsize⟩ := (holds_create 0).getAll hkeys hfits
    (by omega : senSymMaxKeyLength < k)
  have hnew : [0] ∉ enterAll [] keys := fun hmem =>
    (mem_enterAll.mp hmem).elim (fun hn => absurd hn List.not_mem_nil) hne
  obtain ⟨r, hsearch, hlongest⟩ := h.common_prefix_search hsize hnew hw hk
  exact ⟨_, s, r, hrun, hsearch, hlongest⟩

/-- Of two keys that a text begins with, the longer one is found. -/
theorem getAll_common_prefix_search_two :
    ∃ ids s r, (senSymCreate 0).getAll 0x20000 [[97, 98, 0], [97, 0]] = some (ids, s) ∧
      s.senSymCommonPrefixSearch ([97, 98, 99] ++ [0]) 0x20000 = some r ∧ r ≠ 0 := by
  have hkeys : ∀ key ∈ [[97, 98, 0], [97, 0]], IsKey 0 key := by
    intro key hkey
    rcases List.mem_cons.mp hkey with rfl | hkey
    · exact isKey_string (w := [97, 98]) (by decide) (by decide)
    · rw [List.mem_singleton.mp hkey]
      exact isKey_string (w := [97]) (by decide) (by decide)
  obtain ⟨ids, s, r, hrun, hsearch, hfound⟩ := getAll_common_prefix_search (w := [97, 98, 99])
    (k := 0x20000) hkeys ⟨by decide, by decide⟩ (by decide) (by decide) (by decide)
  refine ⟨ids, s, r, hrun, hsearch, ?_⟩
  rcases hfound with ⟨-, hnone⟩ | ⟨u, hu, heq⟩
  · exact absurd ⟨[98, 99], rfl⟩ (hnone [97] (by decide))
  · rw [heq, number, if_pos hu.mem]
    exact Nat.succ_ne_zero _

end

end Senna.Sym
