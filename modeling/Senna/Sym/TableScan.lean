/-
# Scanning a text for keys

`sen_sym_scan` cuts a text into keys and characters: where a key begins, it takes the longest one
and goes on behind it, and otherwise it goes on behind one character. It stops at the end, when all
places for hits are used, and at a character that is broken; and it can be called again with the
rest. Only a table without `SEN_INDEX_NORMALIZE` is modelled.
-/

import Senna.Query.Parser
import Senna.Sym.TableCommon

namespace Senna.Sym

open Senna.Lib Senna.Lib.BitTree SenSym
open Senna.Query (senStrCharlenNonnull senStrCharlenNonnull_le)

/-- `sen_sym_scan_hit` -/
structure SenSymScanHit where
  id : Nat
  offset : Nat
  length : Nat
  deriving DecidableEq

namespace SenSym

variable (s : SenSym)

/-- `strlen(_sen_sym_key(sym, id))`. A key that is not there is not read. -/
def keyLen (id k : Nat) : Option Nat :=
  ((s.patAt id).bind s.patNodeGetKey).bind fun key => strlen key k 0

/-- The loop of `sen_sym_scan`, at the offset `p` of the text `w`, with room for `n` hits. -/
def scanLoop (encoding : Snip.SenEncoding) (w : List UInt8) (strLen k : Nat) :
    Nat → Nat → Nat → Option (List SenSymScanHit × Nat)
  | 0, _, _ => none
  | m + 1, p, n =>
      if p < strLen ∧ n ≠ 0 then
        (s.senSymCommonPrefixSearch (w.drop p ++ [0]) k).bind fun tid =>
          if tid ≠ 0 then
            (s.keyLen tid k).bind fun len =>
              if len = 0 then some ([⟨tid, p, len⟩], p)
              else
                (scanLoop encoding w strLen k m (p + len) (n - 1)).map fun r =>
                  (⟨tid, p, len⟩ :: r.1, r.2)
          else
            let len := senStrCharlenNonnull encoding ((w.take strLen).drop p)
            if len = 0 then some ([], p) else scanLoop encoding w strLen k m (p + len) n
      else some ([], p)

/-- `sen_sym_scan`: the hits, and the offset of the rest. The text is followed by a terminator. -/
def senSymScan (encoding : Snip.SenEncoding) (w : List UInt8) (strLen shSize k : Nat) :
    Option (List SenSymScanHit × Nat) :=
  s.scanLoop encoding w strLen k (strLen + 1) 0 shSize

end SenSym

/-- A text, cut into keys and characters from the offset `p` on: what has been found up to the
offset `q`. -/
inductive Cut (ks : List (List UInt8)) (encoding : Snip.SenEncoding) (w : List UInt8)
    (strLen : Nat) : Nat → List SenSymScanHit → Nat → Prop
  | stop (p : Nat) : Cut ks encoding w strLen p [] p
  | key {p q : Nat} {u : List UInt8} {hits : List SenSymScanHit} (hp : p < strLen)
      (hkey : LongestKey ks (w.drop p) u) (rest : Cut ks encoding w strLen (p + u.length) hits q) :
      Cut ks encoding w strLen p (⟨number ks (u ++ [0]), p, u.length⟩ :: hits) q
  | char {p q len : Nat} {hits : List SenSymScanHit} (hp : p < strLen)
      (hnone : ∀ u, u ++ [0] ∈ ks → ¬ u <+: w.drop p)
      (hlen : senStrCharlenNonnull encoding ((w.take strLen).drop p) = len) (hpos : 0 < len)
      (rest : Cut ks encoding w strLen (p + len) hits q) : Cut ks encoding w strLen p hits q

/-- Why a scan stops at an offset, with `n` places left. -/
def Stops (ks : List (List UInt8)) (encoding : Snip.SenEncoding) (w : List UInt8)
    (strLen n p : Nat) : Prop :=
  strLen ≤ p ∨ n = 0 ∨
    (∀ u, u ++ [0] ∈ ks → ¬ u <+: w.drop p) ∧
      senStrCharlenNonnull encoding ((w.take strLen).drop p) = 0

section

variable {s : SenSym} {ks : List (List UInt8)} {t : BitTree Nat} {w : List UInt8}
  {encoding : Snip.SenEncoding} {strLen k m n p q : Nat} {hits : List SenSymScanHit}

theorem Holds.keyLen (h : Holds s ks t) (hsize : s.keySize = 0) {u : List UInt8}
    (hu : u ++ [0] ∈ ks) (hk : senSymMaxKeyLength < k) :
    s.keyLen (number ks (u ++ [0])) k = some u.length := by
  obtain ⟨a, ha, heq⟩ := exists_live hu
  obtain ⟨b, hget, hb⟩ := h.getKey ha
  have hkey : IsKey 0 (u ++ [0]) := heq ▸ hsize ▸ h.isKey _ ha.mem
  have hzero : (0 : UInt8) ∉ u := by
    obtain ⟨v, hv, hvu⟩ := hkey.size
    exact (List.append_inj_left' hvu rfl) ▸ hv
  have hsmall := hkey.short
  rw [List.length_append, List.length_singleton] at hsmall
  rw [← heq, number_keyOf h.nodup ha, SenSym.keyLen, h.patAt ha.le, Option.bind_some, hget,
    Option.bind_some]
  rw [heq] at hb
  rw [strlen_eq hzero hb (by omega), Nat.zero_add]

/-- What the loop of `sen_sym_scan` does at an offset: it goes on behind one character, or behind
the longest key, or stops. -/
theorem scanLoop_step (encoding : Snip.SenEncoding) (h : Holds s ks t) (hsize : s.keySize = 0)
    (hne : [0] ∉ ks) (hw : (0 : UInt8) ∉ w)
    (hk : senSymMaxKeyLength + senSymMaxKeyLength < k) (hp : p < strLen) :
    (∃ len, (∀ u, u ++ [0] ∈ ks → ¬ u <+: w.drop p) ∧
        senStrCharlenNonnull encoding ((w.take strLen).drop p) = len ∧ 0 < len ∧
        ∀ m n, n ≠ 0 → s.scanLoop encoding w strLen k (m + 1) p n =
          s.scanLoop encoding w strLen k m (p + len) n) ∨
      (∃ u, LongestKey ks (w.drop p) u ∧ 0 < u.length ∧
        ∀ m n, n ≠ 0 → s.scanLoop encoding w strLen k (m + 1) p n =
          (s.scanLoop encoding w strLen k m (p + u.length) (n - 1)).map fun r =>
            (⟨number ks (u ++ [0]), p, u.length⟩ :: r.1, r.2)) ∨
      (∀ u, u ++ [0] ∈ ks → ¬ u <+: w.drop p) ∧
        senStrCharlenNonnull encoding ((w.take strLen).drop p) = 0 ∧
        ∀ m n, n ≠ 0 → s.scanLoop encoding w strLen k (m + 1) p n = some ([], p) := by
  have hdrop : (0 : UInt8) ∉ w.drop p := fun hmem => hw (List.mem_of_mem_drop hmem)
  obtain ⟨tid, hsearch, hfound⟩ := h.common_prefix_search hsize hne hdrop hk
  have hbegin : ∀ m n, n ≠ 0 → s.scanLoop encoding w strLen k (m + 1) p n =
      if tid ≠ 0 then
        (s.keyLen tid k).bind fun len =>
          if len = 0 then some ([⟨tid, p, len⟩], p)
          else
            (s.scanLoop encoding w strLen k m (p + len) (n - 1)).map fun r =>
              (⟨tid, p, len⟩ :: r.1, r.2)
      else
        if senStrCharlenNonnull encoding ((w.take strLen).drop p) = 0 then some ([], p)
        else s.scanLoop encoding w strLen k m
          (p + senStrCharlenNonnull encoding ((w.take strLen).drop p)) n := by
    intro m n hn
    rw [scanLoop, if_pos ⟨hp, hn⟩, hsearch]
    rfl
  rcases hfound with ⟨rfl, hnone⟩ | ⟨u, hu, rfl⟩
  · by_cases hlen : senStrCharlenNonnull encoding ((w.take strLen).drop p) = 0
    · refine .inr (.inr ⟨hnone, hlen, fun m n hn => ?_⟩)
      rw [hbegin m n hn, if_neg (not_not_intro rfl), if_pos hlen]
    · refine .inl ⟨_, hnone, rfl, Nat.pos_of_ne_zero hlen, fun m n hn => ?_⟩
      rw [hbegin m n hn, if_neg (not_not_intro rfl), if_neg hlen]
  · have hpos : u ≠ [] := by
      rintro rfl
      exact hne hu.mem
    have hlength := List.length_pos_of_ne_nil hpos
    have htid : number ks (u ++ [0]) ≠ 0 := by
      rw [number, if_pos hu.mem]
      exact Nat.succ_ne_zero _
    refine .inr (.inl ⟨u, hu, hlength, fun m n hn => ?_⟩)
    rw [hbegin m n hn, if_pos htid, h.keyLen hsize hu.mem (by omega), Option.bind_some,
      if_neg (Nat.ne_of_gt hlength)]

theorem scanLoop_done (hdone : ¬ (p < strLen ∧ n ≠ 0)) :
    s.scanLoop encoding w strLen k (m + 1) p n = some ([], p) := by
  rw [scanLoop, if_neg hdone]

/-- The loop of `sen_sym_scan` cuts the text. -/
theorem scanLoop_cut (encoding : Snip.SenEncoding) (h : Holds s ks t) (hsize : s.keySize = 0)
    (hne : [0] ∉ ks) (hw : (0 : UInt8) ∉ w) (hk : senSymMaxKeyLength + senSymMaxKeyLength < k)
    (hm : strLen - p < m) :
    ∃ hits q, s.scanLoop encoding w strLen k m p n = some (hits, q) ∧
      Cut ks encoding w strLen p hits q ∧ hits.length ≤ n ∧
      Stops ks encoding w strLen (n - hits.length) q := by
  induction m generalizing p n with
  | zero => exact absurd hm (Nat.not_lt_zero _)
  | succ m ih =>
      by_cases hgo : p < strLen ∧ n ≠ 0
      · obtain ⟨hp, hn⟩ := hgo
        rcases scanLoop_step encoding h hsize hne hw hk hp with
          ⟨len, hnone, hlen, hpos, hrun⟩ | ⟨u, hu, hpos, hrun⟩ | ⟨hnone, hlen, hrun⟩
        · obtain ⟨hits, q, hrest, hcut, hcount, hstops⟩ := ih (p := p + len) (n := n) (by omega)
          rw [hrun m n hn]
          exact ⟨hits, q, hrest, .char hp hnone hlen hpos hcut, hcount, hstops⟩
        · obtain ⟨hits, q, hrest, hcut, hcount, hstops⟩ := ih (p := p + u.length) (n := n - 1)
            (by omega)
          rw [hrun m n hn, hrest]
          refine ⟨_, q, rfl, .key hp hu hcut, ?_, ?_⟩
          · rw [List.length_cons]
            exact Nat.add_le_of_le_sub (Nat.one_le_iff_ne_zero.mpr hn) hcount
          · rw [List.length_cons, Nat.add_comm, ← Nat.sub_sub]
            exact hstops
        · rw [hrun m n hn]
          exact ⟨[], p, rfl, .stop p, Nat.zero_le n, .inr (.inr ⟨hnone, hlen⟩)⟩
      · refine ⟨[], p, scanLoop_done hgo, .stop p, Nat.zero_le n, ?_⟩
        rcases not_and_or.mp hgo with hp | hn
        · exact .inl (not_lt.mp hp)
        · exact .inr (.inl (not_not.mp hn))

/-- Hits do not overlap, and increase. -/
theorem Cut.pairwise (h : Cut ks encoding w strLen p hits q) :
    (∀ a ∈ hits, p ≤ a.offset) ∧
      hits.Pairwise fun a b => a.offset + a.length ≤ b.offset := by
  induction h with
  | stop p => exact ⟨fun a ha => absurd ha List.not_mem_nil, List.Pairwise.nil⟩
  | key hp hkey rest ih =>
      refine ⟨fun a ha => ?_, List.pairwise_cons.mpr ⟨ih.1, ih.2⟩⟩
      rcases List.mem_cons.mp ha with rfl | ha
      · exact le_rfl
      · exact le_trans (Nat.le_add_right _ _) (ih.1 a ha)
  | char hp hnone hlen hpos rest ih =>
      exact ⟨fun a ha => le_trans (Nat.le_add_right _ _) (ih.1 a ha), ih.2⟩

/-- A loop that has enough steps does not need more. -/
theorem scanLoop_fuel (m' : Nat) (h : Holds s ks t) (hsize : s.keySize = 0) (hne : [0] ∉ ks)
    (hw : (0 : UInt8) ∉ w) (hk : senSymMaxKeyLength + senSymMaxKeyLength < k)
    (hm : strLen - p < m) (hm' : strLen - p < m') :
    s.scanLoop encoding w strLen k m p n = s.scanLoop encoding w strLen k m' p n := by
  induction m generalizing m' p n with
  | zero => exact absurd hm (Nat.not_lt_zero _)
  | succ m ih =>
      obtain ⟨m', rfl⟩ := Nat.exists_eq_add_one_of_ne_zero (Nat.ne_zero_of_lt hm')
      by_cases hgo : p < strLen ∧ n ≠ 0
      · obtain ⟨hp, hn⟩ := hgo
        rcases scanLoop_step encoding h hsize hne hw hk hp with
          ⟨len, -, -, hpos, hrun⟩ | ⟨u, -, hpos, hrun⟩ | ⟨-, -, hrun⟩
        · rw [hrun m n hn, hrun m' n hn, ih m' (by omega) (by omega)]
        · rw [hrun m n hn, hrun m' n hn, ih m' (by omega) (by omega)]
        · rw [hrun m n hn, hrun m' n hn]
      · rw [scanLoop_done hgo, scanLoop_done hgo]

/-- A loop with room for more hits does what one with less room does, and goes on from there. -/
theorem scanLoop_add {a b : Nat} (encoding : Snip.SenEncoding) (h : Holds s ks t)
    (hsize : s.keySize = 0) (hne : [0] ∉ ks) (hw : (0 : UInt8) ∉ w)
    (hk : senSymMaxKeyLength + senSymMaxKeyLength < k) (hm : strLen - p < m) :
    ∃ hits q, s.scanLoop encoding w strLen k m p a = some (hits, q) ∧ p ≤ q ∧
      s.scanLoop encoding w strLen k m p (a + b) =
        (s.scanLoop encoding w strLen k m q b).map fun r => (hits ++ r.1, r.2) := by
  induction m generalizing p a with
  | zero => exact absurd hm (Nat.not_lt_zero _)
  | succ m ih =>
      by_cases hgo : p < strLen ∧ a ≠ 0
      · obtain ⟨hp, hn⟩ := hgo
        have hab : a + b ≠ 0 := by omega
        rcases scanLoop_step encoding h hsize hne hw hk hp with
          ⟨len, -, -, hpos, hrun⟩ | ⟨u, -, hpos, hrun⟩ | ⟨-, -, hrun⟩
        · obtain ⟨hits, q, hfirst, hle, hsum⟩ := ih (p := p + len) (a := a) (by omega)
          refine ⟨hits, q, by rw [hrun m a hn, hfirst], by omega, ?_⟩
          rw [hrun m _ hab, hsum, scanLoop_fuel (m + 1) h hsize hne hw hk (by omega) (by omega)]
        · obtain ⟨hits, q, hfirst, hle, hsum⟩ := ih (p := p + u.length) (a := a - 1) (by omega)
          refine ⟨_, q, by rw [hrun m a hn, hfirst]; rfl, by omega, ?_⟩
          rw [hrun m _ hab, show a + b - 1 = a - 1 + b by omega, hsum,
            scanLoop_fuel (m + 1) h hsize hne hw hk (by omega) (by omega), Option.map_map]
          rfl
        · refine ⟨[], p, hrun m a hn, le_rfl, ?_⟩
          have hb : s.scanLoop encoding w strLen k (m + 1) p b = some ([], p) := by
            by_cases hzero : b = 0
            · exact scanLoop_done fun hand => hand.2 hzero
            · exact hrun m b hzero
          rw [hrun m _ hab, hb]
          rfl
      · refine ⟨[], p, scanLoop_done hgo, le_rfl, ?_⟩
        rcases not_and_or.mp hgo with hp | hn
        · rw [scanLoop_done fun hand => hp hand.1, scanLoop_done fun hand => hp hand.1]
          rfl
        · rw [not_not.mp hn, Nat.zero_add]
          exact Option.map_id'.symm

/-- A hit in a text that begins at the offset `d`. -/
def SenSymScanHit.shift (d : Nat) (hit : SenSymScanHit) : SenSymScanHit :=
  { hit with offset := d + hit.offset }

theorem scanLoop_shift (s : SenSym) (encoding : Snip.SenEncoding) (w : List UInt8)
    (strLen k m d p n : Nat) :
    s.scanLoop encoding w strLen k m (d + p) n =
      (s.scanLoop encoding (w.drop d) (strLen - d) k m p n).map fun r =>
        (r.1.map (SenSymScanHit.shift d), d + r.2) := by
  induction m generalizing p n with
  | zero => rfl
  | succ m ih =>
      have hgo : (p < strLen - d ∧ n ≠ 0) ↔ (d + p < strLen ∧ n ≠ 0) :=
        and_congr_left fun _ => by omega
      have hchar : ((w.drop d).take (strLen - d)).drop p = (w.take strLen).drop (d + p) := by
        rw [← List.drop_take, List.drop_drop]
      have hdrop : (w.drop d).drop p = w.drop (d + p) := List.drop_drop
      rw [scanLoop, scanLoop, if_congr hgo rfl rfl, hdrop, hchar]
      split_ifs
      · rw [Option.map_bind]
        refine congrArg _ (funext fun tid => ?_)
        rw [Function.comp_apply]
        by_cases htid : tid ≠ 0
        · rw [if_pos htid, if_pos htid, Option.map_bind]
          refine congrArg _ (funext fun len => ?_)
          rw [Function.comp_apply]
          by_cases hlen : len = 0
          · rw [if_pos hlen, if_pos hlen]
            rfl
          · rw [if_neg hlen, if_neg hlen, Nat.add_assoc, ih, Option.map_map, Option.map_map]
            rfl
        · rw [if_neg htid, if_neg htid]
          dsimp only
          by_cases hlen : senStrCharlenNonnull encoding ((w.take strLen).drop (d + p)) = 0
          · rw [if_pos hlen, if_pos hlen]
            rfl
          · rw [if_neg hlen, if_neg hlen, Nat.add_assoc, ih]
      · rfl

/-- **Scanning a text.** After strings that are not empty have been put into a new table, a scan
cuts the text: each hit is the longest key where it begins, no hit is left out before the rest, and
hits do not overlap. It stops for one of three reasons. -/
theorem getAll_scan {keys : List (List UInt8)} (encoding : Snip.SenEncoding) (strLen shSize : Nat)
    (hkeys : ∀ key ∈ keys, IsKey 0 key) (hfits : Fits (enterAll [] keys)) (hne : [0] ∉ keys)
    (hw : (0 : UInt8) ∉ w) (hk : senSymMaxKeyLength + senSymMaxKeyLength < k) :
    ∃ ids s hits q, (senSymCreate 0).getAll k keys = some (ids, s) ∧
      s.senSymScan encoding w strLen shSize k = some (hits, q) ∧
      Cut (enterAll [] keys) encoding w strLen 0 hits q ∧
      (hits.Pairwise fun a b => a.offset + a.length ≤ b.offset) ∧ hits.length ≤ shSize ∧
      Stops (enterAll [] keys) encoding w strLen (shSize - hits.length) q := by
  obtain ⟨s, t, hrun, h, hsize⟩ := (holds_create 0).getAll hkeys hfits
    (by omega : senSymMaxKeyLength < k)
  have hnew : [0] ∉ enterAll [] keys := fun hmem =>
    (mem_enterAll.mp hmem).elim (fun hn => absurd hn List.not_mem_nil) hne
  obtain ⟨hits, q, hscan, hcut, hcount, hstops⟩ := scanLoop_cut encoding h hsize
    hnew hw hk (Nat.lt_succ_of_le (Nat.sub_le strLen 0))
  exact ⟨_, s, hits, q, hrun, hscan, hcut, hcut.pairwise.2, hcount, hstops⟩

/-- A text that begins with a key, scanned with room for one hit. -/
theorem getAll_scan_one :
    ∃ ids s hits q, (senSymCreate 0).getAll 0x20000 [[97, 98, 0]] = some (ids, s) ∧
      s.senSymScan .utf8 [97, 98, 99, 97, 98] 5 1 0x20000 = some (hits, q) ∧
      Cut [[97, 98, 0]] .utf8 [97, 98, 99, 97, 98] 5 0 hits q ∧ hits.length ≤ 1 := by
  have hkeys : ∀ key ∈ [[97, 98, 0]], IsKey 0 key := by
    intro key hkey
    rw [List.mem_singleton.mp hkey]
    exact isKey_string (w := [97, 98]) (by decide) (by decide)
  obtain ⟨ids, s, hits, q, hrun, hscan, hcut, -, hcount, -⟩ := getAll_scan
    (w := [97, 98, 99, 97, 98]) (k := 0x20000) .utf8 5 1 hkeys ⟨by decide, by decide⟩
    (by decide) (by decide) (by decide)
  exact ⟨ids, s, hits, q, hrun, hscan, hcut, hcount⟩

/-- **Scanning the rest.** A scan with room for some hits, and a second one of the rest with room
for others, find what one scan with room for all of them finds. -/
theorem getAll_scan_rest {keys : List (List UInt8)} (encoding : Snip.SenEncoding)
    (strLen a b : Nat) (hkeys : ∀ key ∈ keys, IsKey 0 key) (hfits : Fits (enterAll [] keys))
    (hne : [0] ∉ keys) (hw : (0 : UInt8) ∉ w)
    (hk : senSymMaxKeyLength + senSymMaxKeyLength < k) :
    ∃ ids s hits q hits' q', (senSymCreate 0).getAll k keys = some (ids, s) ∧
      s.senSymScan encoding w strLen a k = some (hits, q) ∧
      s.senSymScan encoding (w.drop q) (strLen - q) b k = some (hits', q') ∧
      s.senSymScan encoding w strLen (a + b) k =
        some (hits ++ hits'.map (SenSymScanHit.shift q), q + q') := by
  obtain ⟨s, t, hrun, h, hsize⟩ := (holds_create 0).getAll hkeys hfits
    (by omega : senSymMaxKeyLength < k)
  have hnew : [0] ∉ enterAll [] keys := fun hmem =>
    (mem_enterAll.mp hmem).elim (fun hn => absurd hn List.not_mem_nil) hne
  have hdrop : ∀ q, (0 : UInt8) ∉ w.drop q := fun q hmem => hw (List.mem_of_mem_drop hmem)
  obtain ⟨hits, q, hfirst, -, hsum⟩ := scanLoop_add encoding (b := b) (a := a) h
    hsize hnew hw hk (Nat.lt_succ_of_le (Nat.sub_le strLen 0))
  obtain ⟨hits', q', hrest, -⟩ := scanLoop_cut encoding (n := b) h hsize hnew
    (hdrop q) hk (Nat.lt_succ_of_le (Nat.sub_le (strLen - q) 0))
  refine ⟨_, s, hits, q, hits', q', hrun, hfirst, hrest, hsum.trans ?_⟩
  have hlong : s.scanLoop encoding (w.drop q) (strLen - q) k (strLen + 1) 0 b =
      some (hits', q') := by
    rw [scanLoop_fuel (strLen - q + 1) h hsize hnew (hdrop q) hk (by omega) (by omega)]
    exact hrest
  have hshift := scanLoop_shift s encoding w strLen k (strLen + 1) q 0 b
  rw [hlong, Nat.add_zero] at hshift
  exact congrArg (Option.map _) hshift

/-- The second hit is found in the rest. -/
theorem getAll_scan_rest_one :
    ∃ ids s hits q hits' q', (senSymCreate 0).getAll 0x20000 [[97, 98, 0]] = some (ids, s) ∧
      s.senSymScan .utf8 [97, 98, 99, 97, 98] 5 1 0x20000 = some (hits, q) ∧
      s.senSymScan .utf8 ([97, 98, 99, 97, 98].drop q) (5 - q) 1 0x20000 = some (hits', q') ∧
      s.senSymScan .utf8 [97, 98, 99, 97, 98] 5 (1 + 1) 0x20000 =
        some (hits ++ hits'.map (SenSymScanHit.shift q), q + q') := by
  have hkeys : ∀ key ∈ [[97, 98, 0]], IsKey 0 key := by
    intro key hkey
    rw [List.mem_singleton.mp hkey]
    exact isKey_string (w := [97, 98]) (by decide) (by decide)
  exact getAll_scan_rest (w := [97, 98, 99, 97, 98]) (k := 0x20000) .utf8 5 1 1 hkeys
    ⟨by decide, by decide⟩ (by decide) (by decide) (by decide)

end

end Senna.Sym
