/-
# The best sub-records

A record keeps the best `m` sub-records that are added to it, as long as the code tells
right whether a new one is to replace the root. It compares the score with the first byte
of the root instead of its score, and `res_add` does so in an unsigned type, where any
difference is positive. The results here say exactly which sequences come out right.
-/

import Senna.Index.SubrecsHeap

namespace Senna.Index

open Senna.Io Senna.Lib Senna.Set

/-- One score is better than another: greater, or smaller when `dir` is -1. -/
def Better (dir x y : Int) : Prop := 0 < (x - y) * dir

instance (dir x y : Int) : Decidable (Better dir x y) := inferInstanceAs (Decidable (_ < _))

/-- The order of the heap: the worst sub-record is the least. -/
def gtSubrec (dir : Int) (x y : SubRec) : Bool := decide (Better dir x.score y.score)

/-- `bins` are some of the sub-records `adds`, and none of the others is better than one of
them. -/
def BestOf (dir : Int) (bins adds : List SubRec) : Prop :=
  ∃ left, (bins ++ left).Perm adds ∧ ∀ x ∈ left, ∀ y ∈ bins, ¬Better dir x.score y.score

/-- `w` is the score of the worst of the best `m` sub-records. -/
structure IsWorst (m : Nat) (dir : Int) (adds : List SubRec) (w : Int) : Prop where
  mem : ∃ c ∈ adds, c.score = w
  better : (adds.countP fun c => decide (Better dir c.score w)) < m
  notWorse : m ≤ adds.countP fun c => !decide (Better dir w c.score)

section

variable {dir : Int} {bins bins' adds : List SubRec} {c root : SubRec} {m : Nat}

theorem not_better_trans (hdir : dir = 1 ∨ dir = -1) {x y z : Int} (hxy : ¬Better dir x y)
    (hyz : ¬Better dir y z) : ¬Better dir x z := by
  unfold Better at *
  rcases hdir with rfl | rfl <;> omega

theorem not_better_of_better (hdir : dir = 1 ∨ dir = -1) {x y : Int} (h : Better dir x y) :
    ¬Better dir y x := by
  unfold Better at *
  rcases hdir with rfl | rfl <;> omega

theorem gtSubrec_total (hdir : dir = 1 ∨ dir = -1) (S : SubRec → Prop) :
    TotalPreorderOn S (gtSubrec dir) where
  asymm _ _ h := decide_eq_false (not_better_of_better hdir (of_decide_eq_true h))
  trans _ _ _ hxy hyz :=
    decide_eq_false (not_better_trans hdir (of_decide_eq_false hxy) (of_decide_eq_false hyz))

/-- The root of the heap is not better than any of the stored sub-records. -/
theorem IsHeap.root_not_better (hdir : dir = 1 ∨ dir = -1) (h : IsHeap (gtSubrec dir) bins)
    (hroot : bins[0]? = some root) : ∀ x ∈ bins, ¬Better dir root.score x.score := by
  intro x hx
  obtain ⟨i, hi⟩ := List.mem_iff_getElem?.mp hx
  have := h.root_le (gtSubrec_total hdir fun _ => True) (fun _ _ => trivial) i root x hroot hi
  simpa [gtSubrec] using this

/-- While there is room all sub-records are kept. -/
theorem BestOf.push (h : BestOf dir bins adds) (hall : bins.length = adds.length)
    (hperm : bins'.Perm (bins ++ [c])) : BestOf dir bins' (adds ++ [c]) := by
  obtain ⟨left, hleft, -⟩ := h
  have hnil : left = [] := by
    have := hleft.length_eq
    rw [List.length_append] at this
    exact List.length_eq_zero_iff.mp (by omega)
  rw [hnil, List.append_nil] at hleft
  refine ⟨[], ?_, by simp⟩
  rw [List.append_nil]
  exact hperm.trans (hleft.append_right [c])

/-- To leave a new sub-record out is right when it is not better than the root. -/
theorem BestOf.keep_iff (hdir : dir = 1 ∨ dir = -1) (h : BestOf dir bins adds)
    (hroot : root ∈ bins) (hmin : ∀ x ∈ bins, ¬Better dir root.score x.score) :
    BestOf dir bins (adds ++ [c]) ↔ ¬Better dir c.score root.score := by
  obtain ⟨left, hleft, hbest⟩ := h
  have hall : (bins ++ (left ++ [c])).Perm (adds ++ [c]) := by
    rw [← List.append_assoc]
    exact hleft.append_right [c]
  constructor
  · rintro ⟨left', hleft', hbest'⟩
    have hperm : left'.Perm (left ++ [c]) :=
      (List.perm_append_left_iff bins).mp (hleft'.trans hall.symm)
    exact hbest' c (hperm.mem_iff.mpr (by simp)) root hroot
  · intro hc
    refine ⟨left ++ [c], hall, fun x hx y hy => ?_⟩
    rcases List.mem_append.mp hx with hx | hx
    · exact hbest x hx y hy
    · rw [List.mem_singleton.mp hx]
      exact not_better_trans hdir hc (hmin y hy)

/-- To put a new sub-record in the place of the root is right when the root is not better. -/
theorem BestOf.replace_iff (hdir : dir = 1 ∨ dir = -1) (h : BestOf dir bins adds)
    (hroot : bins[0]? = some root) (hmin : ∀ x ∈ bins, ¬Better dir root.score x.score)
    (hperm : bins'.Perm (bins.set 0 c)) :
    BestOf dir bins' (adds ++ [c]) ↔ ¬Better dir root.score c.score := by
  obtain ⟨left, hleft, hbest⟩ := h
  obtain ⟨tail, rfl⟩ : ∃ tail, bins = root :: tail := by
    cases bins with
    | nil => simp at hroot
    | cons x tail => exact ⟨tail, by simpa using hroot⟩
  rw [List.set_cons_zero] at hperm
  have hall : (bins' ++ (root :: left)).Perm (adds ++ [c]) := by
    have h1 : (bins' ++ (root :: left)).Perm (c :: tail ++ root :: left) := hperm.append_right _
    have h2 : (c :: tail ++ root :: left).Perm (c :: (root :: tail ++ left)) := by
      rw [List.cons_append]
      exact List.Perm.cons c List.perm_middle
    have h3 : (c :: (root :: tail ++ left)).Perm (adds ++ [c]) :=
      (List.perm_append_singleton c _).symm.trans (hleft.append_right [c])
    exact h1.trans (h2.trans h3)
  constructor
  · rintro ⟨left', hleft', hbest'⟩
    have hleft'' : left'.Perm (root :: left) :=
      (List.perm_append_left_iff bins').mp (hleft'.trans hall.symm)
    exact hbest' root (hleft''.mem_iff.mpr List.mem_cons_self) c
      (hperm.mem_iff.mpr List.mem_cons_self)
  · intro hc
    refine ⟨root :: left, hall, fun x hx y hy => ?_⟩
    have hxroot : ¬Better dir x.score root.score := by
      rcases List.mem_cons.mp hx with rfl | hx
      · unfold Better
        rw [sub_self, zero_mul]
        exact lt_irrefl 0
      · exact hbest x hx root List.mem_cons_self
    rcases List.mem_cons.mp (hperm.mem_iff.mp hy) with rfl | hy
    · exact not_better_trans hdir hxroot hc
    · exact not_better_trans hdir hxroot (hmin y (List.mem_cons_of_mem _ hy))

/-- The root of a full heap is the worst of the best. -/
theorem BestOf.isWorst_iff (hdir : dir = 1 ∨ dir = -1) (h : BestOf dir bins adds)
    (hlen : bins.length = m) (hroot : root ∈ bins)
    (hmin : ∀ x ∈ bins, ¬Better dir root.score x.score) (w : Int) :
    IsWorst m dir adds w ↔ w = root.score := by
  obtain ⟨left, hleft, hbest⟩ := h
  have hself (x : Int) : ¬Better dir x x := by
    unfold Better
    rw [sub_self, zero_mul]
    exact lt_irrefl 0
  have hcount (p : SubRec → Bool) : adds.countP p = bins.countP p + left.countP p := by
    rw [← hleft.countP_eq, List.countP_append]
  have hrootWorst : IsWorst m dir adds root.score := by
    refine ⟨⟨root, hleft.mem_iff.mp (List.mem_append_left _ hroot), rfl⟩, ?_, ?_⟩
    · have hl : (left.countP fun c => decide (Better dir c.score root.score)) = 0 := by
        rw [List.countP_eq_zero]
        intro x hx
        simpa using hbest x hx root hroot
      have hb : (bins.countP fun c => decide (Better dir c.score root.score)) < bins.length := by
        rw [List.countP_lt_length_iff]
        exact ⟨root, hroot, by simpa using hself root.score⟩
      rw [hcount, hl]
      omega
    · have hb : (bins.countP fun c => !decide (Better dir root.score c.score)) = bins.length := by
        rw [List.countP_eq_length]
        intro x hx
        simpa using hmin x hx
      rw [hcount, hb]
      omega
  refine ⟨fun hw => ?_, fun hw => hw ▸ hrootWorst⟩
  -- of two different worst scores one would be better than the other
  have hne {v w : Int} (hv : IsWorst m dir adds v) (hw : IsWorst m dir adds w) :
      ¬Better dir v w := by
    intro hvw
    have hle : (adds.countP fun c => !decide (Better dir v c.score)) ≤
        adds.countP fun c => decide (Better dir c.score w) := by
      apply List.countP_mono_left
      intro x _ hx
      rw [decide_eq_true_eq]
      by_contra hxw
      rw [Bool.not_eq_true', decide_eq_false_iff_not] at hx
      exact not_better_trans hdir hx hxw hvw
    have := hv.notWorse
    have := hw.better
    omega
  have h1 := hne hw hrootWorst
  have h2 := hne hrootWorst hw
  unfold Better at h1 h2
  rcases hdir with rfl | rfl <;> omega

end

/-- What the calls of the heap are made with. `m` is the number of sub-records to be kept;
where it is no positive `int`, every score differs from a cleared root. -/
structure SubrecArg.Ok (A : SubrecArg) (m : Nat) (T : Int → Prop) : Prop where
  dir : A.dir = 1 ∨ A.dir = -1
  pos : 0 < m
  lt : m < 2 ^ 32
  limit : A.limit = toInt m
  count : ∀ n : Nat, n < 2 ^ 31 → A.count (toInt n) = n
  count_top : A.count (toInt (2 ^ 31)) ≤ 0
  fits : ∀ s, T s → FitsInt s
  cmp : ∀ s t, T s → T t → subrecsCmp s t A.dir = decide (Better A.dir s t)
  clear : m < 2 ^ 31 ∨ ∀ s, T s → s ≠ 0 ∧ A.rootCmp s 0 A.dir = true

/-- The bytes of a record: the sub-records `bins`, and the rest is cleared. -/
structure Stores (m size room : Nat) (adds bins : List SubRec) (ri : RecInfo) : Prop where
  count : ri.nSubrecs = toInt adds.length
  bytes : ∃ n, ri.subrecs = pack bins ++ List.replicate n 0
  length : ri.subrecs.length = room
  bins_length : bins.length = min m adds.length
  bins_ok : ∀ c ∈ bins, c.Ok size

/-- A record that keeps the best of the sub-records `adds`. -/
structure Holding (A : SubrecArg) (m room : Nat) (adds bins : List SubRec) (ri : RecInfo) :
    Prop where
  stores : Stores m A.size room adds bins ri
  best : BestOf A.dir bins adds
  heap : IsHeap (gtSubrec A.dir) bins
  few : adds.length < 2 ^ 31

/-- The sub-records stored in a record to which `adds` have been added. -/
def stored (m size : Nat) (adds : List SubRec) (ri : RecInfo) : List SubRec :=
  unpack size (min m adds.length) ri.subrecs

/-- The stored sub-records are the best `m` of those added, and they are a heap. -/
structure KeepsBest (A : SubrecArg) (m : Nat) (adds : List SubRec) (ri : RecInfo) : Prop where
  best : BestOf A.dir (stored m A.size adds ri) adds
  heap : IsHeap (gtSubrec A.dir) (stored m A.size adds ri)

/-- With the worst score `w` stored, the comparison of a new score with the first byte of
the root tells right whether it is better, worse scores being told from it. -/
def RootTold (A : SubrecArg) (w s : Int) : Prop :=
  if A.rootCmp s (w % 256) A.dir then ¬Better A.dir w s else ¬Better A.dir s w

/-- Where adding `c` after `adds` comes out right: the number of sub-records is an `int`,
there is room for those to be kept, and the root is told right when they are complete. -/
structure SoundStep (A : SubrecArg) (m room : Nat) (adds : List SubRec) (c : SubRec) : Prop where
  count : adds.length + 1 < 2 ^ 31
  room : min m (adds.length + 1) * (A.size + 4) ≤ room
  limit : m < 2 ^ 31 ∨ adds = []
  told : m ≤ adds.length → ∀ w, IsWorst m A.dir adds w → RootTold A w c.score

section

variable {A : SubrecArg} {m room : Nat} {T : Int → Prop} {adds bins : List SubRec}
  {ri ri' : RecInfo} {score : Int} {ekey : List UInt8}

theorem Stores.stored_eq (h : Stores m A.size room adds bins ri) :
    stored m A.size adds ri = bins := by
  obtain ⟨n, hn⟩ := h.bytes
  rw [stored, hn, ← h.bins_length]
  exact unpack_pack h.bins_ok _

theorem Holding.keepsBest (h : Holding A m room adds bins ri) : KeepsBest A m adds ri := by
  refine ⟨?_, ?_⟩
  · rw [h.stores.stored_eq]
    exact h.best
  · rw [h.stores.stored_eq]
    exact h.heap

theorem holding_new : Holding A m room [] [] (newRecInfo room) where
  stores :=
    { count := rfl
      bytes := ⟨room, rfl⟩
      length := List.length_replicate
      bins_length := (Nat.min_zero m).symm
      bins_ok := by simp }
  best := ⟨[], List.Perm.refl _, by simp⟩
  heap := isHeap_of_length_le (Nat.zero_le 1)
  few := by norm_num

theorem toInt_succ (n : Nat) : toInt (toInt n + 1) = toInt ((n + 1 : Nat) : Int) := by
  have h : ((n : Int).bmod (2 ^ 32) + 1).bmod (2 ^ 32) = ((n : Int) + 1).bmod (2 ^ 32) :=
    Int.bmod_add_bmod
  rw [toInt, toInt, h, toInt]
  push_cast
  rfl

/-- The record with the new score and number of sub-records. -/
def counted (ri : RecInfo) (score : Int) : RecInfo :=
  { ri with score := toInt (ri.score + score), nSubrecs := toInt (ri.nSubrecs + 1) }

theorem addSubrec_of_push (hlimit : A.limit ≠ 0)
    (hcount : ¬A.limit < A.count (toInt (ri.nSubrecs + 1))) (k : Nat) :
    addSubrec A ri score ekey k =
      (subrecsPush ri.subrecs A.size (A.count (toInt (ri.nSubrecs + 1))) (toInt score) ekey A.dir
        k).map fun subrecs => { counted ri score with subrecs := subrecs } := by
  rw [addSubrec, if_neg hlimit, if_neg hcount]
  rfl

theorem addSubrec_of_full (hlimit : A.limit ≠ 0)
    (hcount : A.limit < A.count (toInt (ri.nSubrecs + 1))) (k : Nat) :
    addSubrec A ri score ekey k =
      ri.subrecs.head?.bind fun root =>
        if A.rootCmp score root.toNat A.dir then
          (subrecsReplaceMin ri.subrecs A.size A.limit (toInt score) ekey A.dir k).map
            fun subrecs => { counted ri score with subrecs := subrecs }
        else some (counted ri score) := by
  rw [addSubrec, if_neg hlimit, if_pos hcount]
  rfl

/-- A cleared sub-record. -/
def zeroSubrec (size : Nat) : SubRec := ⟨0, List.replicate size 0⟩

theorem zeroSubrec_ok (size : Nat) : (zeroSubrec size).Ok size :=
  ⟨(by decide : FitsInt 0), List.length_replicate⟩

theorem zeroSubrec_bytes (size : Nat) : (zeroSubrec size).bytes = List.replicate (size + 4) 0 := by
  have hle : le32 (toU32 0) = List.replicate 4 0 := by decide
  rw [SubRec.bytes, zeroSubrec, hle, List.replicate_append_replicate, Nat.add_comm]

theorem forall_score_of_mem {P : Int → Prop} (hbest : BestOf A.dir bins adds)
    (hP : ∀ c ∈ adds, P c.score) : ∀ c ∈ bins, P c.score := by
  obtain ⟨left, hleft, -⟩ := hbest
  exact fun c hc => hP c (hleft.mem_iff.mp (List.mem_append_left _ hc))

/-- Comparing sub-records is comparing by the order of the heap. -/
theorem SubrecArg.Ok.cellCmp_eq (hA : A.Ok m T) {x y : SubRec} (hx : T x.score) (hy : T y.score) :
    cellCmp A.dir x y = some (gtSubrec A.dir x y) := by
  rw [cellCmp, hA.cmp _ _ hx hy, gtSubrec]

/-- **Room for one more.** The new sub-record joins the heap. -/
theorem Holding.push (hA : A.Ok m T) (hm : m < 2 ^ 31) (h : Holding A m room adds bins ri)
    (hT : ∀ c ∈ adds, T c.score) (hscore : T score) (hlen : A.size ≤ ekey.length)
    (hadds : adds.length < m) (hroom : (adds.length + 1) * (A.size + 4) ≤ room) :
    ∃ ri' bins', Settles (addSubrec A ri score ekey) ri' ∧
      Holding A m room (adds ++ [⟨score, ekey.take A.size⟩]) bins' ri' := by
  obtain ⟨n, hbytes⟩ := h.stores.bytes
  have hbins : bins.length = adds.length := by rw [h.stores.bins_length, Nat.min_eq_right hadds.le]
  have hc : (⟨score, ekey.take A.size⟩ : SubRec).Ok A.size :=
    ⟨hA.fits _ hscore, List.length_take_of_le hlen⟩
  have hpack : (pack bins).length = bins.length * (A.size + 4) := length_pack h.stores.bins_ok
  have hn : A.size + 4 ≤ n := by
    have hroom' := h.stores.length
    rw [hbytes, List.length_append, hpack, List.length_replicate, hbins] at hroom'
    rw [Nat.add_mul] at hroom
    omega
  -- the next place is a cleared sub-record
  have hbytes' : ri.subrecs =
      pack (bins ++ [zeroSubrec A.size]) ++ List.replicate (n - (A.size + 4)) 0 := by
    have hz : pack [zeroSubrec A.size] = List.replicate (A.size + 4) 0 := by
      rw [← zeroSubrec_bytes]
      exact List.append_nil _
    rw [hbytes, pack_append, hz, List.append_assoc, List.replicate_append_replicate,
      Nat.add_sub_cancel' hn]
  have hcellsOk : ∀ c ∈ bins ++ [zeroSubrec A.size], c.Ok A.size := by
    intro c hc
    rcases List.mem_append.mp hc with hc | hc
    · exact h.stores.bins_ok c hc
    · rw [List.mem_singleton.mp hc]
      exact zeroSubrec_ok _
  have hset : (bins ++ [zeroSubrec A.size]).set bins.length ⟨score, ekey.take A.size⟩ =
      bins ++ [⟨score, ekey.take A.size⟩] := by
    rw [List.set_append_right _ _ (le_refl _), Nat.sub_self]
    rfl
  have hbinsT := forall_score_of_mem h.best hT
  obtain ⟨out, hsift, hheap, hperm⟩ := siftUp_settles (gtSubrec_total hA.dir fun c => T c.score)
    (fun hx hy => hA.cellCmp_eq hx hy) (r := ⟨score, ekey.take A.size⟩)
    (bins ++ [zeroSubrec A.size]) (n := bins.length)
    (by rw [List.length_append, List.length_singleton]; omega)
    (by
      rw [hset]
      intro x hx
      rcases List.mem_append.mp hx with hx | hx
      · exact hbinsT x hx
      · rw [List.mem_singleton.mp hx]
        exact hscore)
    (by
      rw [hset]
      exact h.heap.append _)
  rw [hset] at hperm
  have hlimit : A.limit = m := by rw [hA.limit]; exact toInt_of_fits ⟨by omega, by omega⟩
  have hcount : A.count (toInt (ri.nSubrecs + 1)) = (adds.length + 1 : Nat) := by
    rw [h.stores.count, toInt_succ]
    exact hA.count _ (by omega)
  have hpos := hA.pos
  have hpush (k : Nat) : subrecsPush ri.subrecs A.size (A.count (toInt (ri.nSubrecs + 1)))
      (toInt score) ekey A.dir k =
        (siftUp (cellCmp A.dir) ⟨score, ekey.take A.size⟩ k (bins ++ [zeroSubrec A.size])
          bins.length).map fun bins => pack bins ++ List.replicate (n - (A.size + 4)) 0 := by
    have hplace : ((adds.length + 1 : Nat) - 1 : Int).toNat = bins.length := by
      rw [hbins]
      omega
    rw [hcount, subrecsPush, if_neg (by omega), hplace, hbytes', toInt_of_fits hc.fits]
    exact pushLoop_pack hc k hcellsOk (by rw [List.length_append, List.length_singleton]; omega)
  have houtOk : ∀ c ∈ out, c.Ok A.size := by
    intro c hcmem
    rcases List.mem_append.mp (hperm.mem_iff.mp hcmem) with hcmem | hcmem
    · exact h.stores.bins_ok c hcmem
    · rw [List.mem_singleton.mp hcmem]
      exact hc
  have houtLen : out.length = adds.length + 1 := by
    rw [hperm.length_eq, List.length_append, hbins, List.length_singleton]
  refine ⟨{ counted ri score with
    subrecs := pack out ++ List.replicate (n - (A.size + 4)) 0 }, out, ?_, ?_, ?_, hheap, ?_⟩
  · refine Settles.congr (fun k => ?_) (hsift.map fun bins =>
      { counted ri score with subrecs := pack bins ++ List.replicate (n - (A.size + 4)) 0 })
    rw [addSubrec_of_push (by omega) (by rw [hcount, hlimit]; omega), hpush, Option.map_map]
    rfl
  · refine ⟨?_, ⟨_, rfl⟩, ?_, ?_, houtOk⟩
    · show toInt (ri.nSubrecs + 1) = _
      rw [h.stores.count, toInt_succ, List.length_append, List.length_singleton]
    · show (pack out ++ List.replicate _ 0).length = room
      have hroom' := h.stores.length
      rw [hbytes, List.length_append, hpack, List.length_replicate, hbins] at hroom'
      rw [List.length_append, length_pack houtOk, houtLen, List.length_replicate, Nat.add_mul]
      omega
    · rw [houtLen, List.length_append, List.length_singleton]
      omega
  · exact h.best.push hbins hperm
  · rw [List.length_append, List.length_singleton]
    omega

/-- The first byte of the root. -/
theorem Holding.head_eq (h : Holding A m room adds bins ri) {root : SubRec}
    (hroot : bins[0]? = some root) :
    ∃ b, ri.subrecs.head? = some b ∧ (b.toNat : Int) = root.score % 256 := by
  obtain ⟨n, hbytes⟩ := h.stores.bytes
  obtain ⟨tail, rfl⟩ : ∃ tail, bins = root :: tail := by
    cases bins with
    | nil => simp at hroot
    | cons x tail => exact ⟨tail, by simpa using hroot⟩
  refine ⟨cByte (toU32 root.score), by rw [hbytes]; rfl, ?_⟩
  have hu : ((toU32 root.score : Nat) : Int) = root.score % 2 ^ 32 :=
    Int.toNat_of_nonneg (Int.emod_nonneg _ (by norm_num))
  rw [toNat_cByte, Int.natCast_mod, hu]
  exact Int.emod_emod_of_dvd _ (by norm_num)

/-- The numbers that a call compares when the sub-records to be kept are complete. -/
theorem Holding.full_eq (hA : A.Ok m T) (hm : m < 2 ^ 31) (h : Holding A m room adds bins ri)
    (hadds : m ≤ adds.length) (hcount : adds.length + 1 < 2 ^ 31) :
    bins.length = m ∧ A.limit = m ∧
      A.count (toInt (ri.nSubrecs + 1)) = (adds.length + 1 : Nat) := by
  refine ⟨by rw [h.stores.bins_length, Nat.min_eq_left hadds], ?_, ?_⟩
  · rw [hA.limit]
    exact toInt_of_fits ⟨by omega, by omega⟩
  · rw [h.stores.count, toInt_succ]
    exact hA.count _ hcount

/-- A new sub-record that is left out. -/
theorem Holding.leave (ekey : List UInt8) (hA : A.Ok m T) (hm : m < 2 ^ 31)
    (h : Holding A m room adds bins ri)
    (hadds : m ≤ adds.length) (hcount : adds.length + 1 < 2 ^ 31) {root : SubRec}
    (hroot : bins[0]? = some root)
    (htest : ¬A.rootCmp score (root.score % 256) A.dir = true) :
    Settles (addSubrec A ri score ekey) (counted ri score) ∧
      Stores m A.size room (adds ++ [⟨score, ekey.take A.size⟩]) bins (counted ri score) := by
  obtain ⟨hbins, hlimit, hc⟩ := h.full_eq hA hm hadds hcount
  obtain ⟨b, hb, hbyte⟩ := h.head_eq hroot
  have hpos := hA.pos
  constructor
  · refine Settles.congr (fun k => ?_) (Settles.pure _)
    rw [addSubrec_of_full (by omega) (by rw [hc, hlimit]; omega), hb, Option.bind_some, hbyte,
      if_neg htest]
  · refine ⟨?_, h.stores.bytes, h.stores.length, ?_, h.stores.bins_ok⟩
    · show toInt (ri.nSubrecs + 1) = _
      rw [h.stores.count, toInt_succ, List.length_append, List.length_singleton]
    · rw [hbins, List.length_append, List.length_singleton]
      omega

/-- A new sub-record that takes the place of the root. -/
theorem Holding.replace (hA : A.Ok m T) (hm : m < 2 ^ 31) (h : Holding A m room adds bins ri)
    (hT : ∀ c ∈ adds, T c.score) (hscore : T score) (hlen : A.size ≤ ekey.length)
    (hadds : m ≤ adds.length) (hcount : adds.length + 1 < 2 ^ 31) {root : SubRec}
    (hroot : bins[0]? = some root) (htest : A.rootCmp score (root.score % 256) A.dir = true) :
    ∃ ri' bins', Settles (addSubrec A ri score ekey) ri' ∧
      Stores m A.size room (adds ++ [⟨score, ekey.take A.size⟩]) bins' ri' ∧
      IsHeap (gtSubrec A.dir) bins' ∧ bins'.Perm (bins.set 0 ⟨score, ekey.take A.size⟩) := by
  obtain ⟨hbins, hlimit, hcnt⟩ := h.full_eq hA hm hadds hcount
  obtain ⟨b, hb, hbyte⟩ := h.head_eq hroot
  obtain ⟨n, hbytes⟩ := h.stores.bytes
  have hpos := hA.pos
  have hc : (⟨score, ekey.take A.size⟩ : SubRec).Ok A.size :=
    ⟨hA.fits _ hscore, List.length_take_of_le hlen⟩
  have hbinsT := forall_score_of_mem h.best hT
  obtain ⟨out, hsift, hheap, hperm⟩ := siftDown_settles
    (gtSubrec_total hA.dir fun c => T c.score) (fun hx hy => hA.cellCmp_eq hx hy)
    (r := ⟨score, ekey.take A.size⟩) bins (n := 0) (by omega)
    (by
      intro x hx
      rcases List.mem_or_eq_of_mem_set hx with hx | rfl
      · exact hbinsT x hx
      · exact hscore)
    (h.heap.set_root _)
  have houtOk : ∀ c ∈ out, c.Ok A.size := fun c hcmem =>
    set_ok h.stores.bins_ok hc 0 c (hperm.mem_iff.mp hcmem)
  have houtLen : out.length = m := by rw [hperm.length_eq, List.length_set, hbins]
  have hrun (k : Nat) : subrecsReplaceMin ri.subrecs A.size A.limit (toInt score) ekey A.dir k =
      (siftDown (cellCmp A.dir) ⟨score, ekey.take A.size⟩ k bins 0).map
        fun bins => pack bins ++ List.replicate n 0 := by
    rw [subrecsReplaceMin, hlimit, ← hbins, hbytes, toInt_of_fits hc.fits]
    exact replaceLoop_pack hc k h.stores.bins_ok (by omega)
  refine ⟨{ counted ri score with subrecs := pack out ++ List.replicate n 0 }, out, ?_,
    ⟨?_, ⟨n, rfl⟩, ?_, ?_, houtOk⟩, hheap, hperm⟩
  · refine Settles.congr (fun k => ?_) (hsift.map fun bins =>
      { counted ri score with subrecs := pack bins ++ List.replicate n 0 })
    rw [addSubrec_of_full (by omega) (by rw [hcnt, hlimit]; omega), hb, Option.bind_some, hbyte,
      if_pos htest, hrun, Option.map_map]
    rfl
  · show toInt (ri.nSubrecs + 1) = _
    rw [h.stores.count, toInt_succ, List.length_append, List.length_singleton]
  · show (pack out ++ List.replicate n 0).length = room
    have hlen' := h.stores.length
    rw [hbytes, List.length_append, length_pack h.stores.bins_ok, hbins] at hlen'
    rw [List.length_append, length_pack houtOk, houtLen]
    exact hlen'
  · rw [houtLen, List.length_append, List.length_singleton]
    omega

/-- A write beyond the end of the array. -/
theorem writeAt_none {a bs : List UInt8} {i : Nat} (h : a.length < i + bs.length) :
    writeAt a i bs = none := by rw [writeAt, if_neg (by omega)]

/-- Where there is no room for the new place, `subrecs_push` writes beyond the array. -/
theorem pushLoop_none {size n : Nat} {dir : Int} {subrecs body : List UInt8}
    (hbody : size ≤ body.length) (hroom : subrecs.length < (n + 1) * (size + 4)) (k : Nat) :
    (pushLoop size score dir k subrecs n).bind
      (fun (subrecs, n) => subrecsStore subrecs size n score body) = none := by
  rw [Nat.add_mul] at hroom
  have hstore : subrecsStore subrecs size n score body = none := by
    apply writeAt_none
    rw [List.length_append, length_le32, List.length_take_of_le hbody]
    omega
  cases k with
  | zero => rfl
  | succ k =>
      rw [pushLoop]
      by_cases hzero : n = 0
      · rw [if_pos hzero]
        exact hstore
      · rw [if_neg hzero]
        cases subrecsNth subrecs size ((n - 1) / 2) with
        | none => rfl
        | some c2 =>
            rw [Option.bind_some]
            by_cases hcmp : subrecsCmp score c2 dir = true
            · rw [if_pos hcmp]
              exact hstore
            · have hcopy : subrecsCopy subrecs size n ((n - 1) / 2) = none := by
                rw [subrecsCopy]
                split
                · next hle =>
                    apply writeAt_none
                    rw [List.length_take, List.length_drop]
                    omega
                · rfl
              rw [if_neg hcmp, hcopy]
              rfl

theorem not_settles_none {α : Type} {f : Nat → Option α} (h : ∀ k, f k = none) (a : α) :
    ¬Settles f a := by
  rintro ⟨n, hn⟩
  have := hn n (le_refl n)
  rw [h] at this
  cases this

/-- Once the number of sub-records has left the positive `int`, a call leaves the array. -/
theorem Holding.not_settles_count (hA : A.Ok m T) (hm : m < 2 ^ 31)
    (h : Holding A m room adds bins ri) (hcount : adds.length + 1 = 2 ^ 31) :
    ¬Settles (addSubrec A ri score ekey) ri' := by
  have hlimit : A.limit = m := by rw [hA.limit]; exact toInt_of_fits ⟨by omega, by omega⟩
  have hpos := hA.pos
  have htop : A.count (toInt (ri.nSubrecs + 1)) ≤ 0 := by
    rw [h.stores.count, toInt_succ, hcount]
    exact hA.count_top
  apply not_settles_none
  intro k
  rw [addSubrec_of_push (by omega) (by omega), subrecsPush, if_pos htop]
  rfl

/-- So it does where there is no room. -/
theorem Holding.not_settles_room (hA : A.Ok m T) (hm : m < 2 ^ 31)
    (h : Holding A m room adds bins ri) (hlen : A.size ≤ ekey.length) (hadds : adds.length < m)
    (hroom : room < (adds.length + 1) * (A.size + 4)) :
    ¬Settles (addSubrec A ri score ekey) ri' := by
  have hlimit : A.limit = m := by rw [hA.limit]; exact toInt_of_fits ⟨by omega, by omega⟩
  have hcount : A.count (toInt (ri.nSubrecs + 1)) = (adds.length + 1 : Nat) := by
    rw [h.stores.count, toInt_succ]
    exact hA.count _ (by omega)
  apply not_settles_none
  intro k
  have hplace : ((adds.length + 1 : Nat) - 1 : Int).toNat = adds.length := by omega
  rw [addSubrec_of_push (by omega) (by rw [hcount, hlimit]; omega), hcount, subrecsPush,
    if_neg (by omega), hplace, pushLoop_none hlen (by rw [h.stores.length]; exact hroom)]
  rfl

/-! ## More sub-records than an `int` can count

With a negative limit the loop of `subrecs_replace_min` stops at once, so every sub-record
is written to the first place. -/

theorem replaceMin_of_neg {limit : Int} (hlimit : limit < 0) (subrecs body : List UInt8)
    (size : Nat) (dir : Int) {out : List UInt8}
    (h : subrecsStore subrecs size 0 score body = some out) :
    Settles (subrecsReplaceMin subrecs size limit score body dir) out := by
  refine ⟨1, fun k hk => ?_⟩
  obtain ⟨k, rfl⟩ := Nat.exists_eq_add_of_le' hk
  have hchild (n : Nat) : subrecsChild subrecs size n limit = some none := by
    rw [subrecsChild, if_neg (by omega)]
  rw [subrecsReplaceMin, replaceLoop, hchild, Option.bind_some, hchild, Option.bind_some]
  exact h

theorem replaceMin_none_of_neg {limit : Int} (hlimit : limit < 0) (subrecs body : List UInt8)
    (size : Nat) (dir : Int) (h : subrecsStore subrecs size 0 score body = none) (k : Nat) :
    subrecsReplaceMin subrecs size limit score body dir k = none := by
  cases k with
  | zero => rfl
  | succ k =>
      have hchild (n : Nat) : subrecsChild subrecs size n limit = some none := by
        rw [subrecsChild, if_neg (by omega)]
      rw [subrecsReplaceMin, replaceLoop, hchild, Option.bind_some, hchild, Option.bind_some]
      exact h

theorem SubrecArg.Ok.limit_neg (hA : A.Ok m T) (hm : 2 ^ 31 ≤ m) : A.limit < 0 := by
  have hlt := hA.lt
  have hmod : (m : Int).bmod (2 ^ 32) = ((m : Int) - 2 ^ 32).bmod (2 ^ 32) := by
    rw [show ((m : Int) - 2 ^ 32) = (m : Int) + (2 ^ 32 : Nat) * (-1) by push_cast; ring,
      Int.add_mul_bmod_self_left]
  have hval : ((m : Int) - 2 ^ 32).bmod (2 ^ 32) = (m : Int) - 2 ^ 32 :=
    toInt_of_fits ⟨by omega, by omega⟩
  rw [hA.limit, toInt, hmod, hval]
  omega

/-- The first sub-record is written to the first place. -/
theorem Holding.first (hA : A.Ok m T) (hm : 2 ^ 31 ≤ m) (h : Holding A m room [] bins ri)
    (hscore : T score) (hlen : A.size ≤ ekey.length) (hroom : A.size + 4 ≤ room) :
    ∃ ri' bins', Settles (addSubrec A ri score ekey) ri' ∧
      Holding A m room ([] ++ [⟨score, ekey.take A.size⟩]) bins' ri' := by
  have hneg := hA.limit_neg hm
  obtain ⟨n, hbytes⟩ := h.stores.bytes
  have hbins : bins = [] := List.length_eq_zero_iff.mp (by simpa using h.stores.bins_length)
  have hc : (⟨score, ekey.take A.size⟩ : SubRec).Ok A.size :=
    ⟨hA.fits _ hscore, List.length_take_of_le hlen⟩
  have hn : n = room := by
    have := h.stores.length
    rwa [hbytes, hbins, List.length_append, List.length_replicate, pack, List.flatMap_nil,
      List.length_nil, Nat.zero_add] at this
  have hbytes' : ri.subrecs =
      pack [zeroSubrec A.size] ++ List.replicate (room - (A.size + 4)) 0 := by
    have hz : pack [zeroSubrec A.size] = List.replicate (A.size + 4) 0 := by
      rw [← zeroSubrec_bytes]
      exact List.append_nil _
    rw [hz, List.replicate_append_replicate, Nat.add_sub_cancel' hroom, hbytes, hbins, hn]
    rfl
  have hstore := subrecsStore_pack (n := 0) (List.replicate (room - (A.size + 4)) 0)
    (show ∀ c ∈ [zeroSubrec A.size], c.Ok A.size by simpa using zeroSubrec_ok A.size)
    Nat.zero_lt_one hc
  rw [← hbytes', List.set_cons_zero] at hstore
  have hcount : A.count (toInt (ri.nSubrecs + 1)) = 1 := by
    rw [h.stores.count, toInt_succ]
    exact hA.count 1 (by norm_num)
  have hhead : ri.subrecs.head? = some 0 := by
    rw [hbytes, hbins, hn]
    cases room with
    | zero => omega
    | succ room => rfl
  have htest : A.rootCmp score ((0 : UInt8).toNat : Nat) A.dir = true :=
    ((hA.clear.resolve_left (by omega)) score hscore).2
  have hrun := replaceMin_of_neg hneg ri.subrecs ekey A.size A.dir hstore
  refine ⟨{ counted ri score with
    subrecs := pack [⟨score, ekey.take A.size⟩] ++ List.replicate (room - (A.size + 4)) 0 },
    [⟨score, ekey.take A.size⟩], ?_, ?_⟩
  · refine Settles.congr (fun k => ?_) (hrun.map fun subrecs =>
      { counted ri score with subrecs := subrecs })
    rw [addSubrec_of_full (by omega) (by omega), hhead, Option.bind_some, if_pos htest,
      toInt_of_fits hc.fits]
  · refine ⟨⟨?_, ⟨_, rfl⟩, ?_, ?_, by simpa using hc⟩, ⟨[], by simp, by simp⟩,
      isHeap_of_length_le (le_refl 1), by norm_num⟩
    · show toInt (ri.nSubrecs + 1) = _
      rw [h.stores.count, toInt_succ]
      rfl
    · show (pack _ ++ List.replicate _ 0).length = room
      rw [List.length_append, length_pack (by simpa using hc), List.length_replicate]
      simp only [List.length_singleton]
      omega
    · simp only [List.nil_append, List.length_singleton]
      omega

/-- Without room for it the first sub-record is written beyond the array. -/
theorem Holding.not_settles_first (hA : A.Ok m T) (hm : 2 ^ 31 ≤ m)
    (h : Holding A m room [] bins ri) (hscore : T score) (hlen : A.size ≤ ekey.length)
    (hroom : room < A.size + 4) : ¬Settles (addSubrec A ri score ekey) ri' := by
  have hneg := hA.limit_neg hm
  have hcount : A.count (toInt (ri.nSubrecs + 1)) = 1 := by
    rw [h.stores.count, toInt_succ]
    exact hA.count 1 (by norm_num)
  obtain ⟨n, hbytes⟩ := h.stores.bytes
  have hbins : bins = [] := List.length_eq_zero_iff.mp (by simpa using h.stores.bins_length)
  have htest : A.rootCmp score ((0 : UInt8).toNat : Nat) A.dir = true :=
    ((hA.clear.resolve_left (by omega)) score hscore).2
  have hstore : subrecsStore ri.subrecs A.size 0 (toInt score) ekey = none := by
    apply writeAt_none
    rw [List.length_append, length_le32, List.length_take_of_le hlen, h.stores.length]
    omega
  apply not_settles_none
  intro k
  rw [addSubrec_of_full (by omega) (by omega)]
  cases n with
  | zero =>
      rw [hbytes, hbins]
      rfl
  | succ n =>
      have hhead : ri.subrecs.head? = some 0 := by
        rw [hbytes, hbins]
        rfl
      rw [hhead, Option.bind_some, if_pos htest,
        replaceMin_none_of_neg hneg _ _ _ _ hstore]
      rfl

/-- A second sub-record does not get a place of its own. -/
theorem Holding.not_keepsBest_second (hA : A.Ok m T) (hm : 2 ^ 31 ≤ m)
    (h : Holding A m room adds bins ri) (hT : ∀ c ∈ adds, T c.score) (hscore : T score)
    (hlen : A.size ≤ ekey.length) (hadds : adds ≠ [])
    (hset : Settles (addSubrec A ri score ekey) ri') :
    ¬KeepsBest A m (adds ++ [⟨score, ekey.take A.size⟩]) ri' := by
  have hneg := hA.limit_neg hm
  obtain ⟨n, hbytes⟩ := h.stores.bytes
  have hfew := h.few
  have hbins : bins.length = adds.length := by
    rw [h.stores.bins_length, Nat.min_eq_right (by omega)]
  have hpos : 0 < bins.length := by
    rw [hbins]
    exact List.length_pos_iff.mpr hadds
  have hc : (⟨score, ekey.take A.size⟩ : SubRec).Ok A.size :=
    ⟨hA.fits _ hscore, List.length_take_of_le hlen⟩
  -- the call changes at most the first place
  obtain ⟨cells, hcells, hcellsLen, hout⟩ : ∃ cells : List SubRec, (∀ c ∈ cells, c.Ok A.size) ∧
      cells.length = adds.length ∧ ri'.subrecs = pack cells ++ List.replicate n 0 := by
    by_cases hcount : A.limit < A.count (toInt (ri.nSubrecs + 1))
    · obtain ⟨root, hroot⟩ : ∃ root, bins[0]? = some root := ⟨_, List.getElem?_eq_getElem hpos⟩
      obtain ⟨b, hb, -⟩ := h.head_eq hroot
      by_cases htest : A.rootCmp score b.toNat A.dir = true
      · have hstore := subrecsStore_pack (n := 0)
          (List.replicate n 0) h.stores.bins_ok hpos hc
        rw [← hbytes] at hstore
        have hrun := (replaceMin_of_neg hneg ri.subrecs ekey A.size A.dir hstore).map
          fun subrecs => { counted ri score with subrecs := subrecs }
        have hrun' : Settles (addSubrec A ri score ekey) { counted ri score with
            subrecs := pack (bins.set 0 ⟨score, ekey.take A.size⟩) ++ List.replicate n 0 } := by
          refine Settles.congr (fun k => ?_) hrun
          rw [addSubrec_of_full (by omega) hcount, hb, Option.bind_some, if_pos htest,
            toInt_of_fits hc.fits]
        refine ⟨bins.set 0 ⟨score, ekey.take A.size⟩, set_ok h.stores.bins_ok hc 0, ?_, ?_⟩
        · rw [List.length_set, hbins]
        · rw [hset.unique hrun']
      · have hrun : Settles (addSubrec A ri score ekey) (counted ri score) := by
          refine Settles.congr (fun k => ?_) (Settles.pure _)
          rw [addSubrec_of_full (by omega) hcount, hb, Option.bind_some, if_neg htest]
        refine ⟨bins, h.stores.bins_ok, hbins, ?_⟩
        rw [hset.unique hrun]
        exact hbytes
    · exfalso
      refine not_settles_none (fun k => ?_) ri' hset
      rw [addSubrec_of_push (by omega) hcount, subrecsPush, if_pos (by omega)]
      rfl
  rintro ⟨⟨left, hperm, -⟩, -⟩
  obtain ⟨body, hzero⟩ := unpack_zeros A.size n
  have hstored : stored m A.size (adds ++ [⟨score, ekey.take A.size⟩]) ri' =
      cells ++ [⟨0, body⟩] := by
    rw [stored, hout, List.length_append, List.length_singleton, Nat.min_eq_right (by omega),
      ← hcellsLen, unpack_pack_append hcells, hzero]
  have hmem : (⟨0, body⟩ : SubRec) ∈ adds ++ [⟨score, ekey.take A.size⟩] := by
    rw [← hperm.mem_iff, hstored]
    simp
  have hzeroT : T (⟨0, body⟩ : SubRec).score := by
    rcases List.mem_append.mp hmem with hmem | hmem
    · exact hT _ hmem
    · rw [List.mem_singleton.mp hmem]
      exact hscore
  exact ((hA.clear.resolve_left (by omega)) _ hzeroT).1 rfl

theorem Holding.exists_root (hA : A.Ok m T) (h : Holding A m room adds bins ri)
    (hadds : m ≤ adds.length) : ∃ root, bins[0]? = some root := by
  have hpos := hA.pos
  have hlen := h.stores.bins_length
  exact ⟨_, List.getElem?_eq_getElem (by omega)⟩

/-- **A sound step** keeps the best sub-records. -/
theorem Holding.step (hA : A.Ok m T) (h : Holding A m room adds bins ri)
    (hT : ∀ c ∈ adds, T c.score) (hscore : T score) (hlen : A.size ≤ ekey.length)
    (hs : SoundStep A m room adds ⟨score, ekey.take A.size⟩) :
    ∃ ri' bins', Settles (addSubrec A ri score ekey) ri' ∧
      Holding A m room (adds ++ [⟨score, ekey.take A.size⟩]) bins' ri' := by
  have hcount := hs.count
  by_cases hm : m < 2 ^ 31
  · rcases Nat.lt_or_ge adds.length m with hadds | hadds
    · have hroom := hs.room
      rw [Nat.min_eq_right hadds] at hroom
      exact h.push hA hm hT hscore hlen hadds hroom
    · obtain ⟨root, hroot⟩ := h.exists_root hA hadds
      have hmin := IsHeap.root_not_better hA.dir h.heap hroot
      have htold := hs.told hadds root.score ((h.best.isWorst_iff hA.dir
        (by rw [h.stores.bins_length, Nat.min_eq_left hadds]) (List.mem_of_getElem? hroot) hmin
        root.score).mpr rfl)
      have hfew : (adds ++ [(⟨score, ekey.take A.size⟩ : SubRec)]).length < 2 ^ 31 := by
        rw [List.length_append, List.length_singleton]
        exact hcount
      by_cases htest : A.rootCmp score (root.score % 256) A.dir = true
      · rw [RootTold, if_pos htest] at htold
        obtain ⟨ri', bins', hset, hstores, hheap, hperm⟩ :=
          h.replace hA hm hT hscore hlen hadds hcount hroot htest
        exact ⟨ri', bins', hset, hstores, (h.best.replace_iff hA.dir hroot hmin hperm).mpr htold,
          hheap, hfew⟩
      · rw [RootTold, if_neg htest] at htold
        obtain ⟨hset, hstores⟩ := h.leave ekey hA hm hadds hcount hroot htest
        exact ⟨_, bins, hset, hstores,
          (h.best.keep_iff hA.dir (List.mem_of_getElem? hroot) hmin).mpr htold, h.heap, hfew⟩
  · obtain rfl : adds = [] := hs.limit.resolve_left hm
    have hpos := hA.pos
    have hroom := hs.room
    rw [List.length_nil, Nat.min_eq_right (by omega), Nat.zero_add, Nat.one_mul] at hroom
    exact h.first hA (by omega) hscore hlen hroom

/-- A step after which the best sub-records are kept is sound. -/
theorem Holding.sound (hA : A.Ok m T) (h : Holding A m room adds bins ri)
    (hT : ∀ c ∈ adds, T c.score) (hscore : T score) (hlen : A.size ≤ ekey.length)
    (hset : Settles (addSubrec A ri score ekey) ri')
    (hbest : KeepsBest A m (adds ++ [⟨score, ekey.take A.size⟩]) ri') :
    SoundStep A m room adds ⟨score, ekey.take A.size⟩ := by
  have hfew := h.few
  have hpos := hA.pos
  by_cases hm : m < 2 ^ 31
  · have hcount : adds.length + 1 < 2 ^ 31 := by
      by_contra hge
      exact h.not_settles_count hA hm (by omega) hset
    refine ⟨hcount, ?_, Or.inl hm, ?_⟩
    · by_contra hroom
      rcases Nat.lt_or_ge adds.length m with hadds | hadds
      · rw [Nat.min_eq_right (by omega : adds.length + 1 ≤ m)] at hroom
        exact h.not_settles_room hA hm hlen hadds (by omega) hset
      · obtain ⟨n, hbytes⟩ := h.stores.bytes
        have hlength := h.stores.length
        rw [hbytes, List.length_append, length_pack h.stores.bins_ok, h.stores.bins_length,
          Nat.min_eq_left hadds] at hlength
        rw [Nat.min_eq_left (by omega)] at hroom
        omega
    · intro hadds w hw
      obtain ⟨root, hroot⟩ := h.exists_root hA hadds
      have hmin := IsHeap.root_not_better hA.dir h.heap hroot
      obtain rfl : w = root.score := (h.best.isWorst_iff hA.dir
        (by rw [h.stores.bins_length, Nat.min_eq_left hadds]) (List.mem_of_getElem? hroot) hmin
        w).mp hw
      by_cases htest : A.rootCmp score (root.score % 256) A.dir = true
      · obtain ⟨ri'', bins', hset', hstores, -, hperm⟩ :=
          h.replace hA hm hT hscore hlen hadds hcount hroot htest
        obtain rfl := hset.unique hset'
        have hb := hbest.best
        rw [hstores.stored_eq] at hb
        rw [RootTold, if_pos htest]
        exact (h.best.replace_iff hA.dir hroot hmin hperm).mp hb
      · obtain ⟨hset', hstores⟩ := h.leave ekey hA hm hadds hcount hroot htest
        obtain rfl := hset.unique hset'
        have hb := hbest.best
        rw [hstores.stored_eq] at hb
        rw [RootTold, if_neg htest]
        exact (h.best.keep_iff hA.dir (List.mem_of_getElem? hroot) hmin).mp hb
  · obtain rfl : adds = [] := by
      by_contra hne
      exact h.not_keepsBest_second hA (by omega) hT hscore hlen hne hset hbest
    refine ⟨by norm_num, ?_, Or.inr rfl, fun hadds => ?_⟩
    · rw [List.length_nil, Nat.min_eq_right (by omega), Nat.zero_add, Nat.one_mul]
      by_contra hroom
      exact h.not_settles_first hA (by omega) hscore hlen (by omega) hset
    · rw [List.length_nil] at hadds
      omega

end

end Senna.Index
