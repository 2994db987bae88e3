/-
# Sub-records as a list

The bytes of a record hold a list of sub-records and what is unused after them. Reading,
copying and writing a place of the bytes is reading, copying and writing a place of the
list, so the two functions of the heap are the two movements of `Lib.Heap` on the list.
-/

import Senna.Index.RecordsStream
import Senna.Index.Subrecs
import Senna.Io.Word

namespace Senna.Index

open Senna.Io Senna.Lib Senna.Set

/-- A sub-record: its score and its body. -/
structure SubRec where
  score : Int
  body : List UInt8
  deriving DecidableEq, Repr

namespace SubRec

/-- The score is an `int` and the body has the size of the bodies. -/
structure Ok (size : Nat) (c : SubRec) : Prop where
  fits : FitsInt c.score
  body_length : c.body.length = size

/-- The bytes of a sub-record. -/
def bytes (c : SubRec) : List UInt8 := le32 (toU32 c.score) ++ c.body

end SubRec

/-- The bytes of a list of sub-records. -/
def pack (cells : List SubRec) : List UInt8 := cells.flatMap SubRec.bytes

/-- The first `n` sub-records in an array of bytes. -/
def unpack (size : Nat) : Nat → List UInt8 → List SubRec
  | 0, _ => []
  | n + 1, bs =>
      ⟨toInt (((readLe32 bs).map Prod.fst).getD 0), (bs.drop 4).take size⟩ ::
        unpack size n (bs.drop (size + 4))

theorem toInt_of_fits {v : Int} (h : FitsInt v) : toInt v = v := by
  obtain ⟨hlo, hhi⟩ := h
  apply Int.bmod_eq_of_le <;> norm_num <;> omega

/-- An `int` is read back from its four bytes. -/
theorem toInt_toU32 {v : Int} (h : FitsInt v) : toInt (toU32 v) = v := by
  have hu : ((toU32 v : Nat) : Int) = v % 2 ^ 32 :=
    Int.toNat_of_nonneg (Int.emod_nonneg v (by norm_num))
  have hmod : (v % 2 ^ 32).bmod (2 ^ 32) = v.bmod (2 ^ 32) := Int.emod_bmod v (2 ^ 32)
  rw [hu, toInt, hmod]
  exact toInt_of_fits h

theorem toU32_lt (v : Int) : toU32 v < 2 ^ 32 := by
  have := Int.emod_lt_of_pos v (show (0 : Int) < 2 ^ 32 by norm_num)
  unfold toU32
  omega

/-- Four bytes are read back, whatever is behind them. -/
theorem readLe32_le32 {v : Nat} (hv : v < 2 ^ 32) (p : List UInt8) :
    readLe32 (le32 v ++ p) = some (v, p) := by
  simp only [le32, List.cons_append, List.nil_append, readLe32, toNat_cByte,
    Nat.shiftRight_eq_div_pow, Option.some.injEq, Prod.mk.injEq, and_true]
  omega

section

variable {size : Nat} {cells : List SubRec} {c : SubRec} {rest : List UInt8} {n m : Nat}

theorem SubRec.Ok.length_bytes (h : c.Ok size) : c.bytes.length = size + 4 := by
  rw [SubRec.bytes, List.length_append, h.body_length, length_le32, Nat.add_comm]

/-- The score is read from the head of a sub-record. -/
theorem SubRec.Ok.read_bytes (h : c.Ok size) (p : List UInt8) :
    (readLe32 (c.bytes ++ p)).map (fun v => toInt v.1) = some c.score := by
  rw [SubRec.bytes, List.append_assoc, readLe32_le32 (toU32_lt _), Option.map_some,
    toInt_toU32 h.fits]

/-- Each sub-record takes `size + 4` bytes. -/
theorem length_pack (h : ∀ c ∈ cells, c.Ok size) :
    (pack cells).length = cells.length * (size + 4) := by
  induction cells with
  | nil => simp [pack]
  | cons c cells ih =>
      have hc := (h c List.mem_cons_self).length_bytes
      have hrest := ih fun d hd => h d (List.mem_cons_of_mem c hd)
      rw [pack, List.flatMap_cons, List.length_append, hc]
      change _ + (pack cells).length = _
      rw [hrest, List.length_cons]
      ring

theorem pack_append (cells cells' : List SubRec) :
    pack (cells ++ cells') = pack cells ++ pack cells' := List.flatMap_append

/-- The bytes before, of and after a sub-record. -/
theorem pack_split (hn : n < cells.length) :
    pack cells ++ rest =
      pack (cells.take n) ++ (cells[n].bytes ++ (pack (cells.drop (n + 1)) ++ rest)) := by
  have hcells : cells = cells.take n ++ cells[n] :: cells.drop (n + 1) := by
    rw [← List.drop_eq_getElem_cons hn, List.take_append_drop]
  have hpack : pack cells =
      pack (cells.take n) ++ (cells[n].bytes ++ pack (cells.drop (n + 1))) := by
    conv_lhs => rw [hcells]
    rw [pack_append]
    rfl
  rw [hpack, List.append_assoc, List.append_assoc]

theorem length_pack_take (h : ∀ c ∈ cells, c.Ok size) (hn : n ≤ cells.length) :
    (pack (cells.take n)).length = n * (size + 4) := by
  rw [length_pack fun c hc => h c (List.mem_of_mem_take hc), List.length_take_of_le hn]

/-- The sub-record at `n` starts behind `n` of them. -/
theorem drop_pack (h : ∀ c ∈ cells, c.Ok size) (hn : n < cells.length) :
    (pack cells ++ rest).drop (n * (size + 4)) =
      cells[n].bytes ++ (pack (cells.drop (n + 1)) ++ rest) := by
  rw [pack_split hn, ← length_pack_take h hn.le, List.drop_left]

/-- `SUBRECS_NTH` reads the score of the sub-record at `n`. -/
theorem subrecsNth_pack (h : ∀ c ∈ cells, c.Ok size) (hn : n < cells.length) :
    subrecsNth (pack cells ++ rest) size n = some cells[n].score := by
  rw [subrecsNth, drop_pack h hn]
  exact (h _ (List.getElem_mem hn)).read_bytes _

/-- Writing a sub-record to a place. -/
theorem writeAt_pack (rest : List UInt8) (h : ∀ c ∈ cells, c.Ok size) (hn : n < cells.length)
    (hc : c.Ok size) :
    writeAt (pack cells ++ rest) (n * (size + 4)) c.bytes =
      some (pack (cells.set n c) ++ rest) := by
  have hlen := length_pack_take h hn.le
  have hset : cells.set n c = cells.take n ++ c :: cells.drop (n + 1) :=
      List.set_eq_take_append_cons_drop ▸ (if_pos hn)
  have hle : n * (size + 4) + c.bytes.length ≤ (pack cells ++ rest).length := by
    have hn1 : (n + 1) * (size + 4) ≤ cells.length * (size + 4) := Nat.mul_le_mul_right _ hn
    rw [hc.length_bytes, List.length_append, length_pack h]
    rw [Nat.add_mul] at hn1
    omega
  have htake : (pack cells ++ rest).take (n * (size + 4)) = pack (cells.take n) := by
    rw [pack_split hn, ← hlen, List.take_left]
  have hdrop : (pack cells ++ rest).drop (n * (size + 4) + c.bytes.length) =
      pack (cells.drop (n + 1)) ++ rest := by
    rw [← List.drop_drop, drop_pack h hn, hc.length_bytes,
      ← (h _ (List.getElem_mem hn)).length_bytes, List.drop_left]
  rw [writeAt, if_pos hle, htake, hdrop, hset, pack_append]
  simp [pack, List.append_assoc]

/-- A score and a body are stored as one sub-record. -/
theorem subrecsStore_pack (rest : List UInt8) (h : ∀ c ∈ cells, c.Ok size)
    (hn : n < cells.length) {score : Int}
    {body : List UInt8} (hc : (⟨score, body.take size⟩ : SubRec).Ok size) :
    subrecsStore (pack cells ++ rest) size n score body =
      some (pack (cells.set n ⟨score, body.take size⟩) ++ rest) := by
  have hwrite := writeAt_pack rest h hn hc
  rw [SubRec.bytes] at hwrite
  rw [subrecsStore]
  exact hwrite

/-- `SUBRECS_COPY` replaces the one sub-record by the other. -/
theorem subrecsCopy_pack (h : ∀ c ∈ cells, c.Ok size) (hn : n < cells.length)
    (hm : m < cells.length) :
    subrecsCopy (pack cells ++ rest) size n m = some (pack (cells.set n cells[m]) ++ rest) := by
  have hmc := h _ (List.getElem_mem hm)
  have hle : m * (size + 4) + (size + 4) ≤ (pack cells ++ rest).length := by
    have hm1 : (m + 1) * (size + 4) ≤ cells.length * (size + 4) := Nat.mul_le_mul_right _ hm
    rw [List.length_append, length_pack h]
    rw [Nat.add_mul] at hm1
    omega
  rw [subrecsCopy, if_pos hle, drop_pack h hm, ← hmc.length_bytes, List.take_left,
    hmc.length_bytes]
  exact writeAt_pack rest h hn hmc

theorem unpack_pack_append (h : ∀ c ∈ cells, c.Ok size) (n : Nat) (rest : List UInt8) :
    unpack size (cells.length + n) (pack cells ++ rest) = cells ++ unpack size n rest := by
  induction cells with
  | nil =>
      rw [List.length_nil, Nat.zero_add]
      rfl
  | cons c cells ih =>
      have hc := h c List.mem_cons_self
      have hread := hc.read_bytes (pack cells ++ rest)
      rw [Option.map_eq_some_iff] at hread
      obtain ⟨v, hv, hscore⟩ := hread
      have hpack : pack (c :: cells) ++ rest = c.bytes ++ (pack cells ++ rest) := by
        rw [← List.append_assoc]
        rfl
      have hbody : ((c.bytes ++ (pack cells ++ rest)).drop 4).take size = c.body := by
        rw [SubRec.bytes, List.append_assoc, ← length_le32 (toU32 c.score), List.drop_left,
          ← hc.body_length, List.take_left]
      rw [hpack, List.length_cons, Nat.add_right_comm, unpack, hv, hbody, ← hc.length_bytes,
        List.drop_left, ih fun d hd => h d (List.mem_cons_of_mem c hd), Option.map_some,
        Option.getD_some, hscore, List.cons_append]

/-- Sub-records are read back from their bytes. -/
theorem unpack_pack (h : ∀ c ∈ cells, c.Ok size) (rest : List UInt8) :
    unpack size cells.length (pack cells ++ rest) = cells := by
  have happend := unpack_pack_append h 0 rest
  rwa [Nat.add_zero, unpack, List.append_nil] at happend

/-- Cleared bytes hold a sub-record with the score 0. -/
theorem unpack_zeros (size n : Nat) :
    ∃ body, unpack size 1 (List.replicate n 0) = [⟨0, body⟩] := by
  refine ⟨((List.replicate n 0).drop 4).take size, ?_⟩
  have hscore : toInt (((readLe32 (List.replicate n 0)).map Prod.fst).getD 0) = 0 := by
    match n with
    | 0 => rfl
    | 1 => rfl
    | 2 => rfl
    | 3 => rfl
    | n + 4 => simp [List.replicate_succ, readLe32, toInt]
  rw [unpack, hscore]
  rfl

/-- `SUBRECS_CMP` of two sub-records. -/
def cellCmp (dir : Int) (x y : SubRec) : Option Bool := some (subrecsCmp x.score y.score dir)

variable {score dir : Int} {body : List UInt8}

/-- Replacing a sub-record by a good one. -/
theorem set_ok (h : ∀ c ∈ cells, c.Ok size) (hc : c.Ok size) (n : Nat) :
    ∀ d ∈ cells.set n c, d.Ok size := by
  intro d hd
  rcases List.mem_or_eq_of_mem_set hd with hd | rfl
  · exact h d hd
  · exact hc

/-- The loop of `subrecs_push` moves a sub-record up. -/
theorem pushLoop_pack (hc : (⟨score, body.take size⟩ : SubRec).Ok size) (k : Nat)
    (h : ∀ c ∈ cells, c.Ok size) (hn : n < cells.length) :
    (pushLoop size score dir k (pack cells ++ rest) n).bind
        (fun (subrecs, n) => subrecsStore subrecs size n score body) =
      (siftUp (cellCmp dir) ⟨score, body.take size⟩ k cells n).map fun bins =>
          pack bins ++ rest := by
  induction k generalizing cells n with
  | zero => rfl
  | succ k ih =>
      have hdone : subrecsStore (pack cells ++ rest) size n score body =
          (store cells n ⟨score, body.take size⟩).map fun bins => pack bins ++ rest := by
        rw [subrecsStore_pack rest h hn hc, store, if_pos hn, Option.map_some]
      rw [pushLoop, siftUp]
      by_cases hzero : n = 0
      · rw [if_pos hzero, if_pos hzero]
        exact hdone
      · have hp : (n - 1) / 2 < cells.length := by omega
        rw [if_neg hzero, if_neg hzero, subrecsNth_pack h hp, List.getElem?_eq_getElem hp,
          Option.bind_some, Option.bind_some, cellCmp, Option.bind_some]
        by_cases hcmp : subrecsCmp score cells[(n - 1) / 2].score dir = true
        · rw [if_pos hcmp, if_pos hcmp]
          exact hdone
        · rw [if_neg hcmp, if_neg hcmp, subrecsCopy_pack h hn hp, Option.bind_some, store,
            if_pos hn, Option.bind_some]
          exact ih (set_ok h (h _ (List.getElem_mem hp)) n) (by rwa [List.length_set])

/-- The child that is moved up is the one that `siftChild` chooses. -/
theorem siftChild_pick (dir : Int) (r : SubRec) (n1 n2 : Nat) (r1 r2 : Option SubRec) :
    pickChild r.score dir n1 n2 (r1.map SubRec.score) (r2.map SubRec.score) = none ∧
        siftChild (cellCmp dir) r n1 n2 r1 r2 = some none ∨
      ∃ i q, pickChild r.score dir n1 n2 (r1.map SubRec.score) (r2.map SubRec.score) = some i ∧
        siftChild (cellCmp dir) r n1 n2 r1 r2 = some (some (i, q)) ∧
        (i = n1 ∧ r1 = some q ∨ i = n2 ∧ r2 = some q) := by
  cases r1 with
  | none =>
      cases r2 with
      | none => exact Or.inl ⟨rfl, rfl⟩
      | some q2 =>
          cases h2 : subrecsCmp r.score q2.score dir with
          | false => exact Or.inl (by simp [pickChild, siftChild, andCmp, cellCmp, h2])
          | true =>
              exact Or.inr ⟨n2, q2, by simp [pickChild, siftChild, andCmp, cellCmp, h2]⟩
  | some q1 =>
      cases h1 : subrecsCmp r.score q1.score dir with
      | false =>
          cases r2 with
          | none => exact Or.inl (by simp [pickChild, siftChild, andCmp, cellCmp, h1])
          | some q2 =>
              cases h2 : subrecsCmp r.score q2.score dir with
              | false => exact Or.inl (by simp [pickChild, siftChild, andCmp, cellCmp, h1, h2])
              | true =>
                  exact Or.inr ⟨n2, q2, by simp [pickChild, siftChild, andCmp, cellCmp, h1, h2]⟩
      | true =>
          cases r2 with
          | none =>
              exact Or.inr ⟨n1, q1, by simp [pickChild, siftChild, andCmp, cellCmp, h1]⟩
          | some q2 =>
              cases h2 : subrecsCmp r.score q2.score dir with
              | false =>
                  exact Or.inr ⟨n1, q1, by simp [pickChild, siftChild, andCmp, cellCmp, h1, h2]⟩
              | true =>
                  cases h12 : subrecsCmp q1.score q2.score dir with
                  | false =>
                      exact Or.inr ⟨n1, q1,
                        by simp [pickChild, siftChild, andCmp, cellCmp, h1, h2, h12]⟩
                  | true =>
                      exact Or.inr ⟨n2, q2,
                        by simp [pickChild, siftChild, andCmp, cellCmp, h1, h2, h12]⟩

/-- The score of a child, if there is one. -/
theorem subrecsChild_pack (h : ∀ c ∈ cells, c.Ok size) (n : Nat) :
    subrecsChild (pack cells ++ rest) size n cells.length = some (cells[n]?.map SubRec.score) := by
  rw [subrecsChild]
  split
  · next hn =>
      have hn : n < cells.length := by omega
      rw [subrecsNth_pack h hn, List.getElem?_eq_getElem hn]
      rfl
  · next hn =>
      rw [List.getElem?_eq_none (by omega)]
      rfl

/-- The loop of `subrecs_replace_min` moves a sub-record down. -/
theorem replaceLoop_pack (hc : (⟨score, body.take size⟩ : SubRec).Ok size) (k : Nat)
    (h : ∀ c ∈ cells, c.Ok size) (hn : n < cells.length) :
    (replaceLoop size cells.length score dir k (pack cells ++ rest) n).bind
        (fun (subrecs, n) => subrecsStore subrecs size n score body) =
      (siftDown (cellCmp dir) ⟨score, body.take size⟩ k cells n).map
        fun bins => pack bins ++ rest := by
  induction k generalizing cells n with
  | zero => rfl
  | succ k ih =>
      have hstore (c : SubRec) : store cells n c = some (cells.set n c) := by
        rw [store, if_pos hn]
      rw [replaceLoop, siftDown, subrecsChild_pack h, Option.bind_some, subrecsChild_pack h,
        Option.bind_some]
      rcases siftChild_pick dir ⟨score, body.take size⟩ (n * 2 + 1) (n * 2 + 2)
        cells[n * 2 + 1]? cells[n * 2 + 2]? with ⟨hpick, hsift⟩ | ⟨i, q, hpick, hsift, hq⟩
      · dsimp only at hpick
        rw [hpick, hsift, Option.bind_some]
        show subrecsStore (pack cells ++ rest) size n score body = (store _ _ _).map _
        rw [subrecsStore_pack rest h hn hc, hstore, Option.map_some]
      · have hqi : cells[i]? = some q := by
          rcases hq with ⟨rfl, hq⟩ | ⟨rfl, hq⟩
          · exact hq
          · exact hq
        obtain ⟨hi, hget⟩ := List.getElem?_eq_some_iff.mp hqi
        dsimp only at hpick
        rw [hpick, hsift, Option.bind_some]
        show ((subrecsCopy _ size n i).bind _).bind _ = ((store cells n q).bind _).map _
        rw [subrecsCopy_pack h hn hi, hget, Option.bind_some, hstore, Option.bind_some]
        have hlen : (cells.length : Int) = ((cells.set n q).length : Nat) := by
          rw [List.length_set]
        rw [hlen]
        exact ih (set_ok h (hget ▸ h _ (List.getElem_mem hi)) n) (by rwa [List.length_set])

end

end Senna.Index
