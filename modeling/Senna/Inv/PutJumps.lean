/-
# Jumps lead on

A term owns the records that were put for it. Those on its list are in strict order along
`step`, the others have `jump` 1, and the jump of a record on the list leads to a record that
is strictly behind it, which may have been taken out meanwhile (`Linked`). `set_jump_r` keeps
this and writes no `step`, and a round of the walk of `buffer_put` passes records that are
below the new one.
-/

import Senna.Inv.BufferPut

namespace Senna.Inv

open Senna.Io Senna.Lib

namespace Buffer

/-- `BUFFER_REC_AT(b,pos)->step`. -/
def stepAt (b : Buffer) (pos : Nat) : Nat := ((b.recAt pos).map (·.step)).getD 0

/-- `BUFFER_REC_AT(b,pos)->jump`. -/
def jumpAt (b : Buffer) (pos : Nat) : Nat := ((b.recAt pos).map (·.jump)).getD 0

/-- What follows the record at `pos`. -/
def bodyAt (b : Buffer) (pos : Nat) : Option (List UInt8) := (b.recAt pos).map (·.body)

section

variable {b b' : Buffer} {p r j s : Nat} {d : DocId}

/-- The document of a record is read from its body. -/
theorem idAt_eq (b : Buffer) (p : Nat) :
    b.idAt p = (b.bodyAt p).bind fun bs => (readId bs).map (·.1) := by
  unfold idAt bodyAt
  cases b.recAt p with
  | none => rfl
  | some r => cases h : readId r.body <;> simp [h]

theorem idAt_congr (h : b'.bodyAt p = b.bodyAt p) : b'.idAt p = b.idAt p := by
  rw [idAt_eq, idAt_eq, h]

/-- A record that is about a document is there, with its links. -/
theorem recAt_of_idAt (h : b.idAt p = some d) :
    ∃ r, b.recAt p = some r ∧ r.step = b.stepAt p ∧ r.jump = b.jumpAt p := by
  unfold idAt at h
  cases hr : b.recAt p with
  | none => simp [hr] at h
  | some r => exact ⟨r, rfl, by simp [stepAt, hr], by simp [jumpAt, hr]⟩

/-- A new jump changes one field of one record. -/
theorem recAt_setJump (b : Buffer) (r j p : Nat) :
    (b.setJump r j).recAt p =
      if p = r then (b.recAt p).map fun x => { x with jump := j } else b.recAt p :=
  recAt_updRec _ _ _ _

/-- A new step changes one field of one record. -/
theorem recAt_setStep (b : Buffer) (r s p : Nat) :
    (b.setStep r s).recAt p =
      if p = r then (b.recAt p).map fun x => { x with step := s } else b.recAt p :=
  recAt_updRec _ _ _ _

/-- Links are no part of the bodies. -/
@[simp]
theorem bodyAt_setJump : (b.setJump r j).bodyAt p = b.bodyAt p := by
  unfold bodyAt
  rw [recAt_setJump]
  split <;> simp [Function.comp_def]

@[simp]
theorem bodyAt_setStep : (b.setStep r s).bodyAt p = b.bodyAt p := by
  unfold bodyAt
  rw [recAt_setStep]
  split <;> simp [Function.comp_def]

@[simp]
theorem idAt_setJump : (b.setJump r j).idAt p = b.idAt p := idAt_congr bodyAt_setJump

@[simp]
theorem idAt_setStep : (b.setStep r s).idAt p = b.idAt p := idAt_congr bodyAt_setStep

@[simp]
theorem stepAt_setJump : (b.setJump r j).stepAt p = b.stepAt p := by
  unfold stepAt
  rw [recAt_setJump]
  split <;> simp [Function.comp_def]

@[simp]
theorem jumpAt_setStep : (b.setStep r s).jumpAt p = b.jumpAt p := by
  unfold jumpAt
  rw [recAt_setStep]
  split <;> simp [Function.comp_def]

/-- The jump that was set, and the others as they were. -/
theorem jumpAt_setJump (h : b.idAt r = some d) :
    (b.setJump r j).jumpAt p = if p = r then j else b.jumpAt p := by
  obtain ⟨x, hx, -⟩ := recAt_of_idAt h
  unfold jumpAt
  rw [recAt_setJump]
  split_ifs with hp
  · rw [hp, hx]
    rfl
  · rfl

/-- The step that was set, and the others as they were. -/
theorem stepAt_setStep (h : b.idAt r = some d) :
    (b.setStep r s).stepAt p = if p = r then s else b.stepAt p := by
  obtain ⟨x, hx, -⟩ := recAt_of_idAt h
  unfold stepAt
  rw [recAt_setStep]
  split_ifs with hp
  · rw [hp, hx]
    rfl
  · rfl

end

/-- Only links of the records `S` are changed. -/
structure Touches (S : Set Nat) (b b' : Buffer) : Prop where
  body : ∀ p, b'.bodyAt p = b.bodyAt p
  frame : ∀ p ∉ S, b'.recAt p = b.recAt p

namespace Touches

variable {S T : Set Nat} {b b' b'' : Buffer} {r : Nat}

theorem refl (S : Set Nat) (b : Buffer) : Touches S b b := ⟨fun _ => rfl, fun _ _ => rfl⟩

theorem trans (h : Touches S b b') (h' : Touches S b' b'') : Touches S b b'' :=
  ⟨fun p => (h'.body p).trans (h.body p), fun p hp => (h'.frame p hp).trans (h.frame p hp)⟩

theorem mono (h : Touches S b b') (hST : S ⊆ T) : Touches T b b' :=
  ⟨h.body, fun p hp => h.frame p fun hpS => hp (hST hpS)⟩

theorem setJump (hr : r ∈ S) (j : Nat) : Touches S b (b.setJump r j) := by
  refine ⟨fun _ => bodyAt_setJump, fun p hp => ?_⟩
  rw [recAt_setJump, if_neg]
  rintro rfl
  exact hp hr

theorem setStep (hr : r ∈ S) (s : Nat) : Touches S b (b.setStep r s) := by
  refine ⟨fun _ => bodyAt_setStep, fun p hp => ?_⟩
  rw [recAt_setStep, if_neg]
  rintro rfl
  exact hp hr

theorem idAt (h : Touches S b b') (p : Nat) : b'.idAt p = b.idAt p := idAt_congr (h.body p)

end Touches

/-- The records `own` of a term, of which those on its list are `L`. -/
structure Linked (id : Nat → DocId) (own : Set Nat) (L : List Nat) (b : Buffer) : Prop where
  held : ∀ p ∈ own, 1 < p ∧ b.idAt p = some (id p)
  mem : ∀ p ∈ L, p ∈ own
  dead : ∀ p ∈ own, (b.jumpAt p = 1 ↔ p ∉ L)
  sorted : L.Pairwise fun p q => id p < id q
  jump : ∀ p ∈ L, b.jumpAt p = 0 ∨ b.jumpAt p ∈ own ∧ id p < id (b.jumpAt p)

section

variable {id : Nat → DocId} {own : Set Nat} {L A B D : List Nat} {b : Buffer}
  {p r j s head : Nat}

/-- The records on the list are about the documents that `id` says. -/
theorem Linked.idAt (h : Linked id own L b) (hp : p ∈ L) : b.idAt p = some (id p) :=
  (h.held p (h.mem p hp)).2

/-- No record is twice on the list, as the documents grow along it. -/
theorem Linked.nodup (h : Linked id own L b) : L.Nodup := by
  apply List.Pairwise.imp _ h.sorted
  rintro p q hlt rfl
  exact DocId.lt_irrefl _ hlt

/-- Nothing in `Linked` depends on the steps. -/
theorem Linked.setStep (h : Linked id own L b) (r s : Nat) : Linked id own L (b.setStep r s) where
  held p hp := by simpa using h.held p hp
  mem := h.mem
  dead p hp := by simpa using h.dead p hp
  sorted := h.sorted
  jump p hp := by simpa using h.jump p hp

/-- A jump of a record on the list may lead to any record behind it. -/
theorem Linked.setJump (h : Linked id own L b) (hr : r ∈ L)
    (hj : j = 0 ∨ j ∈ own ∧ id r < id j) : Linked id own L (b.setJump r j) where
  held p hp := by simpa using h.held p hp
  mem := h.mem
  dead p hp := by
    rw [jumpAt_setJump (h.idAt hr)]
    split_ifs with hpr
    · rw [hpr]
      refine iff_of_false ?_ (not_not.mpr hr)
      rintro rfl
      rcases hj with hj | ⟨hj, -⟩
      · exact absurd hj (by decide)
      · exact absurd (h.held 1 hj).1 (by decide)
    · exact h.dead p hp
  sorted := h.sorted
  jump p hp := by
    rw [jumpAt_setJump (h.idAt hr)]
    split_ifs with hpr
    · rw [hpr]
      exact hj
    · exact h.jump p hp

/-- The `step` of a record on the list leads to the one that is next in order. -/
theorem Linked.step_cases (h : Linked id own L b) (hc : Chain b.stepAt 0 head L) (hr : r ∈ L) :
    (b.stepAt r = 0 ∧ ∀ q ∈ L, ¬ id r < id q) ∨
      (b.stepAt r ∈ L ∧ id r < id (b.stepAt r) ∧
        ∀ q ∈ L, id r < id q → b.stepAt r = q ∨ id (b.stepAt r) < id q) := by
  obtain ⟨A, B, rfl⟩ := List.append_of_mem hr
  obtain ⟨hA, hB, hcross⟩ := List.pairwise_append.mp h.sorted
  obtain ⟨hrB, hBs⟩ := List.pairwise_cons.mp hB
  obtain ⟨m, -, rfl, -, hchain⟩ := seg_append.mp hc
  -- nothing in front of the record is behind it
  have hleft : ∀ q ∈ A, ¬ id m < id q := fun q hq hlt =>
    DocId.lt_irrefl _ (DocId.lt_trans hlt (hcross q hq m List.mem_cons_self))
  cases B with
  | nil =>
      refine .inl ⟨hchain, fun q hq => ?_⟩
      rcases List.mem_append.mp hq with hq | hq
      · exact hleft q hq
      · rw [List.mem_singleton.mp hq]
        exact DocId.lt_irrefl _
  | cons c B =>
      obtain ⟨hstep, -, -⟩ := hchain
      rw [hstep]
      refine .inr ⟨by simp, hrB c List.mem_cons_self, fun q hq hlt => ?_⟩
      rcases List.mem_append.mp hq with hq | hq
      · exact absurd hlt (hleft q hq)
      · rcases List.mem_cons.mp hq with rfl | hq
        · exact absurd hlt (DocId.lt_irrefl _)
        · rcases List.mem_cons.mp hq with rfl | hq
          · exact .inl rfl
          · exact .inr ((List.pairwise_cons.mp hBs).1 q hq)

/-- `check_jump` has no objection to a jump from a record on the list to one behind it. -/
theorem Linked.checkJump (h : Linked id own L b) (hc : Chain b.stepAt 0 head L) (hr : r ∈ L)
    (hj : j ∈ L) (hlt : id r < id j) : b.checkJump r j = some .success := by
  obtain ⟨hj1, hidj⟩ := h.held j (h.mem j hj)
  obtain ⟨hr1, hidr⟩ := h.held r (h.mem r hr)
  obtain ⟨x, hx, hstep, -⟩ := recAt_of_idAt hidj
  have hcycle : x.step ≠ r := by
    rw [hstep]
    intro hback
    rcases h.step_cases hc hj with ⟨hzero, -⟩ | ⟨-, hup, -⟩
    · omega
    · rw [hback] at hup
      exact DocId.lt_irrefl _ (DocId.lt_trans hlt hup)
  have horder : ¬ ((id j).rid < (id r).rid ∨
      (id j).rid = (id r).rid ∧ (id j).sid ≤ (id r).sid) := by
    rw [DocId.lt_def] at hlt
    omega
  simp only [Buffer.checkJump, hidr, hidj, hx, Option.bind_eq_bind, Option.bind_some,
    if_neg hcycle, if_neg horder, if_neg (show j ≠ 0 by omega), if_neg (show j ≠ 1 by omega)]

/-- `set_jump_r` moves jumps and nothing else. -/
theorem Linked.setJumpR (h : Linked id own L b) (hc : Chain b.stepAt 0 head L) (hr : r ∈ L)
    (hj : 1 < j → j ∈ own ∧ (j ∈ L → r = j ∨ id r < id j)) (m : Nat) :
    ∃ rc b', setJumpR m b r j = some (rc, b') ∧ Linked id own L b' ∧ Touches own b b' ∧
      b'.stepAt = b.stepAt := by
  induction m generalizing b r j with
  | zero => exact ⟨_, b, rfl, h, .refl _ _, rfl⟩
  | succ m ih =>
      by_cases hj1 : j ≤ 1
      · exact ⟨.success, b, by simp [Buffer.setJumpR, hj1], h, .refl _ _, rfl⟩
      obtain ⟨hjown, hlive⟩ := hj (Nat.lt_of_not_le hj1)
      obtain ⟨x, hx, hxs, hxj⟩ := recAt_of_idAt (h.held j hjown).2
      obtain ⟨y, hy, hys, hyj⟩ := recAt_of_idAt (h.idAt hr)
      by_cases hstop : r = j ∨ x.deleted ∨ j = y.jump ∨ j = y.step
      · exact ⟨.success, b, by simp only [Buffer.setJumpR, if_neg hj1, hx, hy, Option.bind_eq_bind,
          Option.bind_some, if_pos hstop], h, .refl _ _, rfl⟩
      obtain ⟨hrj, hdel, -, -⟩ := not_or.mp hstop |>.imp_right fun h =>
        not_or.mp h |>.imp_right not_or.mp
      have hjL : j ∈ L := by
        by_contra hnot
        exact hdel (by simp [BufferRec.deleted, hxj, (h.dead j hjown).mpr hnot])
      have hlt : id r < id j := (hlive hjL).resolve_left hrj
      have hset : Linked id own L (b.setJump r j) := h.setJump hr (.inr ⟨hjown, hlt⟩)
      have htouch : Touches own b (b.setJump r j) := .setJump (h.mem r hr) j
      have hsteps : (b.setJump r j).stepAt = b.stepAt := funext fun _ => stepAt_setJump
      have hrun : Buffer.setJumpR (m + 1) b r j =
          if y.step = 0 then some (.abnormalError, b.setJump r j)
          else Buffer.setJumpR m (b.setJump r j) y.step y.jump := by
        simp only [Buffer.setJumpR, if_neg hj1, hx, hy, Option.bind_eq_bind, Option.bind_some,
          if_neg hstop, h.checkJump hc hr hjL hlt, ne_eq, not_true_eq_false, if_false]
      rw [hrun]
      split_ifs with hzero
      · exact ⟨_, _, rfl, hset, htouch, hsteps⟩
      · -- the old jump of the record is handed on to the next one
        rcases h.step_cases hc hr with ⟨hend, -⟩ | ⟨hnext, -, hbehind⟩
        · exact absurd (hys.trans hend) hzero
        · have hold : 1 < y.jump → y.jump ∈ own ∧
              (y.jump ∈ L → y.step = y.jump ∨ id y.step < id y.jump) := by
            intro hgt
            rcases h.jump r hr with h0 | ⟨hmem, hup⟩
            · omega
            · rw [hyj, hys]
              exact ⟨hmem, fun hin => hbehind _ hin hup⟩
          obtain ⟨rc, b', hb', hl, ht, hs⟩ := ih hset (hsteps ▸ hc) (hys ▸ hnext) hold
          exact ⟨rc, b', hb', hl, htouch.trans ht, hs.trans hsteps⟩

variable {u : DocId} {bt : BufferTerm} {w : Walk} {cur : Nat} {sar : Int → Nat → Int}

/-- The walk stands between the records `A`, which are below `u`, and the records `B`. -/
structure Between (id : Nat → DocId) (own : Set Nat) (u : DocId) (A B : List Nat) (b : Buffer)
    (bt : BufferTerm) (w : Walk) : Prop where
  linked : Linked id own (A ++ B) b
  chain : Chain b.stepAt 0 bt.posInBuffer (A ++ B)
  lastp : w.lastp = A.getLast?
  last : ∀ p ∈ A.getLast?, w.last = p
  below : ∀ p ∈ A, id p < u
  post : ∀ q ∈ B, ¬ id q < w.idPost
  start : w.reset = false → w.rStart ∈ A

/-- The link in front of `B` leads to `B`. -/
theorem link_between (h : Linked id own (A ++ B) b)
    (hc : Chain b.stepAt 0 bt.posInBuffer (A ++ B)) :
    ∃ c, b.link bt A.getLast? = some c ∧ Seg b.stepAt 0 bt.posInBuffer A c ∧
      Chain b.stepAt 0 c B := by
  obtain ⟨c, hA, hB⟩ := seg_append.mp hc
  refine ⟨c, ?_, hA, hB⟩
  rcases List.eq_nil_or_concat A with rfl | ⟨A, p, rfl⟩
  · exact congrArg some hA
  · rw [List.concat_eq_append] at *
    obtain ⟨m, -, rfl, -, rfl⟩ := seg_append.mp hA
    obtain ⟨r, hr, hstep, -⟩ := recAt_of_idAt (h.idAt (show m ∈ _ by simp))
    simp only [List.getLast?_append, List.getLast?_singleton, Option.some_or, link, hr,
      Option.map_some, hstep]

/-- The next jump starts at the record `cur` or where it was to start before. -/
theorem advance_spec (sar : Int → Nat → Int) (w : Walk) (cur : Nat) (delta : Int) :
    ((advance sar w cur delta).rStart = cur ∨ (advance sar w cur delta).rStart = w.rStart) ∧
      (advance sar w cur delta).idPost = w.idPost := by
  unfold advance
  split_ifs <;> simp

/-- What is moved are jumps of records in front of `cur`. -/
theorem moveJump_spec (hl : Linked id own (A ++ cur :: B) b)
    (hc : Chain b.stepAt 0 head (A ++ cur :: B)) (hstart : w.rStart ∈ A ++ [cur]) :
    ∃ b' w', b.moveJump w cur = some (b', w') ∧ Linked id own (A ++ cur :: B) b' ∧
      Touches own b b' ∧ b'.stepAt = b.stepAt ∧ w'.rStart = w.rStart ∧ w'.idPost = w.idPost := by
  have hcurL : cur ∈ A ++ cur :: B := by simp
  by_cases hmove : w.vhops < w.nhops
  · have hmem : w.rStart ∈ A ++ cur :: B := by
      rcases List.mem_append.mp hstart with hA | hc
      · exact List.mem_append_left _ hA
      · rw [List.mem_singleton.mp hc]
        exact hcurL
    have hle : w.rStart = cur ∨ id w.rStart < id cur := by
      rcases List.mem_append.mp hstart with hA | hc
      · exact .inr ((List.pairwise_append.mp hl.sorted).2.2 _ hA _ List.mem_cons_self)
      · exact .inl (List.mem_singleton.mp hc)
    obtain ⟨rc, b', hb', hl, ht, hs⟩ := hl.setJumpR hc hmem
      (fun _ => ⟨hl.mem cur hcurL, fun _ => hle⟩) maxJump
    refine ⟨b', w, ?_, hl, ht, hs, rfl, rfl⟩
    rw [moveJump, if_pos hmove, hb', Option.map_some]
  · exact ⟨b, { w with nhops := w.nhops + 1 }, if_neg hmove, hl, .refl _ _, rfl, rfl, rfl⟩

/-- Planning the next jump leaves the steps and the place of the walk as they are. -/
theorem schedule_spec (sar : Int → Nat → Int) (h : Between id own u A (cur :: B) b bt w) :
    ∃ b' w', b.schedule sar u w cur (id cur) = some (b', w') ∧
      Linked id own (A ++ cur :: B) b' ∧ Touches own b b' ∧ b'.stepAt = b.stepAt ∧
      w'.rStart ∈ A ++ [cur] ∧ w'.idPost = w.idPost := by
  by_cases hreset : w.reset = true
  · refine ⟨b, _, if_pos hreset, h.linked, .refl _ _, rfl, ?_, rfl⟩
    simp
  · obtain ⟨hstart, hpost⟩ := advance_spec sar w cur (idDelta (id cur) w.idStart)
    have hmem : (advance sar w cur (idDelta (id cur) w.idStart)).rStart ∈ A ++ [cur] := by
      rcases hstart with hst | hst
      · simp [hst]
      · rw [hst]
        exact List.mem_append_left _ (h.start (by simpa using hreset))
    obtain ⟨b', w', hb', hl, ht, hs, hst, hpo⟩ := moveJump_spec h.linked h.chain hmem
    refine ⟨b', w', ?_, hl, ht, hs, ?_, hpo.trans hpost⟩
    · rw [schedule, if_neg hreset, hb']
    · rw [hst]
      exact hmem

/-- The end of a round carries the walk on to a record that is below `u`. -/
theorem hop_spec (hl : Linked id own (A ++ cur :: B) b) (hcur : id cur < u) (w : Walk) :
    ∃ w' C E, b.hop u w cur = some w' ∧ cur :: B = C ++ E ∧ C ≠ [] ∧ (∀ p ∈ C, id p < u) ∧
      w'.lastp = C.getLast? ∧ (∀ p ∈ C.getLast?, w'.last = p) ∧ w'.rStart = w.rStart ∧
      w'.idPost = w.idPost ∧ cur ∈ C := by
  have hcurL : cur ∈ A ++ cur :: B := by simp
  obtain ⟨x, hx, -, hxj⟩ := recAt_of_idAt (hl.idAt hcurL)
  -- without a usable jump the walk goes on behind `cur`
  have hstay : ∀ w' : Walk, b.hop u w cur = some w' → w'.lastp = some cur → w'.last = cur →
      w'.rStart = w.rStart → w'.idPost = w.idPost → ∃ w' C E, b.hop u w cur = some w' ∧
        cur :: B = C ++ E ∧ C ≠ [] ∧ (∀ p ∈ C, id p < u) ∧ w'.lastp = C.getLast? ∧
        (∀ p ∈ C.getLast?, w'.last = p) ∧ w'.rStart = w.rStart ∧ w'.idPost = w.idPost ∧
        cur ∈ C := by
    intro w' hrun hlp hla hst hpo
    refine ⟨w', [cur], B, hrun, rfl, by simp, by simpa using hcur, hlp, by simpa using hla, hst,
      hpo, List.mem_singleton_self cur⟩
  by_cases hj : x.jump ≤ 1
  · refine hstay { w with last := cur, lastp := some cur, reset := false } ?_ rfl rfl rfl rfl
    simp only [hop, hx, Option.bind_eq_bind, Option.bind_some, if_pos hj]
  obtain ⟨hjown, hup⟩ : x.jump ∈ own ∧ id cur < id x.jump := by
    rcases hl.jump cur hcurL with h0 | hmem
    · omega
    · rwa [hxj]
  obtain ⟨y, hy, -, hyj⟩ := recAt_of_idAt (hl.held _ hjown).2
  by_cases hdel : y.deleted
  · refine hstay { w with last := cur, lastp := some cur, reset := false } ?_ rfl rfl rfl rfl
    simp only [hop, hx, hy, Option.bind_eq_bind, Option.bind_some, if_neg hj, if_pos hdel]
  by_cases hlt : id x.jump < u
  · -- the target is on the list, behind `cur`
    have hmem : x.jump ∈ A ++ cur :: B := by
      by_contra hnot
      exact hdel (by simp [BufferRec.deleted, hyj, (hl.dead _ hjown).mpr hnot])
    have hB : x.jump ∈ B := by
      rcases List.mem_append.mp hmem with hA | hin
      · have hback := (List.pairwise_append.mp hl.sorted).2.2 _ hA cur List.mem_cons_self
        exact absurd (DocId.lt_trans hup hback) (DocId.lt_irrefl _)
      · rcases List.mem_cons.mp hin with heq | hin
        · rw [heq] at hup
          exact absurd hup (DocId.lt_irrefl _)
        · exact hin
    obtain ⟨C, E, rfl⟩ := List.append_of_mem hB
    have hsorted : (C ++ x.jump :: E).Pairwise fun p q => id p < id q :=
      (List.pairwise_cons.mp (List.pairwise_append.mp hl.sorted).2.1).2
    refine ⟨{ w with last := x.jump, lastp := some x.jump, reset := false },
      cur :: (C ++ [x.jump]), E, ?_, by simp, by simp, ?_, ?_, ?_, rfl, rfl, by simp⟩
    · simp only [hop, hx, hy, Option.bind_eq_bind, Option.bind_some, if_neg hj, if_neg hdel,
        (hl.held _ hjown).2]
      rw [if_pos (DocId.lt_def.mp hlt)]
    · intro p hp
      simp only [List.mem_cons, List.mem_append, List.not_mem_nil, or_false] at hp
      rcases hp with rfl | hp | rfl
      · exact hcur
      · exact DocId.lt_trans
          ((List.pairwise_append.mp hsorted).2.2 p hp _ List.mem_cons_self) hlt
      · exact hlt
    · simp [List.getLast?_cons]
    · simp [List.getLast?_cons]
  · refine hstay { w with last := cur, lastp := some cur, reset := true } ?_ rfl rfl rfl rfl
    simp only [hop, hx, hy, Option.bind_eq_bind, Option.bind_some, if_neg hj, if_neg hdel,
      (hl.held _ hjown).2]
    rw [if_neg (DocId.lt_def.not.mp hlt)]

end

end Buffer

end Senna.Inv
