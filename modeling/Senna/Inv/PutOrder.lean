/-
# The list of a term stays in order

Whatever the jumps are, `buffer_put` is insertion into an ordered list: the walk arrives at
the place where the new record belongs, what it takes out there is a front part of the rest,
and the new record is linked in between.
-/

import Senna.Inv.PutJumps
import Senna.Lib.Fuel

namespace Senna.Inv

open Senna.Io Senna.Lib

namespace Buffer

section

variable {id : Nat → DocId} {own : Set Nat} {L A B D : List Nat} {b : Buffer}
  {p r j s head : Nat} {u : DocId} {bt : BufferTerm} {w : Walk} {cur : Nat}
  {sar : Int → Nat → Int}

/-- Takes out the records `D`. -/
def delAll (b : Buffer) (D : List Nat) : Buffer := D.foldl del b

theorem Linked.del (h : Linked id own (A ++ r :: B) b) : Linked id own (A ++ B) (b.del r) := by
  have hnodup := List.nodup_middle.mp h.nodup
  have hsub : ∀ p ∈ A ++ B, p ∈ A ++ r :: B := by
    intro p hp
    simp only [List.mem_append, List.mem_cons] at hp ⊢
    tauto
  have hr : b.idAt r = some (id r) := h.idAt (by simp)
  have hne : ∀ p ∈ A ++ B, p ≠ r := by
    rintro p hp rfl
    exact (List.nodup_cons.mp hnodup).1 hp
  refine ⟨fun p hp => by simpa [Buffer.del] using h.held p hp, fun p hp => h.mem p (hsub p hp),
    fun p hp => ?_, h.sorted.sublist ((List.sublist_cons_self r B).append_left A), fun p hp => ?_⟩
  · rw [Buffer.del, jumpAt_setJump hr]
    split_ifs with hpr
    · rw [hpr]
      exact iff_of_true rfl (List.nodup_cons.mp hnodup).1
    · rw [h.dead p hp]
      simp [hpr]
  · rw [Buffer.del, jumpAt_setJump hr, if_neg (hne p hp)]
    exact h.jump p (hsub p hp)

theorem Linked.delAll (h : Linked id own (A ++ (D ++ B)) b) :
    Linked id own (A ++ B) (b.delAll D) := by
  induction D generalizing b with
  | nil => exact h
  | cons d D ih => exact ih (Linked.del h)

theorem touches_delAll (hD : ∀ d ∈ D, d ∈ own) : Touches own b (b.delAll D) := by
  induction D generalizing b with
  | nil => exact .refl _ _
  | cons d D ih =>
      rw [List.forall_mem_cons] at hD
      exact (Touches.setJump hD.1 1).trans (ih hD.2)

@[simp]
theorem stepAt_delAll (b : Buffer) (D : List Nat) : (b.delAll D).stepAt = b.stepAt := by
  induction D generalizing b with
  | nil => rfl
  | cons d D ih => exact (ih (b.del d)).trans (funext fun _ => stepAt_setJump)

/-- The loop for `u->sid == 0` takes out a front part of the list: the records of `rid`. -/
theorem delRid_spec (id : Nat → DocId) {rid : Nat} (hc : Chain b.stepAt 0 r B) (hB : B ≠ [])
    (hid : ∀ q ∈ B, b.idAt q = some (id q)) (hs : B.Pairwise fun p q => id p < id q)
    (hge : ∀ q ∈ B, rid ≤ (id q).rid) :
    ∃ D E s, B = D ++ E ∧ (∀ n ≥ B.length, b.delRid rid n r = some (b.delAll D, s)) ∧
      Chain b.stepAt 0 s E ∧ (∀ d ∈ D, (id d).rid = rid) ∧ ∀ q ∈ E, rid < (id q).rid := by
  induction B generalizing b r with
  | nil => exact absurd rfl hB
  | cons c B ih =>
      obtain ⟨rfl, hc0, hchain⟩ := hc
      have hidr := hid r List.mem_cons_self
      obtain ⟨x, hx, hxs, -⟩ := recAt_of_idAt hidr
      obtain ⟨hrB, hs⟩ := List.pairwise_cons.mp hs
      by_cases hrid : (id r).rid = rid
      · cases B with
        | nil =>
            refine ⟨[r], [], 0, rfl, fun n hn => ?_, rfl, by simpa using hrid, by simp⟩
            obtain ⟨m, rfl⟩ := Nat.exists_eq_add_of_lt hn
            simp only [delRid, hidr, hx, hxs, Option.bind_eq_bind, Option.bind_some, ne_eq, hrid,
              not_true_eq_false, if_false, show b.stepAt r = 0 from hchain, if_true]
            rfl
        | cons c B =>
            have hstep : b.stepAt r ≠ 0 := by
              rw [hchain.1]
              exact hchain.2.1
            have hsteps : (b.del r).stepAt = b.stepAt := funext fun _ => stepAt_setJump
            obtain ⟨D, E, s, hDE, hrun, hE, hD, hgt⟩ := ih (b := b.del r) (r := b.stepAt r)
              (by rw [hsteps]; exact hchain)
              (by simp) (fun q hq => by
                rw [Buffer.del, idAt_setJump]
                exact hid q (List.mem_cons_of_mem _ hq))
              hs fun q hq => hge q (List.mem_cons_of_mem _ hq)
            refine ⟨r :: D, E, s, by rw [hDE]; rfl, fun n hn => ?_, hsteps ▸ hE,
              List.forall_mem_cons.mpr ⟨hrid, hD⟩, hgt⟩
            obtain ⟨m, rfl⟩ := Nat.exists_eq_add_of_lt hn
            simp only [delRid, hidr, hx, hxs, Option.bind_eq_bind, Option.bind_some, ne_eq, hrid,
              not_true_eq_false, if_false, hstep]
            exact hrun _ (by simp only [List.length_cons] at hn ⊢; omega)
      · refine ⟨[], r :: B, r, rfl, fun n hn => ?_, ⟨rfl, hc0, hchain⟩, by simp, ?_⟩
        · obtain ⟨m, rfl⟩ := Nat.exists_eq_add_of_lt hn
          simp only [delRid, hidr, Option.bind_eq_bind, Option.bind_some, ne_eq, hrid,
            not_false_eq_true, if_true]
          rfl
        · have hlt : rid < (id r).rid :=
            lt_of_le_of_ne (hge r List.mem_cons_self) fun heq => hrid heq.symm
          intro q hq
          rcases List.mem_cons.mp hq with rfl | hq
          · exact hlt
          · have hup := hrB q hq
            rw [DocId.lt_def] at hup
            omega

variable {pos : Nat}

theorem Linked.new (h : Linked id own (A ++ B) b) (hpos : pos ∉ own) (h1 : 1 < pos)
    (hid : b.idAt pos = some (id pos)) (hA : ∀ p ∈ A, id p < id pos)
    (hB : ∀ q ∈ B, id pos < id q) (hj : j = 0 ∨ j ∈ own ∧ id pos < id j) (s : Nat) :
    Linked id (insert pos own) (A ++ pos :: B) ((b.setStep pos s).setJump pos j) := by
  have hid' : (b.setStep pos s).idAt pos = some (id pos) := by rwa [idAt_setStep]
  have hne : ∀ p ∈ own, p ≠ pos := fun p hp heq => hpos (heq ▸ hp)
  refine ⟨?_, ?_, ?_, ?_, ?_⟩
  · intro p hp
    rw [idAt_setJump, idAt_setStep]
    rcases hp with rfl | hp
    · exact ⟨h1, hid⟩
    · exact h.held p hp
  · intro p hp
    rcases List.mem_append.mp hp with hp | hp
    · exact .inr (h.mem p (List.mem_append_left _ hp))
    · rcases List.mem_cons.mp hp with rfl | hp
      · exact .inl rfl
      · exact .inr (h.mem p (List.mem_append_right _ hp))
  · intro p hp
    rw [jumpAt_setJump hid', jumpAt_setStep]
    rcases hp with rfl | hp
    · rw [if_pos rfl]
      refine iff_of_false ?_ (by simp)
      rintro rfl
      rcases hj with hj | ⟨hj, -⟩
      · exact absurd hj (by decide)
      · exact absurd (h.held 1 hj).1 (by decide)
    · rw [if_neg (hne p hp), h.dead p hp]
      simp [hne p hp]
  · rw [List.pairwise_append] at *
    obtain ⟨hAs, hBs, hcross⟩ := List.pairwise_append.mp h.sorted
    refine ⟨hAs, List.pairwise_cons.mpr ⟨hB, hBs⟩, fun p hp q hq => ?_⟩
    rcases List.mem_cons.mp hq with rfl | hq
    · exact hA p hp
    · exact hcross p hp q hq
  · intro p hp
    rw [jumpAt_setJump hid', jumpAt_setStep]
    split_ifs with hpp
    · rw [hpp]
      exact hj.imp_right fun hmem => ⟨.inr hmem.1, hmem.2⟩
    · have hmem : p ∈ A ++ B := by
        simp only [List.mem_append, List.mem_cons] at hp ⊢
        tauto
      exact (h.jump p hmem).imp_right fun hup => ⟨.inr hup.1, hup.2⟩

/-- The list after the link in front of the new record is set. -/
theorem chain_setLink (bt : BufferTerm) (h : Linked id own (A ++ pos :: B) b) {c : Nat}
    (hA : Seg b.stepAt 0 bt.posInBuffer A c) (hB : Chain b.stepAt 0 (b.stepAt pos) B)
    (hpos : pos ≠ 0) :
    Chain (b.setLink bt pos A.getLast?).1.stepAt 0 (b.setLink bt pos A.getLast?).2.posInBuffer
      (A ++ pos :: B) := by
  rcases List.eq_nil_or_concat A with rfl | ⟨A, m, rfl⟩
  · exact ⟨rfl, hpos, hB⟩
  · rw [List.concat_eq_append] at *
    obtain ⟨d, hsA, rfl, hm0, -⟩ := seg_append.mp hA
    have hm : b.idAt d = some (id d) := h.idAt (by simp)
    have hnodup := h.nodup
    rw [List.append_assoc, List.singleton_append] at hnodup
    have hnot := (List.nodup_cons.mp (List.nodup_middle.mp hnodup)).1
    simp only [List.getLast?_append, List.getLast?_singleton, Option.some_or, setLink]
    have hstep : ∀ q, (b.setStep d pos).stepAt q = if q = d then pos else b.stepAt q :=
      fun q => stepAt_setStep hm
    have hkeep : ∀ q ∈ A ++ pos :: B, (b.setStep d pos).stepAt q = b.stepAt q := by
      intro q hq
      rw [hstep, if_neg]
      rintro rfl
      exact hnot hq
    rw [List.append_assoc, List.singleton_append]
    refine seg_append.mpr ⟨d, hsA.congr fun q hq => hkeep q (List.mem_append_left _ hq), rfl, hm0,
      ?_, hpos, ?_⟩
    · rw [hstep, if_pos rfl]
    · rw [hkeep pos (by simp)]
      exact hB.congr fun q hq => hkeep q (by simp [hq])

/-- The new record stands between `A` and `B` then. -/
theorem Linked.splice (bt : BufferTerm) (h : Linked id own (A ++ B) b) {c : Nat}
    (hsA : Seg b.stepAt 0 bt.posInBuffer A c) (hsB : Chain b.stepAt 0 s B) (hpos : pos ∉ own)
    (h1 : 1 < pos) (hid : b.idAt pos = some (id pos)) (hA : ∀ p ∈ A, id p < id pos)
    (hB : ∀ q ∈ B, id pos < id q) (hj : j = 0 ∨ j ∈ own ∧ id pos < id j) :
    ∃ b' bt', ((b.setStep pos s).setJump pos j).setLink bt pos A.getLast? = (b', bt') ∧
      Linked id (insert pos own) (A ++ pos :: B) b' ∧
      Chain b'.stepAt 0 bt'.posInBuffer (A ++ pos :: B) ∧ Touches (insert pos own) b b' ∧
      bt'.sizeInBuffer = bt.sizeInBuffer := by
  set b₁ := (b.setStep pos s).setJump pos j with hb₁
  have hlinked : Linked id (insert pos own) (A ++ pos :: B) b₁ := h.new hpos h1 hid hA hB hj s
  have htouch : Touches (insert pos own) b b₁ :=
    (Touches.setStep (Set.mem_insert _ _) s).trans (.setJump (Set.mem_insert _ _) j)
  have hstep : ∀ q, b₁.stepAt q = if q = pos then s else b.stepAt q := by
    intro q
    rw [hb₁, stepAt_setJump, stepAt_setStep hid]
  have hold : ∀ q ∈ A ++ B, b₁.stepAt q = b.stepAt q := by
    intro q hq
    rw [hstep, if_neg]
    rintro rfl
    exact hpos (h.mem q hq)
  have hchain := chain_setLink bt hlinked
    (hsA.congr fun q hq => hold q (List.mem_append_left _ hq))
    (by
      rw [hstep, if_pos rfl]
      exact hsB.congr fun q hq => hold q (List.mem_append_right _ hq)) (by omega)
  refine ⟨_, _, rfl, ?_, hchain, ?_, ?_⟩
  · cases A.getLast? with
    | none => exact hlinked
    | some m => exact hlinked.setStep m pos
  · rcases hlast : A.getLast? with _ | m
    · exact htouch
    · refine htouch.trans (.setStep (.inr (h.mem m ?_)) pos)
      exact List.mem_append_left _ (List.mem_of_getLast? hlast)
  · cases A.getLast? <;> rfl

/-- What `buffer_put` leaves: the list `L` with the new record on it. -/
structure Inserted (id : Nat → DocId) (own : Set Nat) (L : List Nat) (pos : Nat) (b b' : Buffer)
    (bt' : BufferTerm) : Prop where
  linked : Linked id (insert pos own) L b'
  chain : Chain b'.stepAt 0 bt'.posInBuffer L
  touches : Touches (insert pos own) b b'

/-- The new record: its place is no place of the term's records, and it is about `u`. -/
structure Fresh (id : Nat → DocId) (own : Set Nat) (u : DocId) (pos : Nat) (b : Buffer) :
    Prop where
  notMem : pos ∉ own
  gt : 1 < pos
  idAt : b.idAt pos = some (id pos)
  eq : id pos = u

theorem followJumps_spec (hl : Linked id own L b) (hr : r ∈ L) (n : Nat) :
    ∃ q ∈ L, b.followJumps n r = some q := by
  induction n generalizing r with
  | zero => exact ⟨r, hr, rfl⟩
  | succ n ih =>
      obtain ⟨x, hx, -, hxj⟩ := recAt_of_idAt (hl.idAt hr)
      by_cases hj : x.jump ≤ 1
      · exact ⟨r, hr, by simp only [followJumps, hx, Option.bind_eq_bind, Option.bind_some,
          if_pos hj]⟩
      have hown : x.jump ∈ own := by
        rcases hl.jump r hr with h0 | ⟨hmem, -⟩
        · omega
        · rwa [hxj]
      obtain ⟨y, hy, -, hyj⟩ := recAt_of_idAt (hl.held _ hown).2
      by_cases hdel : y.deleted
      · exact ⟨r, hr, by simp only [followJumps, hx, hy, Option.bind_eq_bind, Option.bind_some,
          if_neg hj, if_pos hdel]⟩
      · have hmem : x.jump ∈ L := by
          by_contra hnot
          exact hdel (by simp [BufferRec.deleted, hyj, (hl.dead _ hown).mpr hnot])
        obtain ⟨q, hq, hrun⟩ := ih hmem
        exact ⟨q, hq, by simp only [followJumps, hx, hy, Option.bind_eq_bind, Option.bind_some,
          if_neg hj, if_neg hdel, hrun]⟩

/-- At the end of the list the new record becomes the last one. -/
theorem putLast_spec (h : Between id own u A [] b bt w) (hnew : Fresh id own u pos b)
    (hsize : A = [] → bt.sizeInBuffer ≤ 1) :
    ∃ b' bt', b.putLast bt pos w.lastp w.last = some (b', bt') ∧
      Inserted id own (A ++ [pos]) pos b b' bt' := by
  have hl : Linked id own (A ++ []) b := h.linked
  have hA : ∀ p ∈ A, id p < id pos := by
    rw [hnew.eq]
    exact h.below
  obtain ⟨b₁, bt₁, hput, hl₁, hc₁, ht₁, hs₁⟩ := hl.splice bt (s := 0) (by simpa using h.chain)
    rfl hnew.notMem hnew.gt hnew.idAt hA (List.forall_mem_nil _) (.inl rfl)
  rw [← h.lastp] at hput
  by_cases hfew : bt.sizeInBuffer ≤ 1
  · refine ⟨b₁, { bt₁ with sizeInBuffer := (bt.sizeInBuffer + 1) % 2 ^ 16 }, ?_, hl₁, hc₁, ht₁⟩
    simp only [putLast, hput, hs₁, if_pos hfew]
  obtain ⟨h₀, A', rfl⟩ : ∃ h₀ A', A = h₀ :: A' :=
    List.exists_cons_of_ne_nil fun hnil => hfew (hsize hnil)
  have hhead : bt₁.posInBuffer = h₀ := hc₁.1
  -- the first record gets a jump to the new one
  have hup : id h₀ < id pos := hA h₀ List.mem_cons_self
  have hl₂ := hl₁.setJump (r := h₀) (by simp) (.inr ⟨Set.mem_insert _ _, hup⟩)
  have ht₂ : Touches (insert pos own) b (b₁.setJump h₀ pos) :=
    ht₁.trans (.setJump (hl₁.mem h₀ (by simp)) pos)
  have hsteps : (b₁.setJump h₀ pos).stepAt = b₁.stepAt := funext fun _ => stepAt_setJump
  have hc₂ : Chain (b₁.setJump h₀ pos).stepAt 0 bt₁.posInBuffer (h₀ :: A' ++ [pos]) := by
    rw [hsteps]
    exact hc₁
  by_cases hodd : (bt.sizeInBuffer + 1) % 2 ^ 16 % 2 = 1
  · refine ⟨b₁.setJump h₀ pos, { bt₁ with sizeInBuffer := (bt.sizeInBuffer + 1) % 2 ^ 16 }, ?_,
      hl₂, hc₂, ht₂⟩
    simp only [putLast, hput, hs₁, if_neg hfew, hhead, if_pos hodd]
  obtain ⟨x, hx, hxs, -⟩ := recAt_of_idAt (hl₂.idAt (p := h₀) (by simp))
  have hsecond : x.step ∈ h₀ :: A' ++ [pos] := by
    rw [hxs]
    rcases hl₂.step_cases hc₂ (r := h₀) (by simp) with ⟨-, hmax⟩ | ⟨hmem, -⟩
    · exact absurd hup (hmax pos (by simp))
    · exact hmem
  obtain ⟨q, hq, hfollow⟩ :=
    followJumps_spec hl₂ hsecond (getNumBits ((bt.sizeInBuffer + 1) % 2 ^ 16))
  by_cases hqpos : q = pos
  · refine ⟨b₁.setJump h₀ pos, { bt₁ with sizeInBuffer := (bt.sizeInBuffer + 1) % 2 ^ 16 }, ?_,
      hl₂, hc₂, ht₂⟩
    simp only [putLast, hput, hs₁, if_neg hfew, hhead, if_neg hodd, hx, Option.bind_eq_bind,
      Option.bind_some, hfollow, if_pos hqpos]
  -- `last` is the record that was the last one before
  have hlast : w.last ∈ h₀ :: A' ∧ (q = w.last ∨ id q < id w.last) := by
    have hqA : q ∈ h₀ :: A' := by
      rcases List.mem_append.mp hq with hq | hq
      · exact hq
      · exact absurd (List.mem_singleton.mp hq) hqpos
    rcases List.eq_nil_or_concat (h₀ :: A') with hnil | ⟨A₁, m, heq⟩
    · exact absurd hnil (List.cons_ne_nil _ _)
    · rw [List.concat_eq_append] at heq
      have hsorted := hl.sorted
      have hm : w.last = m := h.last m (by simp [heq])
      rw [List.append_nil, heq] at hsorted
      rw [heq] at hqA ⊢
      rw [hm]
      refine ⟨by simp, ?_⟩
      rcases List.mem_append.mp hqA with hq₁ | hq₁
      · exact .inr ((List.pairwise_append.mp hsorted).2.2 q hq₁ m (by simp))
      · exact .inl (List.mem_singleton.mp hq₁)
  obtain ⟨rc, b₃, hrun, hl₃, ht₃, hs₃⟩ := hl₂.setJumpR hc₂ hq
    (fun _ => ⟨hl₂.mem _ (List.mem_append_left _ hlast.1), fun _ => hlast.2⟩) maxJump
  refine ⟨b₃, { bt₁ with sizeInBuffer := (bt.sizeInBuffer + 1) % 2 ^ 16 }, ?_, hl₃, ?_,
    ht₂.trans ht₃⟩
  · simp only [putLast, hput, hs₁, if_neg hfew, hhead, if_neg hodd, hx, Option.bind_eq_bind,
      Option.bind_some, hfollow, if_neg hqpos, hrun]
  · rw [hs₃]
    exact hc₂

/-- Whether a record about `u` takes a record about `d` out. -/
def Supersedes (u d : DocId) : Prop := d.rid = u.rid ∧ (u.sid = 0 ∨ d.sid = u.sid)

instance (u d : DocId) : Decidable (Supersedes u d) :=
  inferInstanceAs (Decidable (_ ∧ _))

theorem not_supersedes_of_lt {d : DocId} (h : d < u) : ¬ Supersedes u d := by
  rw [DocId.lt_def] at h
  unfold Supersedes
  omega

/-- What is taken out is a front part of the records behind the walk. -/
theorem takeOut_spec (hl : Linked id own (A ++ cur :: B) b)
    (hc : Chain b.stepAt 0 cur (cur :: B)) (hge : ¬ id cur < u) :
    ∃ D E s, cur :: B = D ++ E ∧
      (∀ n ≥ (cur :: B).length, b.takeOut n u cur (id cur) = some (b.delAll D, s)) ∧
      Chain b.stepAt 0 s E ∧ (∀ d ∈ D, Supersedes u (id d)) ∧
      ∀ q ∈ E, u < id q ∧ ¬ Supersedes u (id q) := by
  obtain ⟨x, hx, hxs, -⟩ := recAt_of_idAt (hl.idAt (p := cur) (by simp))
  have hsorted := (List.pairwise_append.mp hl.sorted).2.1
  have hcurB := (List.pairwise_cons.mp hsorted).1
  have hall : ∀ q ∈ cur :: B, q = cur ∨ id cur < id q := by
    intro q hq
    rcases List.mem_cons.mp hq with rfl | hq
    · exact .inl rfl
    · exact .inr (hcurB q hq)
  rw [DocId.lt_def] at hge
  by_cases hrid : u.rid = (id cur).rid
  · by_cases hsid : u.sid = 0
    · have hridle : ∀ q ∈ cur :: B, u.rid ≤ (id q).rid := by
        intro q hq
        rcases hall q hq with rfl | hup
        · omega
        · rw [DocId.lt_def] at hup
          omega
      obtain ⟨D, E, s, hDE, hrun, hE, hD, hgt⟩ := delRid_spec id hc (by simp)
        (fun q hq => hl.idAt (List.mem_append_right _ hq)) hsorted hridle
      refine ⟨D, E, s, hDE, fun n hn => ?_, hE, fun d hd => ⟨hD d hd, .inl hsid⟩, fun q hq => ?_⟩
      · simp only [takeOut, hx, Option.bind_eq_bind, Option.bind_some, if_pos hrid, if_pos hsid,
          hrun n hn]
      · have := hgt q hq
        simp only [DocId.lt_def, Supersedes]
        omega
    · by_cases heq : u.sid = (id cur).sid
      · refine ⟨[cur], B, x.step, rfl, fun n _ => ?_, ?_, ?_, fun q hq => ?_⟩
        · simp only [takeOut, hx, Option.bind_eq_bind, Option.bind_some, if_pos hrid, if_neg hsid,
            if_pos heq]
          rfl
        · rw [hxs]
          exact hc.2.2
        · simp [Supersedes, hrid, heq]
        · have hup := hcurB q hq
          simp only [DocId.lt_def, Supersedes] at *
          omega
      · refine ⟨[], cur :: B, cur, rfl, fun n _ => ?_, hc, by simp, fun q hq => ?_⟩
        · simp only [takeOut, hx, Option.bind_eq_bind, Option.bind_some, if_pos hrid, if_neg hsid,
            if_neg heq]
          rfl
        · rcases hall q hq with rfl | hup <;> simp only [DocId.lt_def, Supersedes] at * <;> omega
  · refine ⟨[], cur :: B, cur, rfl, fun n _ => ?_, hc, by simp, fun q hq => ?_⟩
    · simp only [takeOut, hx, Option.bind_eq_bind, Option.bind_some, if_neg hrid]
      rfl
    · rcases hall q hq with rfl | hup <;> simp only [DocId.lt_def, Supersedes] at * <;> omega

/-- In front of a record that is not below it, the new record replaces what it supersedes. -/
theorem putBefore_spec (h : Between id own u A (cur :: B) b bt w) (hnew : Fresh id own u pos b)
    (hge : ¬ id cur < u) :
    ∃ D E b' bt', cur :: B = D ++ E ∧
      (∀ n ≥ (cur :: B).length,
        b.putBefore n bt pos u w.lastp cur (id cur) = some (b', bt')) ∧
      Inserted id own (A ++ pos :: E) pos b b' bt' ∧ (∀ d ∈ D, Supersedes u (id d)) ∧
      ∀ q ∈ E, u < id q ∧ ¬ Supersedes u (id q) := by
  have hcurL : cur ∈ A ++ cur :: B := by simp
  obtain ⟨c, -, hsA, hsB⟩ := link_between h.linked h.chain
  obtain rfl : c = cur := hsB.1
  obtain ⟨x, hx, -, hxj⟩ := recAt_of_idAt (h.linked.idAt hcurL)
  obtain ⟨D, E, s, hDE, htake, hE, hD, hgt⟩ := takeOut_spec h.linked hsB hge
  have hlink := h.linked
  rw [hDE] at hlink
  have hown : ∀ d ∈ D, d ∈ own := fun d hd => hlink.mem d (by simp [hd])
  have htouch : Touches own b (b.delAll D) := touches_delAll hown
  have hidpos : ((b.delAll D).setStep pos s).idAt pos = some (id pos) := by
    rw [idAt_setStep, htouch.idAt]
    exact hnew.idAt
  -- the new record inherits the jump of the one it stands in front of
  have hjump : x.jump = 0 ∨ x.jump ∈ own ∧ id pos < id x.jump := by
    rw [hxj]
    refine (h.linked.jump c hcurL).imp_right fun hup => ⟨hup.1, ?_⟩
    have hlt := hup.2
    rw [hnew.eq]
    rw [DocId.lt_def] at *
    omega
  obtain ⟨rc, hrc⟩ : ∃ rc, ((b.delAll D).setStep pos s).checkJump pos x.jump = some rc := by
    rcases hjump with h0 | ⟨hmem, -⟩
    · exact ⟨.success, by rw [Buffer.checkJump, if_pos h0]⟩
    · obtain ⟨hgt1, hid⟩ := h.linked.held _ hmem
      have hid' : ((b.delAll D).setStep pos s).idAt x.jump = some (id x.jump) := by
        rw [idAt_setStep, htouch.idAt, hid]
      obtain ⟨y, hy, -⟩ := recAt_of_idAt hid'
      simp only [Buffer.checkJump, hidpos, hid', hy, Option.bind_eq_bind, Option.bind_some,
        if_neg (show x.jump ≠ 0 by omega), if_neg (show x.jump ≠ 1 by omega)]
      split_ifs <;> exact ⟨_, rfl⟩
  have hjump' : (if rc = SenRc.success then x.jump else 0) = 0 ∨
      (if rc = SenRc.success then x.jump else 0) ∈ own ∧
        id pos < id (if rc = SenRc.success then x.jump else 0) := by
    split_ifs
    · exact hjump
    · exact .inl rfl
  have hA : ∀ p ∈ A, id p < id pos := by
    rw [hnew.eq]
    exact h.below
  have hB : ∀ q ∈ E, id pos < id q := by
    rw [hnew.eq]
    exact fun q hq => (hgt q hq).1
  obtain ⟨b', bt', hput, hl', hc', ht', -⟩ := hlink.delAll.splice bt
    (by rwa [stepAt_delAll]) (by rwa [stepAt_delAll]) hnew.notMem hnew.gt
    (by rw [htouch.idAt]; exact hnew.idAt) hA hB hjump'
  refine ⟨D, E, b', bt', hDE, fun n hn => ?_,
    ⟨hl', hc', (htouch.mono (Set.subset_insert _ _)).trans ht'⟩, hD, hgt⟩
  simp only [putBefore, hx, htake n hn, hrc, Option.bind_eq_bind, Option.bind_some, h.lastp, hput]

/-- A round that passes the record `cur`. -/
theorem Between.round (sar : Int → Nat → Int) (h : Between id own u A (cur :: B) b bt w)
    (hcur : id cur < u) :
    ∃ b' w₁ w' C E, b.schedule sar u { w with idPost := id cur } cur (id cur) = some (b', w₁) ∧
      b'.hop u w₁ cur = some w' ∧ cur :: B = C ++ E ∧ C ≠ [] ∧ Touches own b b' ∧
      Between id own u (A ++ C) E b' bt w' := by
  have hsorted := (List.pairwise_append.mp h.linked.sorted).2.1
  have hcurB := (List.pairwise_cons.mp hsorted).1
  have hpassed : Between id own u A (cur :: B) b bt { w with idPost := id cur } := by
    refine ⟨h.linked, h.chain, h.lastp, h.last, h.below, fun q hq hlt => ?_, h.start⟩
    rcases List.mem_cons.mp hq with rfl | hq
    · exact DocId.lt_irrefl _ hlt
    · exact DocId.lt_irrefl _ (DocId.lt_trans (hcurB q hq) hlt)
  obtain ⟨b', w₁, hsched, hl, ht, hs, hst, hpo⟩ := schedule_spec sar hpassed
  obtain ⟨w', C, E, hhop, hCE, hne, hlow, hlp, hla, hst', hpo', hmem⟩ := hop_spec hl hcur w₁
  have hlastC : (A ++ C).getLast? = C.getLast? := by
    rw [List.getLast?_append]
    cases hC : C.getLast? with
    | none => exact absurd (List.getLast?_eq_none_iff.mp hC) hne
    | some c => rfl
  refine ⟨b', w₁, w', C, E, hsched, hhop, hCE, hne, ht, ?_, ?_, ?_, ?_, ?_, ?_, ?_⟩
  · rw [List.append_assoc, ← hCE]
    exact hl
  · rw [List.append_assoc, ← hCE, hs]
    exact h.chain
  · rw [hlastC, hlp]
  · rw [hlastC]
    exact hla
  · intro p hp
    rcases List.mem_append.mp hp with hp | hp
    · exact h.below p hp
    · exact hlow p hp
  · -- what is left is behind `cur`
    intro q hq hlt
    rw [hpo', hpo] at hlt
    have hcross := (List.pairwise_append.mp (hCE ▸ hsorted)).2.2 cur hmem q hq
    exact DocId.lt_irrefl _ (DocId.lt_trans hcross hlt)
  · intro _
    rw [hst']
    rcases List.mem_append.mp hst with hA | hc
    · exact List.mem_append_left _ hA
    · rw [List.mem_singleton.mp hc]
      exact List.mem_append_right _ hmem

/-- The walk ends with the new record in its place. -/
theorem putLoop_spec (h : Between id own u A B b bt w) (hnew : Fresh id own u pos b)
    (hsize : A ++ B = [] → bt.sizeInBuffer ≤ 1) (sar : Int → Nat → Int) (rc : SenRc) :
    ∃ A' D E b' bt', A ++ B = A' ++ (D ++ E) ∧
      (∀ n > B.length, putLoop sar pos u n b bt w rc = some (rc, b', bt')) ∧
      Inserted id own (A' ++ pos :: E) pos b b' bt' ∧ (∀ p ∈ A', id p < u) ∧
      (∀ d ∈ D, Supersedes u (id d)) ∧ ∀ q ∈ E, u < id q ∧ ¬ Supersedes u (id q) := by
  -- every round leaves fewer records behind the walk
  induction hlen : B.length using Nat.strong_induction_on generalizing A B b w with
  | h m ih =>
      subst hlen
      obtain ⟨c, hlink, hsA, hsB⟩ := link_between h.linked h.chain
      rw [← h.lastp] at hlink
      cases B with
      | nil =>
          obtain ⟨b', bt', hput, hins⟩ := putLast_spec h hnew (by simpa using hsize)
          obtain rfl : c = 0 := hsB
          refine ⟨A, [], [], b', bt', rfl, fun n hn => ?_, hins, h.below, by simp, by simp⟩
          obtain ⟨k, rfl⟩ := Nat.exists_eq_add_of_lt hn
          simp only [putLoop, hlink, Option.bind_eq_bind, Option.bind_some, if_true, hput,
            Option.map_some]
      | cons cur B =>
          obtain rfl : c = cur := hsB.1
          have hc0 : c ≠ 0 := hsB.2.1
          have hid : b.idAt c = some (id c) := h.linked.idAt (by simp)
          have hpost : ¬ ((id c).rid < w.idPost.rid ∨
              (id c).rid = w.idPost.rid ∧ (id c).sid < w.idPost.sid) :=
            DocId.lt_def.not.mp (h.post c List.mem_cons_self)
          by_cases hcur : id c < u
          · have hgo : ¬ (u.rid < (id c).rid ∨ u.rid = (id c).rid ∧ u.sid ≤ (id c).sid) := by
              rw [DocId.lt_def] at hcur
              omega
            obtain ⟨b₁, w₁, w₂, C, F, hsched, hhop, hCF, hne, ht, hbet⟩ :=
              h.round sar hcur
            have hshort : F.length < (c :: B).length := by
              have hpos := List.length_pos_of_ne_nil hne
              rw [hCF, List.length_append]
              omega
            have hnew₁ : Fresh id own u pos b₁ :=
              ⟨hnew.notMem, hnew.gt, by rw [ht.idAt]; exact hnew.idAt, hnew.eq⟩
            have hsplit : A ++ c :: B = A ++ C ++ F := by rw [hCF, List.append_assoc]
            obtain ⟨A', D, E, b', bt', heq, hrun, hins, hA', hD, hE⟩ :=
              ih F.length hshort hbet hnew₁ (by rw [← hsplit]; exact hsize) rfl
            refine ⟨A', D, E, b', bt', hsplit.trans heq, fun n hn => ?_, ⟨hins.linked, hins.chain,
              (ht.mono (Set.subset_insert _ _)).trans hins.touches⟩, hA', hD, hE⟩
            obtain ⟨k, rfl⟩ := Nat.exists_eq_add_of_lt hn
            simp only [putLoop, hlink, Option.bind_eq_bind, Option.bind_some, if_neg hc0, hid,
              if_neg hpost, if_neg hgo, hsched, hhop]
            exact hrun _ (by omega)
          · have hstop : u.rid < (id c).rid ∨ u.rid = (id c).rid ∧ u.sid ≤ (id c).sid := by
              rw [DocId.lt_def] at hcur
              omega
            obtain ⟨D, E, b', bt', hDE, hput, hins, hD, hE⟩ := putBefore_spec h hnew hcur
            refine ⟨A, D, E, b', bt', by rw [hDE], fun n hn => ?_, hins, h.below, hD, hE⟩
            obtain ⟨k, rfl⟩ := Nat.exists_eq_add_of_lt hn
            simp only [putLoop, hlink, Option.bind_eq_bind, Option.bind_some, if_neg hc0, hid,
              if_neg hpost, if_pos hstop, hput _ (Nat.le_add_right _ k), Option.map_some]

/-- The records from position `p` on, in the order of `step`, with their documents. -/
def Lists (b : Buffer) (p : Nat) (es : List (Nat × DocId)) : Prop :=
  Chain b.stepAt 0 p (es.map (·.1)) ∧ ∀ e ∈ es, b.idAt e.1 = some e.2

/-- The records of a list are determined by where it starts. -/
theorem Lists.unique {b : Buffer} {p : Nat} {es es' : List (Nat × DocId)} (h : b.Lists p es)
    (h' : b.Lists p es') : es = es' := by
  have hrebuild {es : List (Nat × DocId)} (hid : ∀ e ∈ es, b.idAt e.1 = some e.2) :
      (es.map (·.1)).map (fun p => (p, (b.idAt p).getD ⟨0, 0⟩)) = es := by
    rw [List.map_map]
    exact (List.map_congr_left fun e he => by simp [hid e he]).trans (List.map_id es)
  rw [← hrebuild h.2, ← hrebuild h'.2, h.1.unique h'.1]

/-- What a put is for: the record `pos` about `u` stands in order, without the ones it
supersedes. -/
def putId (pos : Nat) (u : DocId) (es : List (Nat × DocId)) : List (Nat × DocId) :=
  (es.filter fun e => ¬ Supersedes u e.2).orderedInsert (fun x y => x.2 < y.2) (pos, u)

theorem orderedInsert_between {x : Nat × DocId} {A B : List (Nat × DocId)}
    (hA : ∀ a ∈ A, a.2 < x.2) (hB : ∀ y ∈ B, x.2 < y.2) :
    (A ++ B).orderedInsert (fun x y => x.2 < y.2) x = A ++ x :: B := by
  induction A with
  | nil =>
      cases B with
      | nil => rfl
      | cons y B => simp [hB y List.mem_cons_self]
  | cons a A ih =>
      rw [List.forall_mem_cons] at hA
      have hnot : ¬ x.2 < a.2 := fun hlt => DocId.lt_irrefl _ (DocId.lt_trans hlt hA.1)
      simp [hnot, ih hA.2]

theorem putId_between {pos : Nat} {u : DocId} {A D B : List (Nat × DocId)}
    (hA : ∀ a ∈ A, a.2 < u) (hD : ∀ d ∈ D, Supersedes u d.2)
    (hB : ∀ y ∈ B, u < y.2 ∧ ¬ Supersedes u y.2) :
    putId pos u (A ++ (D ++ B)) = A ++ (pos, u) :: B := by
  have hfilter : (A ++ (D ++ B)).filter (fun e => ¬ Supersedes u e.2) = A ++ B := by
    rw [List.filter_append, List.filter_append, List.filter_eq_self.mpr, List.filter_eq_nil_iff.mpr,
      List.filter_eq_self.mpr, List.nil_append]
    · exact fun y hy => decide_eq_true (hB y hy).2
    · exact fun d hd => by simpa using hD d hd
    · exact fun a ha => decide_eq_true (not_supersedes_of_lt (hA a ha))
  rw [putId, hfilter]
  exact orderedInsert_between hA fun y hy => (hB y hy).1

end

/-- The lists of a term that puts reach from the empty one, with the records put so far. What
else is done to the segment keeps away from these records. -/
inductive Reach (sar : Int → Nat → Int) : Set Nat → Buffer → BufferTerm → Prop
  | empty {b : Buffer} {bt : BufferTerm} (list : bt.posInBuffer = 0)
      (size : bt.sizeInBuffer = 0) : Reach sar ∅ b bt
  | other {own : Set Nat} {b b' : Buffer} {bt : BufferTerm} (before : Reach sar own b bt)
      (frame : ∀ p ∈ own, b'.recAt p = b.recAt p) : Reach sar own b' bt
  | put {own : Set Nat} {b b' : Buffer} {bt bt' : BufferTerm} {pos : Nat} {bs : List UInt8}
      {u : DocId} {rc : SenRc} (before : Reach sar own b bt) (fresh : pos ∉ own) (gt : 1 < pos)
      (content : (readId bs).map (·.1) = some u)
      (run : Settles (fun n => bufferPut sar n b bt pos bs u) (rc, b', bt')) :
      Reach sar (insert pos own) b' bt'

section

variable {sar : Int → Nat → Int} {id id' : Nat → DocId} {own : Set Nat} {L : List Nat}
  {b b' : Buffer} {bt : BufferTerm} {pos : Nat} {bs : List UInt8} {u : DocId}

/-- The invariant is about the term's own records. -/
theorem Linked.congr (h : Linked id own L b) (hrec : ∀ p ∈ own, b'.recAt p = b.recAt p)
    (hid : ∀ p ∈ own, id' p = id p) : Linked id' own L b' := by
  have hjump : ∀ p ∈ own, b'.jumpAt p = b.jumpAt p := by
    intro p hp
    rw [jumpAt, jumpAt, hrec p hp]
  refine ⟨fun p hp => ?_, h.mem, fun p hp => ?_, ?_, fun p hp => ?_⟩
  · rw [hid p hp]
    refine ⟨(h.held p hp).1, ?_⟩
    rw [← (h.held p hp).2, Buffer.idAt, Buffer.idAt, hrec p hp]
  · rw [hjump p hp]
    exact h.dead p hp
  · apply List.Pairwise.imp_of_mem _ h.sorted
    intro p q hp hq hlt
    rwa [hid p (h.mem p hp), hid q (h.mem q hq)]
  · rw [hjump p (h.mem p hp)]
    refine (h.jump p hp).imp_right fun hup => ⟨hup.1, ?_⟩
    rw [hid p (h.mem p hp), hid _ hup.1]
    exact hup.2

theorem Linked.chain_congr (h : Linked id own L b) (hrec : ∀ p ∈ own, b'.recAt p = b.recAt p)
    {p : Nat} (hc : Chain b.stepAt 0 p L) : Chain b'.stepAt 0 p L := by
  apply hc.congr
  intro q hq
  rw [stepAt, stepAt, hrec q (h.mem q hq)]

theorem recAt_copyBody (b : Buffer) (pos : Nat) (bs : List UInt8) (p : Nat) :
    (b.copyBody pos bs).recAt p = if p = pos then some ⟨0, 0, bs⟩ else b.recAt p := by
  unfold recAt copyBody
  by_cases hp : p = pos
  · rw [if_pos hp, hp, List.lookup_cons_self]
  · rw [if_neg hp, List.lookup_cons, beq_false_of_ne hp]

/-- **A put in a linked list**: the call returns, with the new record in its place. -/
theorem Linked.bufferPut (h : Linked id own L b) (hc : Chain b.stepAt 0 bt.posInBuffer L)
    (hsize : L = [] → bt.sizeInBuffer ≤ 1) (hpos : pos ∉ own) (h1 : 1 < pos)
    (hbs : (readId bs).map (·.1) = some u) (sar : Int → Nat → Int) :
    ∃ A D E b' bt', L = A ++ (D ++ E) ∧
      Settles (fun n => bufferPut sar n b bt pos bs u) (.success, b', bt') ∧
      Inserted (Function.update id pos u) own (A ++ pos :: E) pos (b.copyBody pos bs) b' bt' ∧
      (∀ p ∈ A, id p < u) ∧ (∀ d ∈ D, Supersedes u (id d)) ∧
      ∀ q ∈ E, u < id q ∧ ¬ Supersedes u (id q) := by
  have hne : ∀ p ∈ own, p ≠ pos := fun p hp heq => hpos (heq ▸ hp)
  have hrec : ∀ p ∈ own, (b.copyBody pos bs).recAt p = b.recAt p := by
    intro p hp
    rw [recAt_copyBody, if_neg (hne p hp)]
  have hid : ∀ p ∈ own, Function.update id pos u p = id p :=
    fun p hp => Function.update_of_ne (hne p hp) _ _
  have hl := h.congr hrec hid
  have hbet : Between (Function.update id pos u) own u [] L (b.copyBody pos bs) bt Walk.start := by
    refine ⟨hl, h.chain_congr hrec hc, rfl, by simp, by simp, fun q _ hlt => ?_, nofun⟩
    rw [DocId.lt_def] at hlt
    simp only [Walk.start] at hlt
    omega
  have hnew : Fresh (Function.update id pos u) own u pos (b.copyBody pos bs) := by
    refine ⟨hpos, h1, ?_, Function.update_self _ _ _⟩
    rw [Function.update_self, idAt_eq, bodyAt, recAt_copyBody, if_pos rfl]
    exact hbs
  obtain ⟨A, D, E, b', bt', hL, hrun, hins, hA, hD, hE⟩ :=
    putLoop_spec hbet hnew hsize sar .success
  have hmem : ∀ p, p ∈ A ∨ p ∈ D ∨ p ∈ E → p ∈ own := by
    intro p hp
    apply h.mem
    rw [show L = A ++ (D ++ E) from hL]
    simpa using hp
  refine ⟨A, D, E, b', bt', hL, ⟨L.length + 1, fun n hn => hrun n hn⟩, hins, fun p hp => ?_,
    fun d hd => ?_, fun q hq => ?_⟩
  · rw [← hid p (hmem p (.inl hp))]
    exact hA p hp
  · rw [← hid d (hmem d (.inr (.inl hd)))]
    exact hD d hd
  · rw [← hid q (hmem q (.inr (.inr hq)))]
    exact hE q hq

end

section

variable {sar : Int → Nat → Int} {own : Set Nat} {b : Buffer} {bt : BufferTerm}

/-- Every list that is reached is linked. -/
theorem Reach.linked (h : Reach sar own b bt) :
    ∃ id L, Linked id own L b ∧ Chain b.stepAt 0 bt.posInBuffer L ∧
      (L = [] → bt.sizeInBuffer ≤ 1) := by
  induction h with
  | empty list size =>
      exact ⟨fun _ => ⟨0, 0⟩, [], ⟨by simp, by simp, by simp, .nil, by simp⟩, list,
        fun _ => by omega⟩
  | other before frame ih =>
      obtain ⟨id, L, hl, hc, hsize⟩ := ih
      exact ⟨id, L, hl.congr frame fun _ _ => rfl, hl.chain_congr frame hc, hsize⟩
  | put before fresh gt content run ih =>
      obtain ⟨id, L, hl, hc, hsize⟩ := ih
      obtain ⟨A, D, E, b', bt', -, hrun, hins, -⟩ := hl.bufferPut hc hsize fresh gt content sar
      obtain ⟨-, rfl, rfl⟩ : _ ∧ _ ∧ _ := by simpa using hrun.unique run
      exact ⟨_, _, hins.linked, hins.chain, fun hnil => by simp at hnil⟩

/-- **`buffer_put` is insertion in order.** In every list of a term that puts reach from the
empty one, the records stand in strict order and every jump leads to a record that is strictly
behind, on the list or taken out of it. A put of a new record returns success and leaves the
list with the records it supersedes removed and the new one inserted in order. -/
theorem bufferPut_inserts (h : Reach sar own b bt) :
    ∃ es, b.Lists bt.posInBuffer es ∧ es.Pairwise (fun x y => x.2 < y.2) ∧
      (∀ e ∈ es, b.jumpAt e.1 = 0 ∨ ∃ d, b.idAt (b.jumpAt e.1) = some d ∧ e.2 < d ∧
        ((b.jumpAt e.1, d) ∈ es ∨ b.jumpAt (b.jumpAt e.1) = 1)) ∧
      ∀ pos u bs, pos ∉ own → 1 < pos → (readId bs).map (·.1) = some u →
        ∃ b' bt', Settles (fun n => bufferPut sar n b bt pos bs u) (.success, b', bt') ∧
          b'.Lists bt'.posInBuffer (putId pos u es) ∧
          ∀ p, b'.bodyAt p = if p = pos then some bs else b.bodyAt p := by
  obtain ⟨id, L, hl, hc, hsize⟩ := h.linked
  have hlists : ∀ {b : Buffer} {bt : BufferTerm} {id : Nat → DocId} {own : Set Nat} {L : List Nat},
      Linked id own L b → Chain b.stepAt 0 bt.posInBuffer L →
        b.Lists bt.posInBuffer (L.map fun p => (p, id p)) := by
    intro b bt id own L hl hc
    refine ⟨by simpa [Function.comp_def] using hc, fun e he => ?_⟩
    obtain ⟨p, hp, rfl⟩ := List.mem_map.mp he
    exact hl.idAt hp
  refine ⟨L.map fun p => (p, id p), hlists hl hc, List.pairwise_map.mpr hl.sorted, ?_, ?_⟩
  · intro e he
    obtain ⟨p, hp, rfl⟩ := List.mem_map.mp he
    refine (hl.jump p hp).imp_right fun ⟨hown, hlt⟩ => ⟨_, (hl.held _ hown).2, hlt, ?_⟩
    by_cases hmem : b.jumpAt p ∈ L
    · exact .inl (List.mem_map.mpr ⟨_, hmem, rfl⟩)
    · exact .inr ((hl.dead _ hown).mpr hmem)
  · intro pos u bs hpos h1 hbs
    obtain ⟨A, D, E, b', bt', rfl, hrun, hins, hA, hD, hE⟩ :=
      hl.bufferPut hc hsize hpos h1 hbs sar
    have hid : ∀ p ∈ A ++ (D ++ E), Function.update id pos u p = id p := by
      intro p hp
      apply Function.update_of_ne
      rintro rfl
      exact hpos (hl.mem p hp)
    have hput : putId pos u ((A ++ (D ++ E)).map fun p => (p, id p)) =
        (A ++ pos :: E).map fun p => (p, Function.update id pos u p) := by
      simp only [List.map_append, List.map_cons, Function.update_self]
      rw [putId_between]
      · congr 1
        · exact List.map_congr_left fun p hp => by rw [hid p (by simp [hp])]
        · congr 1
          exact List.map_congr_left fun p hp => by rw [hid p (by simp [hp])]
      · simpa using hA
      · simpa using hD
      · simpa using hE
    refine ⟨b', bt', hrun, ?_, fun p => ?_⟩
    · rw [hput]
      exact hlists hins.linked hins.chain
    · rw [hins.touches.body p, bodyAt, recAt_copyBody]
      split_ifs <;> rfl

/-- A second record that goes in front of the first one. -/
theorem bufferPut_inserts_before : ∃ b₁ bt₁ b₂ bt₂,
    Settles (fun n => bufferPut (fun _ _ => 0) n ⟨none, 0, 0x3fff0, 0, [], []⟩ ⟨7, 0, 0, 0, 0⟩ 8
      (encodeRec ⟨5, 1, 0, 1, [3]⟩ false) ⟨5, 1⟩) (.success, b₁, bt₁) ∧
    Settles (fun n => bufferPut (fun _ _ => 0) n b₁ bt₁ 24
      (encodeRec ⟨3, 1, 0, 1, [2]⟩ false) ⟨3, 1⟩) (.success, b₂, bt₂) ∧
    b₂.Lists bt₂.posInBuffer [(24, ⟨3, 1⟩), (8, ⟨5, 1⟩)] := by
  have hempty : Reach (fun _ _ => 0) ∅ ⟨none, 0, 0x3fff0, 0, [], []⟩ ⟨7, 0, 0, 0, 0⟩ :=
    .empty rfl rfl
  obtain ⟨es, hes, -, -, hput⟩ := bufferPut_inserts hempty
  obtain rfl : es = [] := List.map_eq_nil_iff.mp (hes.1.unique rfl)
  obtain ⟨b₁, bt₁, hrun₁, hlist₁, -⟩ := hput 8 ⟨5, 1⟩ (encodeRec ⟨5, 1, 0, 1, [3]⟩ false)
    (by simp) (by decide) (by decide)
  obtain ⟨es, hes, -, -, hput⟩ := bufferPut_inserts
    (hempty.put (by simp) (by decide) (by decide) hrun₁)
  obtain rfl := hes.unique hlist₁
  obtain ⟨b₂, bt₂, hrun₂, hlist₂, -⟩ := hput 24 ⟨3, 1⟩ (encodeRec ⟨3, 1, 0, 1, [2]⟩ false)
    (by simp) (by decide) (by decide)
  exact ⟨b₁, bt₁, b₂, bt₂, hrun₁, hrun₂, hlist₂⟩

end

end Buffer

end Senna.Inv
