/-
# A pinned segment stays mapped

The counter of a segment is the sum of what its threads have added to it. At most one thread
leads: it has found the counter at zero and has not taken its part back since. Only a
leader maps or unmaps, and it unmaps after it has seen that nothing but its own part is
in the counter, when nobody holds a pin; from then on until it is done the others are turned away.

This needs that the counter never wraps around, and that a leader who could not map the segment
finds it still not mapped at the end: `SEN_IO_SEG_REF` lowers the counter before it reads the
address then, and takes an address that another thread has mapped meanwhile for its own.
-/

import Mathlib.Algebra.BigOperators.Group.Finset.Basic
import Mathlib.Algebra.Order.BigOperators.Group.Finset
import Senna.Io.SegRef

namespace Senna.Io

/-- What a thread has added to the counter for the operation it is in. -/
def SegPc.hold : SegPc → Nat
  | .test _ | .back | .mapping | .mapped | .failed | .addr true | .expireBack | .claim => 1
  | .claimBack | .unmap | .clear | .release => senIoMaxRef + 1
  | _ => 0

/-- What a thread has added to the counter. -/
def SegThread.share (th : SegThread) : Nat := th.pins.length + th.pc.hold

/-- Whether a thread has found the counter at zero, and its part is still in it. -/
def SegPc.leads : SegPc → Bool
  | .test nref => nref = 0
  | .mapping | .mapped | .failed | .claim | .claimBack | .unmap | .clear | .release => true
  | _ => false

/-- Whether a thread goes to unmap the segment, or has done it. -/
def SegPc.alone : SegPc → Bool
  | .unmap | .clear | .release => true
  | _ => false

/-- Whether a thread waits for its turn. -/
def SegPc.quiet : SegPc → Bool
  | .idle | .ref | .back | .addr false | .expire | .expireBack => true
  | _ => false

/-- What a thread may rely on. -/
structure SegThread.Sees (map : Option Nat) (th : SegThread) : Prop where
  pins : ∀ a ∈ th.pins, map = some a
  mapped : th.pc = .addr true → map.isSome
  mapping : th.pc = .mapping → map = none

/-- What a step of a thread does, with its tests decided, when no address is taken without a part
in the counter. -/
inductive SegThread.Moves (info : SegInfo) : SegThread → SegInfo → SegThread → Prop
  | startRef (pins : List Nat) : Moves info ⟨.idle, pins⟩ info ⟨.ref, pins⟩
  | startExpire (pins : List Nat) : Moves info ⟨.idle, pins⟩ info ⟨.expire, pins⟩
  | unref {pins : List Nat} {pin : Nat} (hpin : pin < pins.length) :
      Moves info ⟨.idle, pins⟩ (info.sub 1) ⟨.idle, pins.eraseIdx pin⟩
  | refBusy (pins : List Nat) (hbusy : senIoMaxRef ≤ info.nref) :
      Moves info ⟨.ref, pins⟩ (info.add 1) ⟨.back, pins⟩
  | refAdded (pins : List Nat) (hfew : info.nref < senIoMaxRef) :
      Moves info ⟨.ref, pins⟩ (info.add 1) ⟨.test info.nref, pins⟩
  | back (pins : List Nat) : Moves info ⟨.back, pins⟩ (info.sub 1) ⟨.ref, pins⟩
  | testFound (nref : Nat) (pins : List Nat) (hmap : info.map.isSome) :
      Moves info ⟨.test nref, pins⟩ info ⟨.addr true, pins⟩
  | testBusy {nref : Nat} (pins : List Nat) (hmap : info.map = none) (hnref : nref ≠ 0) :
      Moves info ⟨.test nref, pins⟩ info ⟨.back, pins⟩
  | testFirst (pins : List Nat) (hmap : info.map = none) :
      Moves info ⟨.test 0, pins⟩ info ⟨.mapping, pins⟩
  | mapAt (a : Nat) (pins : List Nat) :
      Moves info ⟨.mapping, pins⟩ { info with map := some a } ⟨.mapped, pins⟩
  | mmapFails (pins : List Nat) :
      Moves info ⟨.mapping, pins⟩ { info with map := none } ⟨.mapped, pins⟩
  | openFails (pins : List Nat) : Moves info ⟨.mapping, pins⟩ info ⟨.mapped, pins⟩
  | mapped (pins : List Nat) (hmap : info.map.isSome) :
      Moves info ⟨.mapped, pins⟩ info ⟨.addr true, pins⟩
  | mappedNot (pins : List Nat) (hmap : info.map = none) :
      Moves info ⟨.mapped, pins⟩ info ⟨.failed, pins⟩
  | failed (pins : List Nat) : Moves info ⟨.failed, pins⟩ (info.sub 1) ⟨.addr false, pins⟩
  | addr (pins : List Nat) :
      Moves info ⟨.addr true, pins⟩ info ⟨.idle, info.map.toList ++ pins⟩
  | addrNone (pins : List Nat) (hmap : info.map = none) :
      Moves info ⟨.addr false, pins⟩ info ⟨.idle, pins⟩
  | expireBusy (pins : List Nat) (hbusy : info.nref ≠ 0) :
      Moves info ⟨.expire, pins⟩ (info.add 1) ⟨.expireBack, pins⟩
  | expireFirst (pins : List Nat) (hfirst : info.nref = 0) :
      Moves info ⟨.expire, pins⟩ (info.add 1) ⟨.claim, pins⟩
  | expireAgain (pins : List Nat) : Moves info ⟨.expireBack, pins⟩ (info.sub 1) ⟨.expire, pins⟩
  | expireGiveUp (pins : List Nat) : Moves info ⟨.expireBack, pins⟩ (info.sub 1) ⟨.idle, pins⟩
  | claimBusy (pins : List Nat) (hbusy : 1 < info.nref) :
      Moves info ⟨.claim, pins⟩ (info.add senIoMaxRef) ⟨.claimBack, pins⟩
  | claimAlone (pins : List Nat) (halone : info.nref ≤ 1) :
      Moves info ⟨.claim, pins⟩ (info.add senIoMaxRef) ⟨.unmap, pins⟩
  | claimAgain (pins : List Nat) :
      Moves info ⟨.claimBack, pins⟩ (info.sub (senIoMaxRef + 1)) ⟨.expire, pins⟩
  | claimGiveUp (pins : List Nat) :
      Moves info ⟨.claimBack, pins⟩ (info.sub (senIoMaxRef + 1)) ⟨.idle, pins⟩
  | unmap (pins : List Nat) : Moves info ⟨.unmap, pins⟩ info ⟨.clear, pins⟩
  | clear (pins : List Nat) :
      Moves info ⟨.clear, pins⟩ { info with map := none } ⟨.release, pins⟩
  | release (pins : List Nat) :
      Moves info ⟨.release, pins⟩ (info.sub (senIoMaxRef + 1)) ⟨.idle, pins⟩

namespace SegThread

variable {info info' : SegInfo} {th th' : SegThread} {choice : SegChoice}

theorem moves_of_step (h : th.step info choice = some (info', th'))
    (hfailed : th.pc = .addr false → info.map = none) : th.Moves info info' th' := by
  obtain ⟨pc, pins⟩ := th
  cases pc <;> cases choice <;>
    simp only [step, Option.some.injEq, Prod.mk.injEq, reduceCtorEq,
      Option.ite_none_right_eq_some] at h
  case idle.unref =>
    obtain ⟨hpin, rfl, rfl⟩ := h
    exact .unref hpin
  case ref.go =>
    obtain ⟨rfl, rfl⟩ := h
    split_ifs with hbusy
    · exact .refBusy _ hbusy
    · exact .refAdded _ (not_le.mp hbusy)
  case test.go nref =>
    obtain ⟨rfl, rfl⟩ := h
    split_ifs with hmap hnref
    · exact .testFound _ _ hmap
    · exact .testBusy _ (Option.not_isSome_iff_eq_none.mp hmap) hnref
    · obtain rfl := not_not.mp hnref
      exact .testFirst _ (Option.not_isSome_iff_eq_none.mp hmap)
  case mapped.go =>
    obtain ⟨rfl, rfl⟩ := h
    split_ifs with hmap
    · exact .mapped _ hmap
    · exact .mappedNot _ (Option.not_isSome_iff_eq_none.mp hmap)
  case expire.go =>
    obtain ⟨rfl, rfl⟩ := h
    split_ifs with hnref
    · exact .expireBusy _ hnref
    · exact .expireFirst _ (not_not.mp hnref)
  case claim.go =>
    obtain ⟨rfl, rfl⟩ := h
    split_ifs with hnref
    · exact .claimBusy _ hnref
    · exact .claimAlone _ (not_lt.mp hnref)
  case addr.go counted =>
    obtain ⟨rfl, rfl⟩ := h
    cases counted with
    | false =>
        rw [hfailed rfl]
        exact .addrNone _ (hfailed rfl)
    | true => exact .addr _
  all_goals
    obtain ⟨rfl, rfl⟩ := h
    constructor

/-- The counter after a step, `n` being what the other threads have added. -/
theorem Moves.nref (h : th.Moves info info' th') (hsees : th.Sees info.map) {n : Nat}
    (hn : info.nref = n + th.share) (hlt : info.nref < 2 ^ 32) :
    info'.nref = (n + th'.share) % 2 ^ 32 := by
  unfold share at hn ⊢
  cases h with
  | @unref pins pin hpin =>
      rw [SegInfo.nref_sub, List.length_eraseIdx, if_pos hpin, hn]
      simp only [SegPc.hold]
      omega
  | addr pins =>
      obtain ⟨a, ha⟩ := Option.isSome_iff_exists.mp (hsees.mapped rfl)
      simp only [SegPc.hold, ha, Option.toList_some, List.singleton_append,
        List.length_cons] at hn ⊢
      omega
  | _ =>
      simp only [SegPc.hold, SegInfo.nref_add, SegInfo.nref_sub, senIoMaxRef] at hn ⊢
      omega

/-- A thread that leads after a step led before, or the counter was zero. -/
theorem Moves.leads (h : th.Moves info info' th') (hleads : th'.pc.leads) :
    th.pc.leads ∨ info.nref = 0 := by
  cases h with
  | refAdded _ hfew => exact .inr (of_decide_eq_true hleads)
  | expireFirst _ hfirst => exact .inr hfirst
  | testFirst _ _ => exact .inl rfl
  | mapAt _ _ => exact .inl rfl
  | mmapFails _ => exact .inl rfl
  | openFails _ => exact .inl rfl
  | mappedNot _ _ => exact .inl rfl
  | claimBusy _ _ => exact .inl rfl
  | claimAlone _ _ => exact .inl rfl
  | unmap _ => exact .inl rfl
  | clear _ => exact .inl rfl
  | _ => exact absurd hleads Bool.false_ne_true

/-- Who changes the pointer. -/
theorem Moves.map (h : th.Moves info info' th') :
    info'.map = info.map ∨ th.pc = .mapping ∨ th.pc = .clear := by
  cases h with
  | mapAt _ _ => exact .inr (.inl rfl)
  | mmapFails _ => exact .inr (.inl rfl)
  | clear _ => exact .inr (.inr rfl)
  | _ => exact .inl (by simp only [SegInfo.map_add, SegInfo.map_sub])

/-- What a thread relies on after its own step. -/
theorem Moves.sees (h : th.Moves info info' th') (hsees : th.Sees info.map)
    (halone : th.pc.alone → th.pins = []) : th'.Sees info'.map := by
  obtain ⟨hpins, -, hmapping⟩ := hsees
  cases h with
  | @unref pins pin hpin =>
      rw [SegInfo.map_sub]
      exact ⟨fun a ha => hpins a (List.mem_of_mem_eraseIdx ha), nofun, nofun⟩
  | testFound nref pins hmap => exact ⟨hpins, fun _ => hmap, nofun⟩
  | testFirst pins hmap => exact ⟨hpins, nofun, fun _ => hmap⟩
  | mapAt a pins =>
      refine ⟨fun b hb => ?_, nofun, nofun⟩
      exact absurd ((hmapping rfl).symm.trans (hpins b hb)) nofun
  | mmapFails pins =>
      refine ⟨fun b hb => ?_, nofun, nofun⟩
      exact (hmapping rfl).symm.trans (hpins b hb)
  | mapped pins hmap => exact ⟨hpins, fun _ => hmap, nofun⟩
  | addr pins =>
      refine ⟨fun a ha => ?_, nofun, nofun⟩
      rcases List.mem_append.mp ha with ha | ha
      · exact Option.mem_toList.mp ha
      · exact hpins a ha
  | clear pins =>
      obtain rfl : pins = [] := halone rfl
      exact ⟨nofun, nofun, nofun⟩
  | _ =>
      refine ⟨?_, nofun, nofun⟩
      simpa only [SegInfo.map_add, SegInfo.map_sub] using hpins

/-- While the counter holds a claim, a thread that waits goes on waiting. -/
theorem Moves.quiet (h : th.Moves info info' th') (hquiet : th.pc.quiet) (hpins : th.pins = [])
    (hnref : senIoMaxRef ≤ info.nref) : th'.pc.quiet ∧ th'.pins = [] := by
  cases h with
  | refAdded _ hfew => exact absurd hnref (not_le.mpr hfew)
  | expireFirst _ hfirst =>
      rw [hfirst] at hnref
      exact absurd hnref (by decide)
  | unref hpin =>
      obtain rfl : _ = [] := hpins
      exact absurd hpin (Nat.not_lt_zero _)
  | startRef _ => exact ⟨rfl, hpins⟩
  | startExpire _ => exact ⟨rfl, hpins⟩
  | refBusy _ _ => exact ⟨rfl, hpins⟩
  | back _ => exact ⟨rfl, hpins⟩
  | expireBusy _ _ => exact ⟨rfl, hpins⟩
  | expireAgain _ => exact ⟨rfl, hpins⟩
  | addrNone _ _ => exact ⟨rfl, hpins⟩
  | expireGiveUp _ => exact ⟨rfl, hpins⟩
  | _ => exact absurd hquiet Bool.false_ne_true

/-- A thread goes to unmap the segment when there is nothing but its own part in the counter. -/
theorem Moves.alone (h : th.Moves info info' th') (halone : th'.pc.alone) :
    th.pc.alone ∧ th'.pins = th.pins ∨
      th.pc = .claim ∧ info.nref ≤ 1 ∧ th'.pins = th.pins := by
  cases h with
  | claimAlone _ hnref => exact .inr ⟨rfl, hnref, rfl⟩
  | unmap _ => exact .inl ⟨rfl, rfl⟩
  | clear _ => exact .inl ⟨rfl, rfl⟩
  | _ => exact absurd halone Bool.false_ne_true

/-- A step that adds to the counter leaves the pins alone. -/
theorem Moves.grows (h : th.Moves info info' th') :
    th'.share ≤ th.share ∨ th'.pins = th.pins := by
  cases h with
  | @unref pins pin hpin =>
      left
      unfold share
      rw [List.length_eraseIdx, if_pos hpin]
      exact Nat.add_le_add_right (Nat.sub_le _ _) _
  | addr pins =>
      left
      have hlen := Option.length_toList_le (o := info.map)
      simp only [share, SegPc.hold, List.length_append]
      omega
  | _ => exact .inr rfl

end SegThread

theorem SegPc.hold_le (pc : SegPc) : pc.hold ≤ 1 ∨ pc.leads ∧ pc.hold = senIoMaxRef + 1 := by
  cases pc with
  | test _ => exact .inl le_rfl
  | addr counted => cases counted <;> exact .inl (by decide)
  | claimBack => exact .inr ⟨rfl, rfl⟩
  | unmap => exact .inr ⟨rfl, rfl⟩
  | clear => exact .inr ⟨rfl, rfl⟩
  | release => exact .inr ⟨rfl, rfl⟩
  | _ => exact .inl (by decide)

theorem SegPc.hold_of_leads {pc : SegPc} (h : pc.leads) : 0 < pc.hold := by
  cases pc with
  | test _ => exact Nat.one_pos
  | addr _ => exact absurd h Bool.false_ne_true
  | _ => first | exact absurd h Bool.false_ne_true | exact Nat.succ_pos _

theorem SegPc.hold_of_alone {pc : SegPc} (h : pc.alone) : senIoMaxRef ≤ pc.hold := by
  cases pc with
  | unmap => exact Nat.le_succ _
  | clear => exact Nat.le_succ _
  | release => exact Nat.le_succ _
  | _ => exact absurd h Bool.false_ne_true

theorem SegPc.quiet_of_hold {pc : SegPc} (h : pc.hold = 0) : pc.quiet := by
  cases pc with
  | idle => rfl
  | ref => rfl
  | expire => rfl
  | addr counted =>
      cases counted with
      | false => rfl
      | true => exact absurd h Nat.one_ne_zero
  | _ => exact absurd h (Nat.succ_ne_zero _)

theorem SegThread.Sees.of_quiet {th : SegThread} (map : Option Nat) (hpins : th.pins = [])
    (h : th.pc.quiet) : th.Sees map := by
  obtain ⟨pc, pins⟩ := th
  obtain rfl : pins = [] := hpins
  cases pc with
  | idle => exact ⟨nofun, nofun, nofun⟩
  | ref => exact ⟨nofun, nofun, nofun⟩
  | back => exact ⟨nofun, nofun, nofun⟩
  | addr counted =>
      obtain rfl : counted = false := by
        cases counted with
        | false => rfl
        | true => exact absurd h Bool.false_ne_true
      exact ⟨nofun, nofun, nofun⟩
  | expire => exact ⟨nofun, nofun, nofun⟩
  | expireBack => exact ⟨nofun, nofun, nofun⟩
  | _ => exact absurd h Bool.false_ne_true

namespace SegState

variable {ι : Type} [DecidableEq ι] {s s' : SegState ι} {i : ι} {choice : SegChoice}

/-- A step is one of its thread. -/
theorem step_spec (h : s.step i choice = some s') :
    ∃ info' th', (s.threads i).step s.info choice = some (info', th') ∧
      s' = ⟨info', Function.update s.threads i th'⟩ := by
  obtain ⟨⟨info', th'⟩, hstep, rfl⟩ := Option.map_eq_some_iff.mp h
  exact ⟨info', th', hstep, rfl⟩

/-- Steps one after the other. -/
def run (s : SegState ι) : List (ι × SegChoice) → Option (SegState ι)
  | [] => some s
  | (i, choice) :: acts => (s.step i choice).bind fun s => s.run acts

theorem Reach.run {ok : SegState ι → ι → SegChoice → Prop} (h : Reach ok s)
    (hok : ∀ s i choice, ok s i choice) {acts : List (ι × SegChoice)}
    (hrun : s.run acts = some s') : Reach ok s' := by
  induction acts generalizing s with
  | nil =>
      obtain rfl := Option.some.inj hrun
      exact h
  | cons act acts ih =>
      obtain ⟨s₁, hstep, hrun⟩ := Option.bind_eq_some_iff.mp hrun
      exact ih (h.step (hok s act.1 act.2) hstep) hrun

variable [Fintype ι]

/-- What holds in every state while no address is taken without a part in the counter and the
counter does not wrap around. -/
structure Safe (s : SegState ι) : Prop where
  nref : s.info.nref = ∑ i, (s.threads i).share
  one : ∀ i j, (s.threads i).pc.leads → (s.threads j).pc.leads → i = j
  sees : ∀ i, (s.threads i).Sees s.info.map
  alone : ∀ i, (s.threads i).pc.alone → (s.threads i).pins = [] ∧
    ∀ j, j ≠ i → (s.threads j).pins = [] ∧ (s.threads j).pc.quiet

/-- The pins that all threads hold. -/
def pinned (s : SegState ι) : Nat := ∑ i, (s.threads i).pins.length

/-- The condition on a step: a thread that could not map the segment and has lowered the counter
reads the address while the segment is not mapped, and the pins and the threads are together
fewer than `SEN_IO_MAX_REF`. -/
def Fits (s : SegState ι) (i : ι) (_ : SegChoice) : Prop :=
  ((s.threads i).pc = .addr false → s.info.map = none) ∧
    s.pinned + Fintype.card ι < senIoMaxRef

/-- With one leader the counter stays small. -/
theorem sum_share_le (threads : ι → SegThread)
    (hone : ∀ i j, (threads i).pc.leads → (threads j).pc.leads → i = j) :
    ∑ i, (threads i).share ≤
      ∑ i, (threads i).pins.length + Fintype.card ι + senIoMaxRef := by
  have hsplit : ∑ i, (threads i).share =
      ∑ i, (threads i).pins.length + ∑ i, (threads i).pc.hold := Finset.sum_add_distrib
  have hhold : ∑ i, (threads i).pc.hold ≤ Fintype.card ι + senIoMaxRef := by
    by_cases hbig : ∃ i, 1 < (threads i).pc.hold
    · obtain ⟨i, hi⟩ := hbig
      obtain ⟨hleads, hhold⟩ := (SegPc.hold_le (threads i).pc).resolve_left (not_le.mpr hi)
      have hrest : ∑ j ∈ Finset.univ.erase i, (threads j).pc.hold ≤ Fintype.card ι - 1 := by
        have hle : ∑ j ∈ Finset.univ.erase i, (threads j).pc.hold ≤
            ∑ _j ∈ Finset.univ.erase i, 1 := by
          apply Finset.sum_le_sum
          intro j hj
          rcases SegPc.hold_le (threads j).pc with h | ⟨h, -⟩
          · exact h
          · exact absurd (hone j i h hleads) (Finset.ne_of_mem_erase hj)
        rwa [Finset.sum_const, smul_eq_mul, mul_one, Finset.card_erase_of_mem (Finset.mem_univ i),
          Finset.card_univ] at hle
      have hpos : 0 < Fintype.card ι := Fintype.card_pos_iff.mpr ⟨i⟩
      rw [← Finset.add_sum_erase _ _ (Finset.mem_univ i), hhold]
      omega
    · have hle : ∑ i, (threads i).pc.hold ≤ ∑ _i : ι, 1 := by
        apply Finset.sum_le_sum
        intro j _
        exact not_lt.mp fun hlt => hbig ⟨j, hlt⟩
      rw [Finset.sum_const, smul_eq_mul, mul_one, Finset.card_univ] at hle
      omega
  omega

omit [DecidableEq ι] in
theorem Safe.init : Safe (init : SegState ι) := by
  refine ⟨?_, nofun, fun i => ⟨nofun, nofun, nofun⟩, nofun⟩
  exact (Finset.sum_eq_zero fun _ _ => rfl).symm

/-- **A step** keeps what holds of all threads. -/
theorem Safe.step (h : s.Safe) (hfits : s.Fits i choice) (hstep : s.step i choice = some s') :
    s'.Safe := by
  obtain ⟨info', th', hth, rfl⟩ := step_spec hstep
  obtain ⟨hfailed, hroom⟩ := hfits
  have hmove := SegThread.moves_of_step hth hfailed
  have hsees := h.sees i
  have hself : Function.update s.threads i th' i = th' := Function.update_self ..
  have hother : ∀ j, j ≠ i → Function.update s.threads i th' j = s.threads j :=
    fun j hj => Function.update_of_ne hj ..
  -- the counter as the part of the thread and that of the others
  obtain ⟨n, hn⟩ : ∃ n, n = ∑ j ∈ Finset.univ.erase i, (s.threads j).share := ⟨_, rfl⟩
  have hbefore : s.info.nref = n + (s.threads i).share := by
    rw [h.nref, hn, Finset.sum_erase_add _ _ (Finset.mem_univ i)]
  have hafter : ∑ j, (Function.update s.threads i th' j).share = n + th'.share := by
    rw [hn, ← Finset.sum_erase_add _ _ (Finset.mem_univ i), hself]
    congr 1
    apply Finset.sum_congr rfl
    intro j hj
    rw [hother j (Finset.ne_of_mem_erase hj)]
  have hle : ∀ j, j ≠ i → (s.threads j).share ≤ n := by
    intro j hj
    rw [hn]
    exact Finset.single_le_sum (f := fun j => (s.threads j).share) (fun _ _ => Nat.zero_le _)
      (Finset.mem_erase.mpr ⟨hj, Finset.mem_univ j⟩)
  have hone : ∀ j k, (Function.update s.threads i th' j).pc.leads →
      (Function.update s.threads i th' k).pc.leads → j = k := by
    have hfirst : th'.pc.leads → ∀ k, k ≠ i → ¬(s.threads k).pc.leads := by
      intro hleads k hk hleads'
      rcases hmove.leads hleads with hbefore' | hzero
      · exact hk (h.one k i hleads' hbefore')
      · have hhold := SegPc.hold_of_leads hleads'
        have hshare := hle k hk
        unfold SegThread.share at hshare
        omega
    intro j k hj hk
    by_cases hji : j = i <;> by_cases hki : k = i
    · rw [hji, hki]
    · rw [hji, hself] at hj
      rw [hother k hki] at hk
      exact absurd hk (hfirst hj k hki)
    · rw [hki, hself] at hk
      rw [hother j hji] at hj
      exact absurd hj (hfirst hk j hji)
    · rw [hother j hji] at hj
      rw [hother k hki] at hk
      exact h.one j k hj hk
  have hlt : s.info.nref < 2 ^ 32 := by
    have hsum := sum_share_le s.threads h.one
    rw [← h.nref] at hsum
    unfold pinned at hroom
    unfold senIoMaxRef at hsum hroom
    omega
  have hlt' : n + th'.share < 2 ^ 32 := by
    rcases hmove.grows with hshare | hpins
    · omega
    · have hsum := sum_share_le _ hone
      have hpinned : ∑ j, (Function.update s.threads i th' j).pins.length = s.pinned := by
        apply Finset.sum_congr rfl
        intro j _
        by_cases hj : j = i
        · rw [hj, hself, hpins]
        · rw [hother j hj]
      rw [hafter, hpinned] at hsum
      unfold senIoMaxRef at hsum hroom
      omega
  refine ⟨?_, hone, fun j => ?_, fun k hk => ?_⟩
  · show info'.nref = ∑ j, (Function.update s.threads i th' j).share
    rw [hafter, hmove.nref hsees hbefore hlt, Nat.mod_eq_of_lt hlt']
  · show SegThread.Sees info'.map (Function.update s.threads i th' j)
    by_cases hj : j = i
    · rw [hj, hself]
      exact hmove.sees hsees fun halone => (h.alone i halone).1
    · rw [hother j hj]
      have hseesj := h.sees j
      rcases hmove.map with hmap | hmapping | hclear
      · rw [hmap]
        exact hseesj
      · -- nobody relies on the pointer while the segment is mapped
        have hnone := hsees.mapping hmapping
        refine ⟨fun a ha => ?_, fun hpc => ?_, fun hpc => ?_⟩
        · exact absurd (hnone.symm.trans (hseesj.pins a ha)) nofun
        · have hsome := hseesj.mapped hpc
          rw [hnone] at hsome
          exact absurd hsome Bool.false_ne_true
        · apply absurd (h.one j i _ _) hj
          · rw [hpc]
            rfl
          · rw [hmapping]
            rfl
      · obtain ⟨-, hquiet⟩ := h.alone i (by rw [hclear]; rfl)
        exact .of_quiet _ (hquiet j hj).1 (hquiet j hj).2
  · show (Function.update s.threads i th' k).pins = [] ∧ ∀ j, j ≠ k →
      (Function.update s.threads i th' j).pins = [] ∧
        (Function.update s.threads i th' j).pc.quiet
    change (Function.update s.threads i th' k).pc.alone at hk
    by_cases hki : k = i
    · rw [hki] at hk ⊢
      rw [hself] at hk ⊢
      rcases hmove.alone hk with ⟨halone, hpins⟩ | ⟨hclaim, hfew, hpins⟩
      · obtain ⟨hnone, hquiet⟩ := h.alone i halone
        refine ⟨hpins.trans hnone, fun j hj => ?_⟩
        rw [hother j hj]
        exact hquiet j hj
      · -- nothing but the thread's own part is in the counter
        have hshare : (s.threads i).share = (s.threads i).pins.length + 1 := by
          unfold SegThread.share
          rw [hclaim]
          rfl
        refine ⟨hpins.trans (List.length_eq_zero_iff.mp (by omega)), fun j hj => ?_⟩
        have hzero := hle j hj
        unfold SegThread.share at hzero
        rw [hother j hj]
        exact ⟨List.length_eq_zero_iff.mp (by omega), SegPc.quiet_of_hold (by omega)⟩
    · rw [hother k hki] at hk ⊢
      obtain ⟨hnone, hquiet⟩ := h.alone k hk
      refine ⟨hnone, fun j hj => ?_⟩
      by_cases hji : j = i
      · rw [hji, hself]
        obtain ⟨hpins, hpc⟩ := hquiet i fun heq => hki heq.symm
        have hshare := hle k hki
        have hhold := SegPc.hold_of_alone hk
        unfold SegThread.share at hshare
        obtain ⟨hquiet', hpins'⟩ := hmove.quiet hpc hpins (by omega)
        exact ⟨hpins', hquiet'⟩
      · rw [hother j hji]
        exact hquiet j hj

theorem Reach.safe (h : Reach Fits s) : s.Safe := by
  induction h with
  | init => exact Safe.init
  | step _ hok hstep ih => exact ih.step hok hstep

/-- **A pinned segment stays mapped.** While no address is taken without a part in the counter and
the pins and the threads are together fewer than `SEN_IO_MAX_REF`: whoever holds a pin has the
address that the segment is mapped at, and nobody is about to unmap it; at most one thread is
inside of mapping or unmapping; and the counter is the number of pins when no thread is inside of
an operation. -/
theorem Reach.pinned_mapped (h : Reach Fits s) :
    (∀ i, ∀ a ∈ (s.threads i).pins, s.info.map = some a ∧
      ∀ j, (s.threads j).pc ≠ .unmap ∧ (s.threads j).pc ≠ .clear) ∧
    (∀ i j, (s.threads i).pc.mapsOrUnmaps → (s.threads j).pc.mapsOrUnmaps → i = j) ∧
    ((∀ i, (s.threads i).pc = .idle) → s.info.nref = s.pinned) := by
  have hsafe := h.safe
  refine ⟨fun i a ha => ⟨(hsafe.sees i).pins a ha, fun j => ?_⟩, fun i j hi hj => ?_,
    fun hidle => ?_⟩
  · have halone : ¬(s.threads j).pc.alone := by
      intro halone
      obtain ⟨hnone, hquiet⟩ := hsafe.alone j halone
      have hpins : (s.threads i).pins = [] := by
        by_cases hij : i = j
        · rw [hij]
          exact hnone
        · exact (hquiet i hij).1
      rw [hpins] at ha
      exact absurd ha List.not_mem_nil
    constructor <;> intro hpc <;> exact halone (by rw [hpc]; rfl)
  · have hleads : ∀ {pc : SegPc}, pc.mapsOrUnmaps → pc.leads := by
      intro pc hpc
      cases pc with
      | mapping => rfl
      | unmap => rfl
      | clear => rfl
      | _ => exact absurd hpc Bool.false_ne_true
    exact hsafe.one i j (hleads hi) (hleads hj)
  · rw [hsafe.nref]
    apply Finset.sum_congr rfl
    intro i _
    unfold SegThread.share
    rw [hidle i]
    rfl

/-- The first thread cannot map the segment and tries again; then both threads hold a pin. -/
theorem Reach.pinned_mapped_both :
    ∃ s : SegState Bool, (s.threads true).pins = [7] ∧ (s.threads false).pins = [7] ∧
      s.info.map = some 7 ∧ s.info.nref = 2 := by
  have hfits {s : SegState Bool} (i : Bool) (choice : SegChoice)
      (hfailed : (s.threads i).pc = .addr false → s.info.map = none)
      (hpins : s.pinned + 2 < senIoMaxRef) : s.Fits i choice := ⟨hfailed, hpins⟩
  have h₁ := Reach.step .init (hfits true .ref nofun (by decide)) rfl
  have h₂ := h₁.step (hfits true .go nofun (by decide)) rfl
  have h₃ := h₂.step (hfits true .go nofun (by decide)) rfl
  have h₄ := h₃.step (hfits true .mmapFails nofun (by decide)) rfl
  have h₅ := h₄.step (hfits true .go nofun (by decide)) rfl
  have h₆ := h₅.step (hfits true .go nofun (by decide)) rfl
  have h₇ := h₆.step (hfits true .go (fun _ => rfl) (by decide)) rfl
  have h₈ := h₇.step (hfits true .ref nofun (by decide)) rfl
  have h₉ := h₈.step (hfits true .go nofun (by decide)) rfl
  have h₁₀ := h₉.step (hfits true .go nofun (by decide)) rfl
  have h₁₁ := h₁₀.step (hfits true (.mapAt 7) nofun (by decide)) rfl
  have h₁₂ := h₁₁.step (hfits true .go nofun (by decide)) rfl
  have h₁₃ := h₁₂.step (hfits true .go nofun (by decide)) rfl
  have h₁₄ := h₁₃.step (hfits false .ref nofun (by decide)) rfl
  have h₁₅ := h₁₄.step (hfits false .go nofun (by decide)) rfl
  have h₁₆ := h₁₅.step (hfits false .go nofun (by decide)) rfl
  have h₁₇ := h₁₆.step (hfits false .go nofun (by decide)) rfl
  have hidle := h₁₇.pinned_mapped.2.2 (by decide)
  exact ⟨_, rfl, rfl, (h₁₇.pinned_mapped.1 false 7 (by decide)).1, hidle.trans (by decide)⟩

/-- The first thread finds the segment not mapped and cannot map it. It lowers the counter, and
before it reads the address the second thread maps the segment. The first one takes the address,
and when it lets go of it the counter is zero: it may unmap what the second one has pinned. -/
theorem Reach.unmap_pinned :
    ∃ s : SegState Bool, Reach (fun _ _ _ => True) s ∧ (s.threads false).pins = [7] ∧
      (s.threads true).pc = .unmap := by
  have hrun : ∃ s : SegState Bool, SegState.init.run [(true, .ref), (true, .go),
      (true, .go), (true, .mmapFails), (true, .go), (true, .go), (false, .ref), (false, .go),
      (false, .go), (false, .mapAt 7), (false, .go), (false, .go), (true, .go), (true, .unref 0),
      (true, .expire), (true, .go), (true, .go)] = some s ∧ (s.threads false).pins = [7] ∧
      (s.threads true).pc = .unmap := ⟨_, rfl, rfl, rfl⟩
  obtain ⟨s, hrun, hpins, hpc⟩ := hrun
  exact ⟨s, Reach.run .init (fun _ _ _ => trivial) hrun, hpins, hpc⟩

end SegState

end Senna.Io
