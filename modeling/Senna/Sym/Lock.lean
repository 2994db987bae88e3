/-
# The lock of a symbol table

`sen_sym_lock` takes the lock by adding 1 to a counter that all processes share: who finds it
at 0 holds the lock, the others take their 1 back and try again until `timeout` is reached.

A failed attempt is in the counter too for as long as it lasts, so that an attempt made
meanwhile fails although nobody may hold the lock. The counter has 32 bits. It is the number
of processes that hold the lock or back off from it as long as these are fewer than `2 ^ 32`;
the exclusion needs exactly that a counter of 0 means that there are none.
-/

import Mathlib.Data.Fintype.Card
import Senna.Base

namespace Senna.Sym

/-- Where a process is in `sen_sym_lock` and `sen_sym_unlock`. -/
inductive LockPc
  /-- It does not hold the lock and does not try to. -/
  | idle
  /-- Before `SEN_ATOMIC_ADD_EX(sym->lock, 1, lock)`, with the number of failures. -/
  | attempt (timeout : Int) (count : Nat)
  /-- Between this and the `SEN_ATOMIC_ADD_EX(sym->lock, -1, lock)` after a failure. -/
  | back (timeout : Int) (count : Nat)
  /-- Between a successful `sen_sym_lock` and `sen_sym_unlock`. -/
  | held
  deriving DecidableEq, Repr

/-- What a process does next: it calls `sen_sym_lock`, goes on in it, or calls
`sen_sym_unlock`. -/
inductive LockChoice
  | lock (timeout : Int)
  | go
  | unlock
  deriving DecidableEq, Repr

/-- A step of a process, with `*sym->lock` before and after it. Behind a failure the lock is given
up when `!timeout || (timeout > 0 && timeout == count)`. -/
def LockPc.step (lock : Nat) : LockPc → LockChoice → Option (Nat × LockPc)
  | .idle, .lock timeout => some (lock, .attempt timeout 0)
  | .attempt timeout count, .go =>
      some ((lock + 1) % 2 ^ 32, if lock ≠ 0 then .back timeout count else .held)
  | .back timeout count, .go =>
      some (u32Sub lock 1,
        if timeout = 0 ∨ (0 < timeout ∧ timeout = count) then .idle
        else .attempt timeout ((count + 1) % 2 ^ 32))
  | .held, .unlock => some (u32Sub lock 1, .idle)
  | _, _ => none

/-- The counter and the processes that share it. -/
structure LockState (ι : Type) where
  lock : Nat
  procs : ι → LockPc

namespace LockState

variable {ι : Type} [DecidableEq ι]

/-- After `sen_sym_clear_lock`, with all processes outside. -/
def init : LockState ι := ⟨0, fun _ => .idle⟩

/-- A step of the process `i`. -/
def step (s : LockState ι) (i : ι) (choice : LockChoice) : Option (LockState ι) :=
  ((s.procs i).step s.lock choice).map fun (lock, pc) => ⟨lock, Function.update s.procs i pc⟩

/-- The states that steps lead to through states which satisfy `ok`. -/
inductive Reach (ok : LockState ι → Prop) : LockState ι → Prop
  | init : Reach ok init
  | step {s s' : LockState ι} {i : ι} {choice : LockChoice} (h : Reach ok s)
      (hstep : s.step i choice = some s') (hok : ok s') : Reach ok s'

end LockState

/-- Whether a process is between its failed increment and the decrement behind it. -/
def LockPc.backs : LockPc → Bool
  | .back _ _ => true
  | _ => false

/-- What a process has added to the counter. -/
def LockPc.share : LockPc → Nat
  | .back _ _ | .held => 1
  | _ => 0

/-- What a step of a process does, with its tests decided. -/
inductive LockPc.Moves (lock : Nat) : LockPc → Nat → LockPc → Prop
  | start (timeout : Int) : Moves lock .idle lock (.attempt timeout 0)
  | fail (timeout : Int) (count : Nat) (hlock : lock ≠ 0) :
      Moves lock (.attempt timeout count) ((lock + 1) % 2 ^ 32) (.back timeout count)
  | succeed (timeout : Int) (count : Nat) (hlock : lock = 0) :
      Moves lock (.attempt timeout count) ((lock + 1) % 2 ^ 32) .held
  | giveUp (timeout : Int) (count : Nat) : Moves lock (.back timeout count) (u32Sub lock 1) .idle
  | again (timeout : Int) (count : Nat) :
      Moves lock (.back timeout count) (u32Sub lock 1)
        (.attempt timeout ((count + 1) % 2 ^ 32))
  | unlock : Moves lock .held (u32Sub lock 1) .idle

namespace LockPc

variable {lock lock' : Nat} {pc pc' : LockPc} {choice : LockChoice}

theorem moves_of_step (h : pc.step lock choice = some (lock', pc')) :
    pc.Moves lock lock' pc' := by
  cases pc <;> cases choice <;>
    simp only [step, Option.some.injEq, Prod.mk.injEq, reduceCtorEq] at h
  case idle.lock =>
    obtain ⟨rfl, rfl⟩ := h
    exact .start _
  case attempt.go =>
    obtain ⟨rfl, rfl⟩ := h
    split_ifs with hlock
    · exact .fail _ _ hlock
    · exact .succeed _ _ (not_not.mp hlock)
  case back.go =>
    obtain ⟨rfl, rfl⟩ := h
    split_ifs
    · exact .giveUp _ _
    · exact .again _ _
  case held.unlock =>
    obtain ⟨rfl, rfl⟩ := h
    exact .unlock

/-- The counter changes by what the share of the process changes, modulo `2 ^ 32`. -/
theorem Moves.lock_mod (h : pc.Moves lock lock' pc') {n : Nat}
    (hlock : lock = (n + pc.share) % 2 ^ 32) : lock' = (n + pc'.share) % 2 ^ 32 := by
  cases h <;> simp only [share, u32Sub] at hlock ⊢ <;> omega

/-- A process that holds the lock after a step has held it before or found the counter at 0. -/
theorem Moves.held (h : pc.Moves lock lock' .held) : lock = 0 := by
  cases h
  assumption

end LockPc

namespace LockState

variable {ι : Type} [DecidableEq ι] {s s' : LockState ι} {i : ι} {choice : LockChoice}

theorem step_spec (h : s.step i choice = some s') :
    ∃ lock' pc', (s.procs i).Moves s.lock lock' pc' ∧
      s' = ⟨lock', Function.update s.procs i pc'⟩ := by
  obtain ⟨⟨lock', pc'⟩, hstep, rfl⟩ := Option.map_eq_some_iff.mp h
  exact ⟨lock', pc', LockPc.moves_of_step hstep, rfl⟩

variable [Fintype ι]

/-- The processes that hold the lock. -/
def holders (s : LockState ι) : Finset ι := Finset.univ.filter fun i => s.procs i = .held

/-- The processes between their failed increment and the decrement behind it. -/
def backers (s : LockState ι) : Finset ι := Finset.univ.filter fun i => (s.procs i).backs

/-- Fewer than `2 ^ 32` processes hold the lock or back off from it. -/
def Few (s : LockState ι) : Prop := s.holders.card + s.backers.card < 2 ^ 32

instance : DecidablePred (Few (ι := ι)) := fun _ => inferInstanceAs (Decidable (_ < _))

omit [DecidableEq ι] in
theorem sum_share (s : LockState ι) :
    ∑ i, (s.procs i).share = s.holders.card + s.backers.card := by
  rw [holders, backers, Finset.card_filter, Finset.card_filter, ← Finset.sum_add_distrib]
  refine Finset.sum_congr rfl fun i _ => ?_
  cases s.procs i <;> rfl

/-- **A step** keeps the counter at the number of holders and backers, modulo `2 ^ 32`. -/
theorem lock_mod_of_step (h : s.lock = (s.holders.card + s.backers.card) % 2 ^ 32)
    (hstep : s.step i choice = some s') :
    s'.lock = (s'.holders.card + s'.backers.card) % 2 ^ 32 := by
  obtain ⟨lock', pc', hmoves, rfl⟩ := step_spec hstep
  -- the share of the process and that of the others
  have hsplit (procs : ι → LockPc) : ∑ j, (procs j).share =
      ∑ j ∈ Finset.univ.erase i, (procs j).share + (procs i).share :=
    (Finset.sum_erase_add _ _ (Finset.mem_univ i)).symm
  have hothers : ∑ j ∈ Finset.univ.erase i, (Function.update s.procs i pc' j).share =
      ∑ j ∈ Finset.univ.erase i, (s.procs j).share := by
    refine Finset.sum_congr rfl fun j hj => ?_
    rw [Function.update_of_ne (Finset.ne_of_mem_erase hj)]
  have hafter : ∑ j, (Function.update s.procs i pc' j).share =
      ∑ j ∈ Finset.univ.erase i, (s.procs j).share + pc'.share := by
    rw [hsplit, hothers, Function.update_self]
  rw [← sum_share, hsplit] at h
  rw [← sum_share, hafter]
  exact hmoves.lock_mod h

/-- A new holder has found the counter at 0. -/
theorem holders_of_step (hstep : s.step i choice = some s') :
    s'.holders ⊆ s.holders ∨ s.lock = 0 ∧ s'.holders ⊆ insert i s.holders := by
  obtain ⟨lock', pc', hmoves, rfl⟩ := step_spec hstep
  have hmem {j : ι} (hj : j ∈ holders ⟨lock', Function.update s.procs i pc'⟩) :
      j = i ∧ pc' = .held ∨ j ∈ s.holders := by
    have hheld : Function.update s.procs i pc' j = .held := (Finset.mem_filter.mp hj).2
    by_cases heq : j = i
    · rw [heq, Function.update_self] at hheld
      exact .inl ⟨heq, hheld⟩
    · rw [Function.update_of_ne heq] at hheld
      exact .inr (Finset.mem_filter.mpr ⟨Finset.mem_univ j, hheld⟩)
  by_cases hheld : pc' = .held
  · subst hheld
    refine .inr ⟨hmoves.held, fun j hj => Finset.mem_insert.mpr ?_⟩
    exact (hmem hj).imp_left And.left
  · exact .inl fun j hj => (hmem hj).resolve_left fun h => hheld h.2

/-- The counter is right and the lock excludes. -/
structure Excludes (s : LockState ι) : Prop where
  lock : s.lock = s.holders.card + s.backers.card
  one : s.holders.card ≤ 1

omit [DecidableEq ι] in
theorem excludes_init : Excludes (init : LockState ι) := by
  have hholders : (init : LockState ι).holders = ∅ := Finset.filter_false_of_mem fun _ _ => nofun
  have hbackers : (init : LockState ι).backers = ∅ := Finset.filter_false_of_mem fun _ _ => nofun
  exact ⟨by rw [hholders, hbackers]; rfl, by rw [hholders]; exact Nat.zero_le 1⟩

omit [DecidableEq ι] in
theorem few_init : Few (init : LockState ι) := by
  rw [Few, ← excludes_init.lock]
  exact Nat.two_pow_pos 32

/-- **A step** to a state with few holders and backers. -/
theorem Excludes.step (h : s.Excludes) (hstep : s.step i choice = some s') (hfew : s'.Few)
    (hbefore : s.Few) : s'.Excludes := by
  have hmod := lock_mod_of_step (h.lock.trans (Nat.mod_eq_of_lt hbefore).symm) hstep
  refine ⟨hmod.trans (Nat.mod_eq_of_lt hfew), ?_⟩
  rcases holders_of_step hstep with hsub | ⟨hzero, hsub⟩
  · exact (Finset.card_le_card hsub).trans h.one
  · have hnone : s.holders.card = 0 := by
      have := h.lock
      omega
    exact (Finset.card_le_card hsub).trans ((Finset.card_insert_le _ _).trans (by omega))

/-- **The lock excludes** and the counter is the number of holders and backers, in every run in
which these are always fewer than `2 ^ 32`. -/
theorem Reach.excludes (h : Reach Few s) : s.Excludes := by
  have hall : s.Excludes ∧ s.Few := by
    induction h with
    | init => exact ⟨excludes_init, few_init⟩
    | step h hstep hok ih => exact ⟨ih.1.step hstep hok ih.2, hok⟩
  exact hall.1

/-- One of two processes has taken the lock, and the other one has failed. -/
theorem excludes_pair :
    ∃ s : LockState Bool, s.procs true = .held ∧ s.procs false = .back 0 0 ∧ s.Excludes := by
  have hrun : ∃ s₁ s₂ s₃ s₄ : LockState Bool, init.step true (.lock 0) = some s₁ ∧
      s₁.step true .go = some s₂ ∧ s₂.step false (.lock 0) = some s₃ ∧
      s₃.step false .go = some s₄ ∧ (s₁.Few ∧ s₂.Few ∧ s₃.Few ∧ s₄.Few) ∧
      s₄.procs true = .held ∧ s₄.procs false = .back 0 0 :=
    ⟨_, _, _, _, rfl, rfl, rfl, rfl, by decide, rfl, rfl⟩
  obtain ⟨s₁, s₂, s₃, s₄, h₁, h₂, h₃, h₄, ⟨few₁, few₂, few₃, few₄⟩, htrue, hfalse⟩ := hrun
  exact ⟨s₄, htrue, hfalse, Reach.excludes
    ((((Reach.init.step h₁ few₁).step h₂ few₂).step h₃ few₃).step h₄ few₄)⟩

/-- Process 0 holds the lock, the next `n` processes back off from it. -/
def crowd (n : Nat) : LockState (Fin (2 ^ 32 + 1)) :=
  ⟨(n + 1) % 2 ^ 32, fun i =>
    if i.val = 0 then .held else if i.val ≤ n then .back 0 0 else .idle⟩

/-- What an attempt that begins with the counter at `lock` comes to. -/
theorem reach_attempt {ι : Type} [DecidableEq ι] {s : LockState ι} {i : ι}
    (h : Reach (fun _ => True) s) (hidle : s.procs i = .idle) :
    Reach (fun _ => True) ⟨(s.lock + 1) % 2 ^ 32,
      Function.update s.procs i (if s.lock ≠ 0 then .back 0 0 else .held)⟩ := by
  have hlock : s.step i (.lock 0) = some ⟨s.lock, Function.update s.procs i (.attempt 0 0)⟩ := by
    rw [LockState.step, hidle]
    rfl
  have hgo : (⟨s.lock, Function.update s.procs i (.attempt 0 0)⟩ : LockState ι).step i .go =
      some ⟨(s.lock + 1) % 2 ^ 32,
        Function.update s.procs i (if s.lock ≠ 0 then .back 0 0 else .held)⟩ := by
    simp only [LockState.step, Function.update_self, LockPc.step, Option.map_some,
      Function.update_idem]
  exact (h.step hlock trivial).step hgo trivial

theorem crowd_reach {n : Nat} (hn : n < 2 ^ 32) : Reach (fun _ => True) (crowd n) := by
  induction n with
  | zero =>
      have h := reach_attempt (i := (0 : Fin (2 ^ 32 + 1))) .init rfl
      have heq : crowd 0 = ⟨(0 + 1) % 2 ^ 32,
          Function.update (fun _ => .idle) 0 (if 0 ≠ 0 then .back 0 0 else .held)⟩ := by
        rw [crowd]
        congr 1
        funext i
        by_cases hi : i = 0
        · rw [hi, Function.update_self]
          rfl
        · have hval : i.val ≠ 0 := fun h => hi (Fin.ext h)
          rw [Function.update_of_ne hi, if_neg hval, if_neg (by omega)]
      rw [heq]
      exact h
  | succ n ih =>
      have hk : n + 1 < 2 ^ 32 + 1 := by omega
      have h := reach_attempt (i := ⟨n + 1, hk⟩) (ih (by omega)) (by simp [crowd])
      have heq : crowd (n + 1) = ⟨((crowd n).lock + 1) % 2 ^ 32,
          Function.update (crowd n).procs ⟨n + 1, hk⟩
            (if (crowd n).lock ≠ 0 then .back 0 0 else .held)⟩ := by
        have hlock : (crowd n).lock = n + 1 := Nat.mod_eq_of_lt (by omega)
        rw [hlock, if_pos (Nat.succ_ne_zero n), crowd]
        congr 1
        funext i
        by_cases hi : i = ⟨n + 1, hk⟩
        · rw [hi, Function.update_self, if_neg (Nat.succ_ne_zero n), if_pos le_rfl]
        · have hval : i.val ≠ n + 1 := fun h => hi (Fin.ext h)
          have hle : i.val ≤ n + 1 ↔ i.val ≤ n := by omega
          rw [Function.update_of_ne hi]
          simp only [crowd, hle]
      rw [heq]
      exact h

/-- With one more process than the counter can count, the lock is given to two of them. -/
theorem excludes_fails :
    ∃ s : LockState (Fin (2 ^ 32 + 1)), Reach (fun _ => True) s ∧ 1 < s.holders.card := by
  have hcrowd := crowd_reach (n := 2 ^ 32 - 1) (by decide)
  have hzero : (crowd (2 ^ 32 - 1)).lock = 0 := rfl
  have h := reach_attempt (i := Fin.last (2 ^ 32)) hcrowd rfl
  rw [hzero, if_neg (not_not.mpr rfl)] at h
  have hne : (0 : Fin (2 ^ 32 + 1)) ≠ Fin.last (2 ^ 32) := by decide
  have hfirst : Function.update (crowd (2 ^ 32 - 1)).procs (Fin.last (2 ^ 32)) .held 0 = .held := by
    rw [Function.update_of_ne hne]
    rfl
  have hlast : Function.update (crowd (2 ^ 32 - 1)).procs (Fin.last (2 ^ 32)) .held
      (Fin.last (2 ^ 32)) = .held := Function.update_self ..
  exact ⟨_, h, Finset.one_lt_card.mpr ⟨0, Finset.mem_filter.mpr ⟨Finset.mem_univ _, hfirst⟩,
    Fin.last (2 ^ 32), Finset.mem_filter.mpr ⟨Finset.mem_univ _, hlast⟩, hne⟩⟩

end LockState

end Senna.Sym
