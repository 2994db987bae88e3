/-
# Setting a text slot

`slot_value_ja` hands the stored value of a record and the new one to every index that is to be
updated before the slot, and then stores the new value. It logs an update that fails and goes on,
and it undoes nothing when the value cannot be stored. So the indexes and the value agree afterwards
only where each update came to its end, or stopped before it had changed anything.

What the functions answer at the points where they can end with an error is given with each call,
and so is what `sen_inv_delete` and `sen_inv_update` did to a term: `index_del` drops the code of
the one, and the other also returns success where it stores nothing. The indexes of a slot are
different ones. Requests for memory in the loops over tokens succeed.
-/

import Senna.Base

namespace Senna.Db

universe u

variable {π : Type u}

/-- An index: the terms of a value with their postings, and the postings that it holds for the
record, by term. -/
@[ext]
structure TextIndex (π : Type u) where
  terms : List UInt8 → List (Nat × π)
  content : Nat → Option π

/-- The answers on the way through `sen_index_upd`: whether `_sen_sym_key` finds the key of the
record, what the lock returns, what `index_del` and `index_add` return where they cannot begin, and
for each term whether `sen_inv_delete` took the postings away, what `sen_inv_update` returns and
whether it stored them. -/
structure UpdEnv where
  key : Bool
  lock : SenRc
  del : SenRc
  add : SenRc
  invDelete : Nat → Bool
  invUpdate : Nat → SenRc × Bool
  symDel : SenRc
  foreignKey : Bool

/-- A value is passed to the index: `value && *value`. -/
def Indexed (value : List UInt8) : Prop := value.headD 0 ≠ 0

instance (value : List UInt8) : Decidable (Indexed value) := inferInstanceAs (Decidable (_ ≠ _))

/-- The postings of a value. -/
def TextIndex.postings (x : TextIndex π) (value : List UInt8) (t : Nat) : Option π :=
  if Indexed value then (x.terms value).lookup t else none

/-- `index_del`: it goes on where `sen_inv_delete` fails for a term, and returns success. -/
def TextIndex.indexDel (x : TextIndex π) (e : UpdEnv) (value : List UInt8) :
    SenRc × TextIndex π :=
  if e.del ≠ .success then (e.del, x)
  else
    (.success, { x with
      content := fun t =>
        if ((x.terms value).lookup t).isSome ∧ e.invDelete t then none else x.content t })

/-- `index_add`: it goes on where `sen_inv_update` fails for a term. -/
def TextIndex.indexAdd (x : TextIndex π) (e : UpdEnv) (value : List UInt8) :
    SenRc × TextIndex π :=
  if e.add ≠ .success then (e.add, x)
  else
    ((x.terms value).foldl (fun rc t =>
        if (e.invUpdate t.1).1 = .success then rc else (e.invUpdate t.1).1) .success,
      { x with
        content := fun t =>
          match (x.terms value).lookup t with
          | some p => if (e.invUpdate t).2 then some p else x.content t
          | none => x.content t })

/-- `sen_index_upd`; a value that is empty or absent is `[]`. -/
def TextIndex.senIndexUpd (x : TextIndex π) (e : UpdEnv) (oldvalue newvalue : List UInt8) :
    SenRc × TextIndex π :=
  if e.lock ≠ .success then (e.lock, x)
  else
    let r := if Indexed oldvalue then x.indexDel e oldvalue else (.success, x)
    if r.1 ≠ .success then r
    else if Indexed newvalue then r.2.indexAdd e newvalue
    else (if e.foreignKey then .success else e.symDel, r.2)

/-- The answers on the way through `sen_ja_put`; `splits` tells whether the old value goes on in
another segment, where a header is written for what is left of it. -/
structure PutEnv where
  assignEseg : SenRc
  mapped : Bool
  assignRec : SenRc
  write : SenRc
  splits : Bool
  writeEhead : SenRc

/-- `sen_ja_put` returns before it sets the new element. -/
def PutEnv.Refuses (e : PutEnv) (value : List UInt8) : Prop :=
  e.assignEseg ≠ .success ∨ ¬ e.mapped ∨
    value ≠ [] ∧ (e.assignRec ≠ .success ∨ e.write ≠ .success)

instance (e : PutEnv) (value : List UInt8) : Decidable (e.Refuses value) :=
  inferInstanceAs (Decidable (_ ∨ _))

/-- `sen_ja_put`: the return code and what is stored. -/
def senJaPut (e : PutEnv) (stored value : List UInt8) : SenRc × List UInt8 :=
  if e.assignEseg ≠ .success then (e.assignEseg, stored)
  else if ¬ e.mapped then (.otherError, stored)
  else if value ≠ [] ∧ e.assignRec ≠ .success then (e.assignRec, stored)
  else if value ≠ [] ∧ e.write ≠ .success then (e.write, stored)
  else (if stored ≠ [] ∧ e.splits then e.writeEhead else .success, value)

/-- A trigger with its index, and the answers for this call. -/
structure SlotTrigger (π : Type u) where
  beforeUpdate : Bool
  index : TextIndex π
  env : UpdEnv

/-- A text slot at a record; `maxElementSize` is what `sen_ja_info` returns. -/
structure TextSlot (π : Type u) where
  stored : List UInt8
  maxElementSize : Option Nat
  triggers : List (SlotTrigger π)

/-- The argument of a call. -/
inductive SlotArg
  | bulk (value : List UInt8)
  | void
  | other

/-- What a call returns: an error, false, or the argument. -/
inductive SlotRes
  | error
  | false
  | car
  deriving DecidableEq, Repr

/-- One round of the loop over the triggers. -/
def SlotTrigger.fire (t : SlotTrigger π) (oldvalue newvalue : List UInt8) : SlotTrigger π :=
  if t.beforeUpdate ∧ t.env.key then
    { t with index := (t.index.senIndexUpd t.env oldvalue newvalue).2 }
  else t

/-- `slot_value_ja` from the comparison of the values on. -/
def TextSlot.update (s : TextSlot π) (e : PutEnv) (value : List UInt8) : SlotRes × TextSlot π :=
  if s.stored = value then (.car, s)
  else
    let r := senJaPut e s.stored value
    (if r.1 ≠ .success then .false else .car,
      { s with stored := r.2, triggers := s.triggers.map fun t => t.fire s.stored value })

/-- `slot_value_ja` with an argument. -/
def slotValueJa (s : TextSlot π) (e : PutEnv) : SlotArg → SlotRes × TextSlot π
  | .bulk value =>
      match s.maxElementSize with
      | none => (.error, s)
      | some maxElementSize =>
          if value.length > maxElementSize then (.error, s) else s.update e value
  | .void => s.update e []
  | .other => (.false, s)

/-- Every triggered index holds the postings of a value. -/
def TextSlot.Agrees (s : TextSlot π) (value : List UInt8) : Prop :=
  ∀ t ∈ s.triggers, t.beforeUpdate → t.index.content = t.index.postings value

/-- The new value of a call. -/
def SlotArg.value : SlotArg → List UInt8
  | .bulk value => value
  | .void => []
  | .other => []

/-- The slot takes the argument. -/
def TextSlot.Accepts (s : TextSlot π) : SlotArg → Prop
  | .bulk value => ∃ maxElementSize, s.maxElementSize = some maxElementSize ∧
      value.length ≤ maxElementSize
  | .void => True
  | .other => False

/-- The value and the indexes change together, or an error is returned and nothing changes. -/
def ChangesTogether (s : TextSlot π) (value : List UInt8) (r : SlotRes × TextSlot π) : Prop :=
  r.2.stored = value ∧ r.2.Agrees value ∨ r.1 ≠ .car ∧ r.2 = s

/-- An update ends before it has changed anything. -/
def SlotTrigger.Skips (t : SlotTrigger π) (oldvalue : List UInt8) : Prop :=
  ¬ t.env.key ∨ t.env.lock ≠ .success ∨ Indexed oldvalue ∧ t.env.del ≠ .success

instance (t : SlotTrigger π) (oldvalue : List UInt8) : Decidable (t.Skips oldvalue) :=
  inferInstanceAs (Decidable (_ ∨ _))

/-- The postings of the old value that `index_del` leaves. -/
def SlotTrigger.kept (t : SlotTrigger π) (oldvalue : List UInt8) (k : Nat) : Option π :=
  if t.env.invDelete k then none else t.index.postings oldvalue k

/-- `index_add` stores the postings of the new value for a term. -/
def SlotTrigger.Adds (t : SlotTrigger π) (newvalue : List UInt8) (k : Nat) : Prop :=
  t.env.add = .success ∧ (t.env.invUpdate k).2 ∧ (t.index.postings newvalue k).isSome

instance (t : SlotTrigger π) (newvalue : List UInt8) (k : Nat) : Decidable (t.Adds newvalue k) :=
  inferInstanceAs (Decidable (_ ∧ _))

/-- An update ends with the postings of the new value, because nothing failed or because what
failed makes no difference. -/
def SlotTrigger.Updates (t : SlotTrigger π) (oldvalue newvalue : List UInt8) : Prop :=
  if t.Skips oldvalue then t.index.postings oldvalue = t.index.postings newvalue
  else ∀ k, ¬ t.Adds newvalue k → t.kept oldvalue k = t.index.postings newvalue k

/-- An update ends with the postings of the old value. -/
def SlotTrigger.Spares (t : SlotTrigger π) (oldvalue newvalue : List UInt8) : Prop :=
  t.Skips oldvalue ∨ ∀ k,
    if t.Adds newvalue k then t.index.postings newvalue k = t.index.postings oldvalue k
    else t.kept oldvalue k = t.index.postings oldvalue k

section

variable {t : SlotTrigger π} {oldvalue newvalue : List UInt8}

/-- The postings that an update of the old value leaves. -/
def SlotTrigger.left (t : SlotTrigger π) (oldvalue newvalue : List UInt8) (k : Nat) : Option π :=
  if t.Skips oldvalue then t.index.postings oldvalue k
  else if t.Adds newvalue k then t.index.postings newvalue k
  else t.kept oldvalue k

/-- `index_del` takes the postings of the old value away, as far as `sen_inv_delete` does. -/
theorem content_after_del {x : TextIndex π} {e : UpdEnv}
    (hold : x.content = x.postings oldvalue) (hdel : Indexed oldvalue → e.del = .success) :
    ∃ x', (if Indexed oldvalue then x.indexDel e oldvalue else (.success, x)) = (.success, x') ∧
      x'.terms = x.terms ∧
      ∀ k, x'.content k = if e.invDelete k then none else x.postings oldvalue k := by
  by_cases hindexed : Indexed oldvalue
  · rw [if_pos hindexed, TextIndex.indexDel, if_neg (not_not.mpr (hdel hindexed))]
    refine ⟨_, rfl, rfl, fun k => ?_⟩
    dsimp only
    rw [hold, TextIndex.postings, if_pos hindexed]
    cases (x.terms oldvalue).lookup k <;> cases e.invDelete k <;> rfl
  · rw [if_neg hindexed]
    refine ⟨x, rfl, rfl, fun k => ?_⟩
    rw [hold, TextIndex.postings, if_neg hindexed, ite_self]

theorem content_senIndexUpd {x : TextIndex π} {e : UpdEnv}
    (hold : x.content = x.postings oldvalue) (hlock : e.lock = .success)
    (hdel : Indexed oldvalue → e.del = .success) (k : Nat) :
    (x.senIndexUpd e oldvalue newvalue).2.content k =
      if e.add = .success ∧ (e.invUpdate k).2 ∧ (x.postings newvalue k).isSome then
        x.postings newvalue k
      else if e.invDelete k then none else x.postings oldvalue k := by
  obtain ⟨x', hx', hterms, hcontent⟩ := content_after_del hold hdel
  rw [TextIndex.senIndexUpd, if_neg (not_not.mpr hlock)]
  dsimp only
  rw [hx', if_neg (not_not.mpr rfl), ← hcontent]
  by_cases hindexed : Indexed newvalue
  · rw [if_pos hindexed]
    dsimp only
    by_cases hadd : e.add = .success
    · rw [TextIndex.indexAdd, if_neg (not_not.mpr hadd)]
      dsimp only
      rw [hterms, TextIndex.postings, if_pos hindexed]
      cases (x.terms newvalue).lookup k <;> simp [hadd]
    · rw [TextIndex.indexAdd, if_pos hadd, if_neg fun h => hadd h.1]
  · rw [if_neg hindexed]
    dsimp only
    rw [TextIndex.postings, if_neg hindexed, if_neg fun h => Bool.false_ne_true h.2.2]

theorem senIndexUpd_of_skips (x : TextIndex π) {e : UpdEnv}
    (hskips : e.lock ≠ .success ∨ Indexed oldvalue ∧ e.del ≠ .success) :
    (x.senIndexUpd e oldvalue newvalue).2 = x := by
  unfold TextIndex.senIndexUpd
  by_cases hlock : e.lock = .success
  · obtain ⟨hindexed, hdel⟩ := hskips.resolve_left (not_not.mpr hlock)
    rw [if_neg (not_not.mpr hlock), if_pos hindexed, TextIndex.indexDel, if_pos hdel]
    exact congrArg Prod.snd (if_pos hdel)
  · rw [if_pos hlock]

theorem content_fire (ht : t.beforeUpdate) (hold : t.index.content = t.index.postings oldvalue) :
    (t.fire oldvalue newvalue).index.content = t.left oldvalue newvalue := by
  funext k
  rw [SlotTrigger.fire, SlotTrigger.left]
  by_cases hkey : t.env.key
  · rw [if_pos ⟨ht, hkey⟩]
    dsimp only
    by_cases hskips : t.Skips oldvalue
    · rw [if_pos hskips, senIndexUpd_of_skips _ (hskips.resolve_left (not_not.mpr hkey)), hold]
    · obtain ⟨-, hrest⟩ := not_or.mp hskips
      obtain ⟨hlock, hdel⟩ := not_or.mp hrest
      rw [if_neg hskips, content_senIndexUpd hold (not_not.mp hlock)
        fun h => not_not.mp fun hne => hdel ⟨h, hne⟩]
      rfl
  · rw [if_neg fun h => hkey h.2, if_pos (show t.Skips oldvalue from .inl hkey), hold]

@[simp]
theorem terms_indexDel (x : TextIndex π) (e : UpdEnv) (value : List UInt8) :
    (x.indexDel e value).2.terms = x.terms := by
  unfold TextIndex.indexDel
  split_ifs <;> rfl

@[simp]
theorem terms_indexAdd (x : TextIndex π) (e : UpdEnv) (value : List UInt8) :
    (x.indexAdd e value).2.terms = x.terms := by
  unfold TextIndex.indexAdd
  split_ifs <;> rfl

@[simp]
theorem terms_senIndexUpd (x : TextIndex π) (e : UpdEnv) (oldvalue newvalue : List UInt8) :
    (x.senIndexUpd e oldvalue newvalue).2.terms = x.terms := by
  unfold TextIndex.senIndexUpd
  dsimp only
  split_ifs <;> simp

theorem postings_fire (value : List UInt8) :
    (t.fire oldvalue newvalue).index.postings value = t.index.postings value := by
  have hterms : (t.fire oldvalue newvalue).index.terms = t.index.terms := by
    unfold SlotTrigger.fire
    split_ifs <;> simp
  funext k
  rw [TextIndex.postings, TextIndex.postings, hterms]

theorem left_eq_new_iff :
    t.left oldvalue newvalue = t.index.postings newvalue ↔ t.Updates oldvalue newvalue := by
  unfold SlotTrigger.Updates
  rw [funext_iff]
  unfold SlotTrigger.left
  by_cases hskips : t.Skips oldvalue
  · simp only [hskips, if_true, funext_iff]
  · simp only [if_neg hskips]
    refine forall_congr' fun k => ?_
    by_cases hadds : t.Adds newvalue k
    · rw [if_pos hadds]
      exact iff_of_true rfl fun h => absurd hadds h
    · rw [if_neg hadds]
      exact ⟨fun h _ => h, fun h => h hadds⟩

theorem left_eq_old_iff :
    t.left oldvalue newvalue = t.index.postings oldvalue ↔ t.Spares oldvalue newvalue := by
  unfold SlotTrigger.Spares
  rw [funext_iff]
  unfold SlotTrigger.left
  by_cases hskips : t.Skips oldvalue
  · simp only [hskips, if_true, true_or, implies_true]
  · simp only [hskips, if_false, false_or]
    refine forall_congr' fun k => ?_
    by_cases hadds : t.Adds newvalue k
    · simp only [if_pos hadds]
    · simp only [if_neg hadds]

theorem beforeUpdate_fire : (t.fire oldvalue newvalue).beforeUpdate = t.beforeUpdate := by
  unfold SlotTrigger.fire
  split_ifs <;> rfl

/-- A round leaves its trigger as it was exactly if the index keeps its postings. -/
theorem fire_eq_iff (hold : t.beforeUpdate → t.index.content = t.index.postings oldvalue) :
    t.fire oldvalue newvalue = t ↔ (t.beforeUpdate → t.Spares oldvalue newvalue) := by
  by_cases ht : t.beforeUpdate
  · rw [← left_eq_old_iff, ← content_fire ht (hold ht), ← hold ht]
    refine ⟨fun h _ => by rw [h], fun h => ?_⟩
    have hcontent := h ht
    rw [SlotTrigger.fire] at hcontent ⊢
    split_ifs at hcontent ⊢ with hkey
    · rw [TextIndex.ext (terms_senIndexUpd t.index t.env oldvalue newvalue) hcontent]
    · rfl
  · rw [SlotTrigger.fire, if_neg fun h => ht h.1]
    exact ⟨fun _ h => absurd h ht, fun _ => rfl⟩

end

section

variable {s : TextSlot π} {e : PutEnv} {value : List UInt8}

theorem senJaPut_of_refuses {stored : List UInt8} (h : e.Refuses value) :
    (senJaPut e stored value).1 ≠ .success ∧ (senJaPut e stored value).2 = stored := by
  unfold senJaPut
  by_cases heseg : e.assignEseg = .success
  · rw [if_neg (not_not.mpr heseg)]
    by_cases hmapped : e.mapped
    · rw [if_neg (not_not.mpr hmapped)]
      obtain ⟨hvalue, hrest⟩ := (h.resolve_left (not_not.mpr heseg)).resolve_left
        (not_not.mpr hmapped)
      by_cases hrec : e.assignRec = .success
      · have hwrite := hrest.resolve_left (not_not.mpr hrec)
        rw [if_neg fun h => h.2 hrec, if_pos ⟨hvalue, hwrite⟩]
        exact ⟨hwrite, rfl⟩
      · rw [if_pos ⟨hvalue, hrec⟩]
        exact ⟨hrec, rfl⟩
    · rw [if_pos hmapped]
      exact ⟨SenRc.noConfusion, rfl⟩
  · rw [if_pos heseg]
    exact ⟨heseg, rfl⟩

theorem senJaPut_stores {stored : List UInt8} (h : ¬ e.Refuses value) :
    (senJaPut e stored value).2 = value := by
  unfold senJaPut
  unfold PutEnv.Refuses at h
  rw [if_neg (by tauto), if_neg (by tauto), if_neg (by tauto), if_neg (by tauto)]

theorem triggers_fire_eq_iff (hinit : s.Agrees s.stored) :
    (s.triggers.map fun t => t.fire s.stored value) = s.triggers ↔
      ∀ t ∈ s.triggers, t.beforeUpdate → t.Spares s.stored value := by
  nth_rewrite 2 [← List.map_id s.triggers]
  rw [List.map_inj_left]
  exact forall₂_congr fun t ht => fire_eq_iff (hinit t ht)

theorem agrees_fire_iff {stored : List UInt8} (hinit : s.Agrees s.stored) :
    TextSlot.Agrees ⟨stored, s.maxElementSize, s.triggers.map fun t => t.fire s.stored value⟩
        value ↔
      ∀ t ∈ s.triggers, t.beforeUpdate → t.Updates s.stored value := by
  unfold TextSlot.Agrees
  rw [List.forall_mem_map]
  refine forall₂_congr fun t ht => ?_
  rw [beforeUpdate_fire, postings_fire]
  exact forall_congr' fun hbefore => by
    rw [content_fire hbefore (hinit t ht hbefore), left_eq_new_iff]

theorem update_iff (hinit : s.Agrees s.stored) (hne : s.stored ≠ value) :
    ChangesTogether s value (s.update e value) ↔
      if e.Refuses value then ∀ t ∈ s.triggers, t.beforeUpdate → t.Spares s.stored value
      else ∀ t ∈ s.triggers, t.beforeUpdate → t.Updates s.stored value := by
  rw [TextSlot.update, if_neg hne, ChangesTogether]
  dsimp only
  by_cases hrefuses : e.Refuses value
  · have hput : (senJaPut e s.stored value).1 ≠ .success ∧
        (senJaPut e s.stored value).2 = s.stored := senJaPut_of_refuses hrefuses
    obtain ⟨hrc, hput⟩ := hput
    rw [if_pos hrefuses, if_pos hrc, hput, ← triggers_fire_eq_iff hinit]
    refine ⟨fun h => ?_, fun h => .inr ⟨SlotRes.noConfusion, by rw [h]⟩⟩
    rcases h with ⟨hstored, -⟩ | ⟨-, hs⟩
    · exact absurd hstored hne
    · exact congrArg TextSlot.triggers hs
  · rw [if_neg hrefuses, senJaPut_stores hrefuses, ← agrees_fire_iff hinit]
    refine ⟨fun h => ?_, fun h => .inl ⟨rfl, h⟩⟩
    rcases h with ⟨-, hagrees⟩ | ⟨-, hs⟩
    · exact hagrees
    · exact absurd (congrArg TextSlot.stored hs).symm hne

/-- **When a slot and its indexes change together.** The argument is refused, or it is the value
that is stored; or the value is stored and each update comes to its end, or it is not stored and
each update stops before it has changed anything. -/
theorem slotValueJa_iff {arg : SlotArg} (hinit : s.Agrees s.stored) :
    ChangesTogether s arg.value (slotValueJa s e arg) ↔
      ¬ s.Accepts arg ∨ s.stored = arg.value ∨
        if e.Refuses arg.value then
          ∀ t ∈ s.triggers, t.beforeUpdate → t.Spares s.stored arg.value
        else ∀ t ∈ s.triggers, t.beforeUpdate → t.Updates s.stored arg.value := by
  by_cases haccepts : s.Accepts arg
  · have hcall : slotValueJa s e arg = s.update e arg.value := by
      cases arg with
      | bulk value =>
        obtain ⟨maxElementSize, hmax, hle⟩ := haccepts
        simp only [slotValueJa, hmax, SlotArg.value, if_neg (not_lt.mpr hle)]
      | void => rfl
      | other => exact haccepts.elim
    rw [hcall]
    by_cases hsame : s.stored = arg.value
    · rw [TextSlot.update, if_pos hsame]
      exact iff_of_true (.inl ⟨hsame, hsame ▸ hinit⟩) (.inr (.inl hsame))
    · rw [update_iff hinit hsame]
      simp only [haccepts, hsame, not_true, false_or]
  · refine iff_of_true (.inr ?_) (.inl haccepts)
    cases arg with
    | bulk value =>
      cases hmax : s.maxElementSize with
      | none =>
        simp only [slotValueJa, hmax]
        exact ⟨SlotRes.noConfusion, trivial⟩
      | some maxElementSize =>
        have hlt : value.length > maxElementSize :=
          not_le.mp fun hle => haccepts ⟨maxElementSize, hmax, hle⟩
        simp only [slotValueJa, hmax, if_pos hlt]
        exact ⟨SlotRes.noConfusion, trivial⟩
    | void => exact absurd trivial haccepts
    | other => exact ⟨SlotRes.noConfusion, rfl⟩

end

/-- A slot that holds `stored`, with an index of first bytes and what its update meets. -/
def firstByteSlot (stored : List UInt8) (env : UpdEnv) : TextSlot Unit where
  stored := stored
  maxElementSize := some 65536
  triggers :=
    let terms := fun value : List UInt8 => [((value.headD 0).toNat, ())]
    [⟨true, ⟨terms, TextIndex.postings ⟨terms, fun _ => none⟩ stored⟩, env⟩]

theorem firstByteSlot_agrees (stored : List UInt8) (env : UpdEnv) :
    (firstByteSlot stored env).Agrees stored := by
  intro t ht _
  rw [List.mem_singleton.mp ht]
  rfl

/-- Nothing fails on the way through `sen_index_upd`. -/
def smoothUpd : UpdEnv :=
  ⟨true, .success, .success, .success, fun _ => true, fun _ => (.success, true), .success, true⟩

/-- Nothing fails on the way through `sen_ja_put`. -/
def smoothPut : PutEnv :=
  ⟨.success, true, .success, .success, false, .success⟩

/-- An update that meets no error takes "a" to "b" in the slot and in the index. -/
theorem slotValueJa_iff_smooth :
    ChangesTogether (firstByteSlot [97] smoothUpd) [98]
      (slotValueJa (firstByteSlot [97] smoothUpd) smoothPut (.bulk [98])) := by
  change ChangesTogether _ (SlotArg.bulk [98]).value _
  refine (slotValueJa_iff (firstByteSlot_agrees [97] smoothUpd)).mpr (.inr (.inr ?_))
  change if smoothPut.Refuses [98] then _ else _
  rw [if_neg (by decide)]
  intro t ht _
  rw [List.mem_singleton.mp ht, SlotTrigger.Updates, if_neg (by decide)]
  intro k hadds
  change none = TextIndex.postings _ [98] k
  cases hpostings : TextIndex.postings _ [98] k with
  | none => rfl
  | some p => exact absurd ⟨rfl, rfl, Option.isSome_iff_exists.mpr ⟨p, hpostings⟩⟩ hadds

/-- Where there is no room for the new value, the call returns false with "a" in the slot, and the
index has the postings of "b". -/
theorem slotValueJa_fails :
    ¬ ∀ (s : TextSlot Unit) (e : PutEnv) (arg : SlotArg), s.Agrees s.stored →
      ChangesTogether s arg.value (slotValueJa s e arg) := by
  intro hall
  have hcall := hall (firstByteSlot [97] smoothUpd)
    { smoothPut with assignRec := .otherError } (.bulk [98]) (firstByteSlot_agrees _ _)
  rcases hcall with ⟨hstored, -⟩ | ⟨-, hs⟩
  · exact absurd hstored (by decide)
  · have hcontent := congrArg
      (fun s : TextSlot Unit => s.triggers.map fun t => t.index.content 98) hs
    exact absurd hcontent (by decide)

end Senna.Db
