/-
# A look-up that runs out of memory

`sen_set_get` allocates a new index when it rehashes, the copy of a string key, and a chunk
for new entries. Here each of these allocations may fail. A failed rehash is ignored unless
the set is in array mode.

When `sen_set_get` returns `NULL`, the entries are the same as before. A rehash that the call
made before is not taken back: the entries are then in other slots, and no slot is marked. The
marks are counted as before otherwise, but not where a word or a key of another fixed size was
to be put into a marked slot: there `n_garbages` is lowered before the entry is allocated.
-/

import Senna.Set.HashRuns

namespace Senna.Set

open Senna.Lib

/-- Which allocations of a call succeed: the new index, the copy of a string, and a chunk. -/
structure Allocs where
  index : Bool
  keybuf : Bool
  chunk : Bool
  deriving DecidableEq, Repr

/-- `sen_set_reset`. -/
def senSetResetAlloc (ok : Allocs) (set : SenSet) (ne : Nat) : Option (SenRc × SenSet) :=
  if ok.index then senSetReset set ne else some (.memoryExhausted, set)

/-- `entry_new`; the entry is `none` for `NULL`. -/
def entryNewAlloc (ok : Allocs) (pool : Pool) : Option (Option (Pool × Addr)) :=
  if pool.garbages = none ∧ pool.currChunk ≤ senSetMaxChunk ∧
      pool.chunks pool.currChunk = none ∧ ok.chunk = false then some none
  else (entryNew pool).map some

/-- The new entry `a` of `pool` takes the key and is put into the slot `ep`. -/
def SenSet.fill (set : SenSet) (key : List UInt8) (ep : Nat) (pool : Pool) (a : Addr) :
    Option (SenSet × Option Nat) :=
  match pool.cells a with
  | .link _ => none
  | .entry e =>
      some ({ set with
        toPool := { pool with
          cells := Function.update pool.cells a
            (.entry (storeKey set.keySize key (hashOf set.keySize key) e)) }
        index := set.index.set ep (.entry a)
        nEntries := set.nEntries + 1 }, some ep)

/-- `n_garbages--` when the first mark is to be overwritten. -/
def SenSet.unmark (set : SenSet) (np : Option Nat) : SenSet :=
  if np.isSome then { set with nGarbages := u32Sub set.nGarbages 1 } else set

/-- `sen_set_str_get`, and `sen_set_int_get` and `sen_set_bin_get`, which lower `n_garbages`
first. -/
def SenSet.getWithAlloc (ok : Allocs) (set : SenSet) (key : List UInt8) :
    Option (SenSet × Option Nat) :=
  (set.probeKey key).bind fun (found, ep, np) =>
    if found then some (set, some ep)
    else if set.keySize = 0 then
      if ok.keybuf = false then some (set, none)
      else
        (entryNewAlloc ok set.toPool).bind fun
          | none => some (set, none)
          | some (pool, a) => (set.unmark np).fill key (np.getD ep) pool a
    else
      (entryNewAlloc ok (set.unmark np).toPool).bind fun
        | none => some (set.unmark np, none)
        | some (pool, a) => (set.unmark np).fill key (np.getD ep) pool a

/-- `sen_set_get`: the slot of the key, or `none` for `NULL`. -/
def senSetGetAlloc (ok : Allocs) (set : SenSet) (key : List UInt8) :
    Option (SenSet × Option Nat) :=
  if set.arrayp then
    (senSetResetAlloc ok set 0).bind fun (rc, set) =>
      if rc = .success then { set with currEntry := 0, arrayp := false }.getWithAlloc ok key
      else some (set, none)
  else if (set.nEntries + set.nGarbages) * 2 % 2 ^ 32 > set.maxOffset then
    (senSetResetAlloc ok set 0).bind fun (_, set) => set.getWithAlloc ok key
  else set.getWithAlloc ok key

section

variable {ok : Allocs} {set set' : SenSet} {key : List UInt8}

theorem firstEmpty_null {index : List (Slot Addr)} {m s k i dp : Nat}
    (h : firstEmpty index m s k i = some dp) : index[dp]? = some .null := by
  induction k generalizing i with
  | zero => exact nomatch h
  | succ k ih =>
      unfold firstEmpty at h
      split at h
      · exact nomatch h
      · rename_i hnull
        obtain rfl := Option.some.inj h
        exact hnull
      · exact ih h

/-- A rehash that returns has moved the entries, and no mark. -/
theorem rehash_live {cells : Addr → Content} {m : Nat} {sp index index' : List (Slot Addr)}
    (h : rehash cells m sp index = some index') :
    (live index').Perm (live sp ++ live index) ∧
      (Slot.garbage ∈ index' → Slot.garbage ∈ index) := by
  induction sp generalizing index with
  | nil =>
      obtain rfl := Option.some.inj h
      exact ⟨.refl _, id⟩
  | cons s sp ih =>
      cases s with
      | null => exact ih h
      | garbage => exact ih h
      | entry a =>
          unfold rehash at h
          split at h
          · exact nomatch h
          · obtain ⟨dp, hdp, h⟩ := Option.bind_eq_some_iff.mp h
            obtain ⟨hperm, hmarks⟩ := ih h
            have hinsert := live_insert (firstEmpty_null hdp) rfl a
            refine ⟨(hperm.trans (hinsert.append_left _)).trans List.perm_middle, fun hmem => ?_⟩
            exact (List.mem_or_eq_of_mem_set (hmarks hmem)).resolve_right nofun

/-- A reset that succeeds leaves an index with the same entries and no marks. -/
theorem senSetReset_live {ne : Nat} (h : senSetReset set ne = some (.success, set')) :
    ∃ index' n, set' = set.reindex index' n ∧ (live index').Perm (live set.index) ∧
      Slot.garbage ∉ index' := by
  unfold senSetReset at h
  dsimp only at h
  generalize (if ne = 0 then set.nEntries * 2 % 2 ^ 32 else ne) = ne' at h
  split_ifs at h
  · exact nomatch congrArg Prod.fst (Option.some.inj h)
  · obtain ⟨index', hrehash, heq⟩ := Option.map_eq_some_iff.mp h
    obtain rfl := congrArg Prod.snd heq
    obtain ⟨hperm, hmarks⟩ := rehash_live hrehash
    rw [live_replicate_null, List.append_nil] at hperm
    exact ⟨index', indexSize ne', rfl, hperm,
      fun hmem => nomatch List.eq_of_mem_replicate (hmarks hmem)⟩

/-- Whether the call rehashes the index before it looks for the key. -/
def SenSet.Rehashes (ok : Allocs) (set : SenSet) : Prop :=
  ok.index = true ∧ set.nEntries * 2 % 2 ^ 32 ≤ 2 ^ 31 - 1 ∧
    (set.arrayp = true ∨ set.maxOffset < (set.nEntries + set.nGarbages) * 2 % 2 ^ 32)

/-- Whether the search for the key passes a marked slot before it ends at an empty one. -/
def SenSet.PassesMark (set : SenSet) (key : List UInt8) : Prop :=
  ∃ ep g, set.probeKey key = some (false, ep, some g)

theorem probe_mark {same : Entry → Bool} {s k i ep g : Nat} {np : Option Nat} {found : Bool}
    (h : set.probe same s k i np = some (found, ep, some g)) :
    np = some g ∨ Slot.garbage ∈ set.index := by
  induction k generalizing i np with
  | zero => exact nomatch h
  | succ k ih =>
      unfold SenSet.probe at h
      dsimp only at h
      split at h
      · exact nomatch h
      · exact .inl (congrArg (fun r => r.2.2) (Option.some.inj h))
      · rename_i hmark
        exact .inr (List.mem_of_getElem? hmark)
      · split at h
        · exact nomatch h
        · split_ifs at h
          · exact .inl (congrArg (fun r => r.2.2) (Option.some.inj h))
          · exact ih h

/-- Without marks in the index none is passed. -/
theorem SenSet.not_passesMark (h : Slot.garbage ∉ set.index) : ¬set.PassesMark key := by
  intro ⟨ep, g, hprobe⟩
  exact (probe_mark hprobe).elim nofun h

/-- The probes do not depend on the number of marks. -/
theorem probe_nGarbages (n : Nat) (same : Entry → Bool) (s k i : Nat) (np : Option Nat) :
    { set with nGarbages := n }.probe same s k i np = set.probe same s k i np := by
  induction k generalizing i np with
  | zero => rfl
  | succ k ih =>
      unfold SenSet.probe
      simp only [ih]

/-- The set when no entry could be made for the key: only `n_garbages` may have changed. -/
theorem getWithAlloc_null (h : set.getWithAlloc ok key = some (set', none)) :
    ∃ n, set' = { set with nGarbages := n } ∧
      (set.keySize = 0 ∨ ¬set.PassesMark key → n = set.nGarbages) := by
  unfold SenSet.getWithAlloc at h
  obtain ⟨⟨found, ep, np⟩, hprobe, h⟩ := Option.bind_eq_some_iff.mp h
  have hfill {set : SenSet} {ep : Nat} {pool : Pool} {a : Addr} :
      set.fill key ep pool a ≠ some (set', none) := by
    unfold SenSet.fill
    split
    · exact nofun
    · exact fun h => nomatch congrArg Prod.snd (Option.some.inj h)
  dsimp only at h
  split_ifs at h with hfound hstr hkeybuf
  · exact nomatch congrArg Prod.snd (Option.some.inj h)
  · obtain rfl := congrArg Prod.fst (Option.some.inj h)
    exact ⟨set.nGarbages, rfl, fun _ => rfl⟩
  · obtain ⟨new, -, h⟩ := Option.bind_eq_some_iff.mp h
    cases new with
    | none =>
        obtain rfl := congrArg Prod.fst (Option.some.inj h)
        exact ⟨set.nGarbages, rfl, fun _ => rfl⟩
    | some new => exact absurd h hfill
  · obtain ⟨new, -, h⟩ := Option.bind_eq_some_iff.mp h
    cases new with
    | none =>
        obtain rfl : set.unmark np = set' := congrArg Prod.fst (Option.some.inj h)
        cases np with
        | none => exact ⟨set.nGarbages, rfl, fun _ => rfl⟩
        | some g =>
            have hpasses : set.PassesMark key :=
                ⟨ep, g, by rw [hprobe, Bool.eq_false_iff.mpr hfound]⟩
            exact ⟨u32Sub set.nGarbages 1, rfl, fun h => absurd hpasses (h.resolve_left hstr)⟩
    | some new => exact absurd h hfill

/-- Why a reset fails. -/
theorem senSetResetAlloc_cases {rc : SenRc} {set₁ : SenSet}
    (h : senSetResetAlloc ok set 0 = some (rc, set₁)) :
    (rc = .success ∧ senSetReset set 0 = some (.success, set₁) ∧ ok.index = true ∧
        set.nEntries * 2 % 2 ^ 32 ≤ 2 ^ 31 - 1) ∨
      rc ≠ .success ∧ set₁ = set ∧
        ¬(ok.index = true ∧ set.nEntries * 2 % 2 ^ 32 ≤ 2 ^ 31 - 1) := by
  unfold senSetResetAlloc at h
  split_ifs at h with hindex
  · have hreset := h
    unfold senSetReset at h
    dsimp only at h
    rw [if_pos rfl] at h
    split_ifs at h with hlarge
    · obtain ⟨rfl, rfl⟩ := Prod.mk.inj (Option.some.inj h)
      exact .inr ⟨nofun, rfl, fun hand => absurd hand.2 (not_le.mpr hlarge)⟩
    · obtain ⟨index', -, heq⟩ := Option.map_eq_some_iff.mp h
      obtain rfl : SenRc.success = rc := congrArg Prod.fst heq
      exact .inl ⟨rfl, hreset, hindex, not_lt.mp hlarge⟩
  · obtain ⟨rfl, rfl⟩ := Prod.mk.inj (Option.some.inj h)
    exact .inr ⟨nofun, rfl, fun hand => hindex hand.1⟩

/-- How `sen_set_get` comes to return `NULL`: it cannot leave array mode, or it has looked for the
key in the set as it is, or in the one that it has rehashed. -/
inductive SenSet.Fails (ok : Allocs) (set : SenSet) (key : List UInt8) (set' : SenSet) : Prop
  | array (harray : set.arrayp = true) (hnot : ¬set.Rehashes ok) (hsame : set' = set)
  | same (harray : set.arrayp = false) (hnot : ¬set.Rehashes ok)
      (hget : set.getWithAlloc ok key = some (set', none))
  | leave {set₁ : SenSet} (harray : set.arrayp = true) (hre : set.Rehashes ok)
      (hreset : senSetReset set 0 = some (.success, set₁))
      (hget : { set₁ with currEntry := 0, arrayp := false }.getWithAlloc ok key = some (set', none))
  | rehash {set₁ : SenSet} (harray : set.arrayp = false) (hre : set.Rehashes ok)
      (hreset : senSetReset set 0 = some (.success, set₁))
      (hget : set₁.getWithAlloc ok key = some (set', none))

theorem senSetGetAlloc_fails (h : senSetGetAlloc ok set key = some (set', none)) :
    set.Fails ok key set' := by
  unfold senSetGetAlloc at h
  cases harray : set.arrayp with
  | true =>
      rw [if_pos harray] at h
      obtain ⟨⟨rc, set₁⟩, hreset, hget⟩ := Option.bind_eq_some_iff.mp h
      dsimp only at hget
      rcases senSetResetAlloc_cases hreset with
        ⟨hrc, hreset, hindex, hle⟩ | ⟨hrc, hsame, hnot⟩
      · rw [if_pos hrc] at hget
        exact .leave harray ⟨hindex, hle, .inl harray⟩ hreset hget
      · rw [if_neg hrc] at hget
        exact .array harray (fun hre => hnot ⟨hre.1, hre.2.1⟩)
          ((congrArg Prod.fst (Option.some.inj hget)).symm.trans hsame)
  | false =>
      rw [if_neg (by rw [harray]; decide)] at h
      split_ifs at h with hfull
      · obtain ⟨⟨rc, set₁⟩, hreset, hget⟩ := Option.bind_eq_some_iff.mp h
        rcases senSetResetAlloc_cases hreset with
          ⟨-, hreset, hindex, hle⟩ | ⟨-, rfl, hnot⟩
        · exact .rehash harray ⟨hindex, hle, .inr hfull⟩ hreset hget
        · exact .same harray (fun hre => hnot ⟨hre.1, hre.2.1⟩) hget
      · exact .same harray (fun hre => hre.2.2.elim (by rw [harray]; decide) hfull) h

/-- The key has this value in some slot. -/
def SenSet.Has (set : SenSet) (key value : List UInt8) : Prop := ∃ p, set.Finds p key value

/-- What a look-up that returns `NULL` leaves as it was. -/
structure SenSet.Retains (ok : Allocs) (set : SenSet) (key : List UInt8) (set' : SenSet) :
    Prop where
  nEntries : set'.nEntries = set.nEntries
  values : ∀ k v, set'.Has k v ↔ set.Has k v
  slots : ¬set.Rehashes ok → set'.index = set.index ∧ set'.maxOffset = set.maxOffset
  marks : ¬set.Rehashes ok → set.keySize = 0 ∨ ¬set.PassesMark key →
    set'.nGarbages = set.nGarbages
  rehashed : set.Rehashes ok → set'.nGarbages = 0 ∧ Slot.garbage ∉ set'.index

theorem SenSet.has_iff {k v : List UInt8} : set.Has k v ↔
    ∃ a ∈ live set.index, ∃ e, set.cells a = .entry e ∧ keyOf set.keySize e = k ∧ e.value = v := by
  constructor
  · intro ⟨p, a, e, hp, hrest⟩
    exact ⟨a, mem_live.mpr ⟨p, hp⟩, e, hrest⟩
  · intro ⟨a, ha, e, hrest⟩
    obtain ⟨p, hp⟩ := mem_live.mp ha
    exact ⟨p, a, e, hp, hrest⟩

/-- A rehashed set in which no entry could be made for the key. -/
theorem SenSet.Retains.of_rehash {set₁ : SenSet}
    (hget : set₁.getWithAlloc ok key = some (set', none)) (hre : set.Rehashes ok)
    (hnEntries : set₁.nEntries = set.nEntries) (hnGarbages : set₁.nGarbages = 0)
    (hkeySize : set₁.keySize = set.keySize) (hcells : set₁.cells = set.cells)
    (hperm : (live set₁.index).Perm (live set.index)) (hmarks : Slot.garbage ∉ set₁.index) :
    set' = set₁ ∧ set.Retains ok key set' := by
  obtain ⟨n, rfl, hn⟩ := getWithAlloc_null hget
  obtain rfl := hn (.inr (SenSet.not_passesMark hmarks))
  refine ⟨rfl, hnEntries, fun k v => ?_, fun hnot => absurd hre hnot, fun hnot => absurd hre hnot,
    fun _ => ⟨hnGarbages, hmarks⟩⟩
  rw [SenSet.has_iff, SenSet.has_iff]
  simp only [hkeySize, hcells, hperm.mem_iff]

/-- **A failed insertion**, in any set. -/
theorem SenSet.Fails.retains (h : set.Fails ok key set') : set.Retains ok key set' := by
  cases h with
  | array harray hnot hsame =>
      obtain rfl := hsame
      exact ⟨rfl, fun _ _ => Iff.rfl, fun _ => ⟨rfl, rfl⟩, fun _ _ => rfl, fun hre =>
          absurd hre hnot⟩
  | same harray hnot hget =>
      obtain ⟨n, rfl, hn⟩ := getWithAlloc_null hget
      exact ⟨rfl, fun _ _ => Iff.rfl, fun _ => ⟨rfl, rfl⟩, fun _ h => hn h,
        fun hre => absurd hre hnot⟩
  | leave harray hre hreset hget =>
      obtain ⟨index', n, rfl, hperm, hmarks⟩ := senSetReset_live hreset
      exact (SenSet.Retains.of_rehash hget hre rfl rfl rfl rfl hperm hmarks).2
  | rehash harray hre hreset hget =>
      obtain ⟨index', n, rfl, hperm, hmarks⟩ := senSetReset_live hreset
      exact (SenSet.Retains.of_rehash hget hre rfl rfl rfl rfl hperm hmarks).2

/-- **Later look-ups** of a set that stands for a map. -/
theorem SenSet.Fails.looksUp (h : set.Fails ok key set') {M : KeyMap} {V : List (Slot Entry)}
    {free : List Addr} {arr : Nat} (hinv : set.Inv M V free arr) : set'.LooksUp M := by
  have hlooks {set₁ : SenSet} {V₁ : List (Slot Entry)} (h₁ : set₁.Inv M V₁ free arr) :
      set₁.LooksUp M := fun k hk => by
    obtain ⟨set₂, r, -, hrun, -, -, -, hnone, hsome⟩ := h₁.senSetAt hk
    exact ⟨set₂, r, hrun, hnone, hsome⟩
  cases h with
  | array harray hnot hsame =>
      obtain rfl := hsame
      exact hlooks hinv
  | same harray hnot hget =>
      -- the look-ups do not read the number of marks
      obtain ⟨n, rfl, -⟩ := getWithAlloc_null hget
      intro k hk
      obtain ⟨set₂, r, hrun, hnone, hsome⟩ := hlooks hinv k hk
      have hat : senSetAt set k = (set.probeKey k).map fun (found, ep, _) =>
          (set, if found then some ep else none) := by
        rw [senSetAt, if_neg (by rw [harray]; decide)]
        rfl
      have hat' : senSetAt { set with nGarbages := n } k =
          (set.probeKey k).map fun (found, ep, _) =>
            ({ set with nGarbages := n }, if found then some ep else none) := by
        have hprobe : { set with nGarbages := n }.probeKey k = set.probeKey k :=
          probe_nGarbages n _ _ _ _ _
        rw [senSetAt, if_neg (by rw [harray]; decide), SenSet.atWith, hprobe]
      rw [hat] at hrun
      obtain ⟨⟨found, ep, np⟩, hprobe, heq⟩ := Option.map_eq_some_iff.mp hrun
      obtain ⟨rfl, rfl⟩ := Prod.mk.inj heq
      refine ⟨{ set with nGarbages := n }, if found then some ep else none, ?_, hnone, hsome⟩
      rw [hat', hprobe]
      rfl
  | leave harray hre hreset hget =>
      obtain ⟨set₁, V₁, hleave, hinv₁, -⟩ := hinv.leaveArray harray
      obtain ⟨index', n, rfl, hperm, hmarks⟩ := senSetReset_live hreset
      rw [SenSet.leaveArray, hreset, Option.map_some] at hleave
      dsimp only at hleave
      rw [if_pos rfl] at hleave
      obtain rfl := congrArg Prod.snd (Option.some.inj hleave)
      obtain ⟨rfl, -⟩ := SenSet.Retains.of_rehash hget hre rfl rfl rfl rfl hperm hmarks
      exact hlooks hinv₁
  | rehash harray hre hreset hget =>
      obtain ⟨index₁, V₁, hreset₁, hinv₁, -⟩ := hinv.reset_zero
      obtain ⟨index', n, rfl, hperm, hmarks⟩ := senSetReset_live hreset
      have heq : set.reindex index' n = set.reindex index₁ (indexSize (set.nEntries * 2)) :=
        congrArg Prod.snd (Option.some.inj (hreset.symm.trans hreset₁))
      rw [← heq] at hinv₁
      obtain ⟨rfl, -⟩ := SenSet.Retains.of_rehash hget hre rfl rfl rfl rfl hperm hmarks
      exact hlooks hinv₁

/-- **A failed insertion leaves the entries as they were**: their number, and the value of every
key. The slots and the number of marks change only where the index was rehashed before; then no
slot is marked. (Nothing is said about the number of marks when a word or a key of another fixed
size was to be put into a marked slot.) In every run later look-ups find the same keys. -/
theorem senSetGetAlloc_failed (hnull : senSetGetAlloc ok set key = some (set', none)) :
    set.Retains ok key set' ∧
      ∀ keySize valueSize initSize M, Sizes keySize valueSize initSize →
        Runs keySize valueSize initSize set M → set'.LooksUp M := by
  have hfails := senSetGetAlloc_fails hnull
  refine ⟨hfails.retains, fun keySize valueSize initSize M hsizes hruns => ?_⟩
  obtain ⟨V, free, arr, hinv, -⟩ := hruns.inv hsizes
  exact hfails.looksUp hinv

end

/-- The set of words that was filled as an array with the key 1. -/
def oneWord : SenSet :=
  ((SetOp.array 1 [([1, 0, 0, 0], [])]).exec (senSetOpen 4 0 0)).getD (senSetOpen 4 0 0)

theorem oneWord_runs :
    Runs 4 0 0 oneWord (KeyMap.addAll (fun _ => none) [([1, 0, 0, 0], [])]) := by
  have hexec : (SetOp.array 1 [([1, 0, 0, 0], [])]).exec (senSetOpen 4 0 0) = some oneWord := rfl
  have hmeets : (SetOp.array 1 [([1, 0, 0, 0], [])]).Meets (senSetOpen 4 0 0) :=
    ⟨rfl, rfl, rfl, by decide, by decide, by decide, by decide⟩
  exact Runs.opened.step hmeets hexec

/-- Without memory for its first chunk the set takes no other key, and keeps its own. -/
theorem senSetGetAlloc_failed_word :
    ∃ set', senSetGetAlloc ⟨false, true, false⟩ oneWord [2, 0, 0, 0] = some (set', none) ∧
      oneWord.Retains ⟨false, true, false⟩ [2, 0, 0, 0] set' ∧
      set'.LooksUp (KeyMap.addAll (fun _ => none) [([1, 0, 0, 0], [])]) := by
  have hnull : ∃ set',
      senSetGetAlloc ⟨false, true, false⟩ oneWord [2, 0, 0, 0] = some (set', none) :=
    ⟨_, rfl⟩
  obtain ⟨set', hnull⟩ := hnull
  obtain ⟨hretains, hlooks⟩ := senSetGetAlloc_failed hnull
  exact ⟨set', hnull, hretains, hlooks 4 0 0 _ ⟨by decide, by decide⟩ oneWord_runs⟩

/-- The call leaves array mode first, which moves the key 1 from the first slot to the second;
then the allocation of a chunk fails. -/
theorem senSetGetAlloc_moves :
    ∃ set', Runs 4 0 0 oneWord (KeyMap.addAll (fun _ => none) [([1, 0, 0, 0], [])]) ∧
      senSetGetAlloc ⟨true, true, false⟩ oneWord [2, 0, 0, 0] = some (set', none) ∧
      set'.index ≠ oneWord.index := by
  have hnull : ∃ set', senSetGetAlloc ⟨true, true, false⟩ oneWord [2, 0, 0, 0] = some (set', none) ∧
      set'.index[0]? = some .null := ⟨_, rfl, rfl⟩
  obtain ⟨set', hnull, hslot⟩ := hnull
  refine ⟨set', oneWord_runs, hnull, fun heq => ?_⟩
  rw [heq] at hslot
  have hslot' : oneWord.index[0]? = some (.entry ⟨22, 0⟩) := rfl
  exact nomatch hslot.symm.trans hslot'

end Senna.Set
