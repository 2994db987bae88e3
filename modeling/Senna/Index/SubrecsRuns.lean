/-
# Which runs keep the best sub-records

A run adds sub-records to any number of records. It keeps the best of each record after
every call exactly when every call is a sound step for the record it goes to. This is
shown once for both loops, that of the calls of `res_add` and that of
`sen_records_group`.
-/

import Senna.Index.SubrecsBest

namespace Senna.Index

open Senna.Io Senna.Lib Senna.Set Senna.Query

/-- A sub-record for the record `key`. -/
structure Add where
  key : List UInt8
  score : Int
  ekey : List UInt8

/-- Add sub-records one after the other. -/
def addAll (A : SubrecArg) (room k : Nat) : RecMap → List Add → Option RecMap
  | g, [] => some g
  | g, a :: l => (addTo A room g a.key a.score a.ekey k).bind fun g => addAll A room k g l

/-- What has been added to a record. -/
def addsOf (size : Nat) (key : List UInt8) (l : List Add) : List SubRec :=
  (l.filter fun a => decide (a.key = key)).map fun a => ⟨a.score, a.ekey.take size⟩

/-- After the run `l` every record holds the best of its sub-records. -/
def Kept (A : SubrecArg) (m room : Nat) (l : List Add) : Prop :=
  ∃ g, Settles (fun k => addAll A room k (fun _ => none) l) g ∧
    ∀ key, KeepsBest A m (addsOf A.size key l) ((g key).getD (newRecInfo room))

/-- Every sub-record is added in a sound step. -/
def SoundRun (A : SubrecArg) (m room : Nat) (adds : List SubRec) : Prop :=
  ∀ l c, l ++ [c] <+: adds → SoundStep A m room l c

/-- After the run `l` every record is in a state that the next call can start from. -/
def Held (A : SubrecArg) (m room : Nat) (l : List Add) : Prop :=
  ∃ g, Settles (fun k => addAll A room k (fun _ => none) l) g ∧
    ∀ key, ∃ bins, Holding A m room (addsOf A.size key l) bins ((g key).getD (newRecInfo room))

section

variable {A : SubrecArg} {m room : Nat} {T : Int → Prop} {l : List Add} {a : Add}

theorem addAll_append (g : RecMap) (l : List Add) (a : Add) (k : Nat) :
    addAll A room k g (l ++ [a]) =
      (addAll A room k g l).bind fun g => addTo A room g a.key a.score a.ekey k := by
  induction l generalizing g with
  | nil =>
      rw [List.nil_append, addAll, addAll, Option.bind_some]
      cases addTo A room g a.key a.score a.ekey k with
      | none => rfl
      | some g => rfl
  | cons b l ih =>
      rw [List.cons_append, addAll, addAll]
      cases addTo A room g b.key b.score b.ekey k with
      | none => rfl
      | some g => exact ih g

theorem addsOf_append_self (size : Nat) (l : List Add) (a : Add) :
    addsOf size a.key (l ++ [a]) = addsOf size a.key l ++ [⟨a.score, a.ekey.take size⟩] := by
  rw [addsOf, List.filter_append, List.map_append]
  simp [addsOf]

theorem addsOf_append_ne (size : Nat) (l : List Add) {key : List UInt8} (h : a.key ≠ key) :
    addsOf size key (l ++ [a]) = addsOf size key l := by
  rw [addsOf, List.filter_append, List.map_append]
  simp [addsOf, h]

theorem addsOf_mem {size : Nat} {key : List UInt8} {P : Int → Prop} (h : ∀ a ∈ l, P a.score) :
    ∀ c ∈ addsOf size key l, P c.score := by
  intro c hc
  obtain ⟨a, ha, rfl⟩ := List.mem_map.mp hc
  exact h a (List.mem_of_mem_filter ha)

/-- The states of a run are determined by the states before its last call. -/
theorem settles_append {g g' : RecMap}
    (hg : Settles (fun k => addAll A room k (fun _ => none) l) g)
    (hg' : Settles (fun k => addAll A room k (fun _ => none) (l ++ [a])) g') :
    ∃ ri, Settles (addSubrec A ((g a.key).getD (newRecInfo room)) a.score a.ekey) ri ∧
      g' = Function.update g a.key (some ri) := by
  obtain ⟨n, hn⟩ := hg
  obtain ⟨n', hn'⟩ := hg'
  have hrun (k : Nat) (hk : max n n' ≤ k) :
      (addSubrec A ((g a.key).getD (newRecInfo room)) a.score a.ekey k).map
        (fun ri => Function.update g a.key (some ri)) = some g' := by
    have h : addAll A room k (fun _ => none) l = some g := hn k (le_trans (le_max_left n n') hk)
    have h' : addAll A room k (fun _ => none) (l ++ [a]) = some g' :=
      hn' k (le_trans (le_max_right n n') hk)
    rw [addAll_append, h, Option.bind_some] at h'
    exact h'
  obtain ⟨ri, hri, hg'⟩ := Option.map_eq_some_iff.mp (hrun _ (le_refl _))
  refine ⟨ri, ⟨max n n', fun k hk => ?_⟩, hg'.symm⟩
  obtain ⟨ri', hri', hg''⟩ := Option.map_eq_some_iff.mp (hrun k hk)
  have heq := congrFun (hg''.trans hg'.symm) a.key
  rw [Function.update_self, Function.update_self] at heq
  rw [hri', Option.some.inj heq]

theorem held_nil : Held A m room [] :=
  ⟨fun _ => none, Settles.pure _, fun _ => ⟨[], holding_new⟩⟩

theorem Held.kept (h : Held A m room l) : Kept A m room l := by
  obtain ⟨g, hg, hkeys⟩ := h
  refine ⟨g, hg, fun key => ?_⟩
  obtain ⟨bins, hb⟩ := hkeys key
  exact hb.keepsBest

/-- A sound call leads to a state that the next call can start from. -/
theorem Held.step (hA : A.Ok m T) (h : Held A m room l) (hT : ∀ b ∈ l, T b.score)
    (ha : T a.score) (hlen : A.size ≤ a.ekey.length)
    (hs : SoundStep A m room (addsOf A.size a.key l) ⟨a.score, a.ekey.take A.size⟩) :
    Held A m room (l ++ [a]) := by
  obtain ⟨g, hg, hkeys⟩ := h
  obtain ⟨bins, hb⟩ := hkeys a.key
  obtain ⟨ri', bins', hset, hb'⟩ := hb.step hA (addsOf_mem hT) ha hlen hs
  refine ⟨Function.update g a.key (some ri'), ?_, fun key => ?_⟩
  · refine Settles.congr (fun k => addAll_append _ l a k) (Settles.bind hg ?_)
    exact hset.map fun ri => Function.update g a.key (some ri)
  · by_cases hkey : a.key = key
    · subst hkey
      refine ⟨bins', ?_⟩
      rw [addsOf_append_self, Function.update_self, Option.getD_some]
      exact hb'
    · rw [addsOf_append_ne _ _ hkey, Function.update_of_ne (Ne.symm hkey)]
      exact hkeys key

/-- A call after which the best are kept is sound. -/
theorem Held.sound (hA : A.Ok m T) (h : Held A m room l) (hT : ∀ b ∈ l, T b.score)
    (ha : T a.score) (hlen : A.size ≤ a.ekey.length) (hk : Kept A m room (l ++ [a])) :
    SoundStep A m room (addsOf A.size a.key l) ⟨a.score, a.ekey.take A.size⟩ := by
  obtain ⟨g, hg, hkeys⟩ := h
  obtain ⟨bins, hb⟩ := hkeys a.key
  obtain ⟨g', hg', hbest⟩ := hk
  obtain ⟨ri, hset, rfl⟩ := settles_append hg hg'
  have hbest := hbest a.key
  rw [addsOf_append_self, Function.update_self, Option.getD_some] at hbest
  exact hb.sound hA (addsOf_mem hT) ha hlen hset hbest

theorem soundRun_append {adds : List SubRec} {c : SubRec} :
    SoundRun A m room (adds ++ [c]) ↔ SoundRun A m room adds ∧ SoundStep A m room adds c := by
  constructor
  · intro h
    exact ⟨fun l d hl => h l d (hl.trans (List.prefix_append adds [c])),
      h adds c (List.prefix_refl _)⟩
  · rintro ⟨h, hc⟩ l d hl
    rcases List.prefix_concat_iff.mp hl with heq | hl
    · obtain ⟨rfl, hd⟩ := List.append_inj' heq rfl
      obtain rfl : d = c := by simpa using hd
      exact hc
    · exact h l d hl

/-- **Runs.** The best sub-records are kept after every call of a run exactly when every
call is a sound step. -/
theorem kept_iff (hA : A.Ok m T) (l : List Add) (hT : ∀ a ∈ l, T a.score)
    (hlen : ∀ a ∈ l, A.size ≤ a.ekey.length) :
    (∀ l', l' <+: l → Kept A m room l') ↔ ∀ key, SoundRun A m room (addsOf A.size key l) := by
  have hboth : ((∀ l', l' <+: l → Kept A m room l') ↔
      ∀ key, SoundRun A m room (addsOf A.size key l)) ∧
      ((∀ l', l' <+: l → Kept A m room l') → Held A m room l) := by
    induction l using List.reverseRecOn with
    | nil =>
        refine ⟨⟨fun _ key l c hl => ?_, fun _ l' hl => ?_⟩, fun _ => held_nil⟩
        · exact absurd (List.prefix_nil.mp hl) (by simp)
        · rw [List.prefix_nil.mp hl]
          exact held_nil.kept
    | append_singleton l a ih =>
        have hTl : ∀ b ∈ l, T b.score := fun b hb => hT b (List.mem_append_left _ hb)
        have haT : T a.score := hT a (by simp)
        have halen : A.size ≤ a.ekey.length := hlen a (by simp)
        obtain ⟨ih, hheld⟩ := ih hTl fun b hb => hlen b (List.mem_append_left _ hb)
        have hinit : (∀ l', l' <+: l ++ [a] → Kept A m room l') ↔
            (∀ l', l' <+: l → Kept A m room l') ∧ Kept A m room (l ++ [a]) := by
          constructor
          · exact fun h => ⟨fun l' hl => h l' (hl.trans (List.prefix_append l [a])),
              h _ (List.prefix_refl _)⟩
          · rintro ⟨h, ha⟩ l' hl
            rcases List.prefix_concat_iff.mp hl with rfl | hl
            · exact ha
            · exact h l' hl
        have hsound : (∀ key, SoundRun A m room (addsOf A.size key (l ++ [a]))) ↔
            (∀ key, SoundRun A m room (addsOf A.size key l)) ∧
              SoundStep A m room (addsOf A.size a.key l) ⟨a.score, a.ekey.take A.size⟩ := by
          constructor
          · intro h
            have hself := h a.key
            rw [addsOf_append_self, soundRun_append] at hself
            refine ⟨fun key => ?_, hself.2⟩
            by_cases hkey : a.key = key
            · exact hkey ▸ hself.1
            · rw [← addsOf_append_ne _ _ hkey]
              exact h key
          · rintro ⟨h, hstep⟩ key
            by_cases hkey : a.key = key
            · subst hkey
              rw [addsOf_append_self, soundRun_append]
              exact ⟨h _, hstep⟩
            · rw [addsOf_append_ne _ _ hkey]
              exact h key
        rw [hinit, hsound, ← ih]
        refine ⟨⟨fun h => ⟨h.1, (hheld h.1).sound hA hTl haT halen h.2⟩,
          fun h => ⟨h.1, ((hheld h.1).step hA hTl haT halen h.2).kept⟩⟩, fun h => ?_⟩
        exact (hheld h.1).step hA hTl haT halen ((hheld h.1).sound hA hTl haT halen h.2)
  exact hboth.1

/-- A run of which only some of the elements add a sub-record. -/
theorem forall_filterMap {α β : Type} (f : α → Option β) (P : List β → Prop) (l : List α) :
    (∀ l', l' <+: l → P (l'.filterMap f)) ↔ ∀ l', l' <+: l.filterMap f → P l' := by
  constructor
  · intro h l' hl
    obtain ⟨l₁, hl₁, rfl⟩ := List.prefix_filterMap_iff.mp hl
    exact h l₁ hl₁
  · exact fun h l' hl => h _ (hl.filterMap f)

end

/-- Calls of `res_add` with the operator "or". -/
def resAddAll (k : Nat) : SubRecords → List (PosInfo × Nat) → Option SubRecords
  | r, [] => some r
  | r, c :: calls => (resAdd r c.1 c.2 .or k).bind fun r => resAddAll k r calls

/-- What a call adds, unless its document is ignored. -/
def SubRecords.add (r : SubRecords) (c : PosInfo × Nat) : Option Add :=
  if r.ignoreDeletedRecords && r.deleted c.1.rid then none
  else some ⟨c.1.bytes.take r.recordSize, c.2, c.1.bytes.drop r.recordSize⟩

/-- The sub-records that calls add to a record. -/
def SubRecords.addsOf (r : SubRecords) (key : List UInt8) (calls : List (PosInfo × Nat)) :
    List SubRec :=
  Index.addsOf r.subrecSize key (calls.filterMap r.add)

/-- The bytes for sub-records in the value of a record. -/
def SubRecords.room (r : SubRecords) : Nat := subrecsRoom r.maxNSubrecs r.subrecSize

/-- After the calls every record holds the best of its sub-records. -/
def ResAddKeeps (r : SubRecords) (calls : List (PosInfo × Nat)) : Prop :=
  ∃ r', Settles (fun k => resAddAll k r calls) r' ∧
    ∀ key, KeepsBest r.arg r.maxNSubrecs (r.addsOf key calls)
      ((r'.records key).getD (newRecInfo r.room))

theorem resAdd_or (r : SubRecords) (pi : PosInfo) (score k : Nat) :
    resAdd r pi score .or k =
      if r.ignoreDeletedRecords && r.deleted pi.rid then some r
      else
        (addTo r.arg r.room r.records (pi.bytes.take r.recordSize) score
          (pi.bytes.drop r.recordSize) k).map fun g => { r with records := g } := by
  rw [resAdd, SubRecords.room]

/-- The calls are a run. -/
theorem resAddAll_eq (r : SubRecords) (calls : List (PosInfo × Nat)) (k : Nat) :
    resAddAll k r calls =
      (addAll r.arg r.room k r.records (calls.filterMap r.add)).map
        fun g => { r with records := g } := by
  induction calls generalizing r with
  | nil => rfl
  | cons c calls ih =>
      rw [resAddAll, List.filterMap_cons, SubRecords.add, resAdd_or]
      cases hskip : r.ignoreDeletedRecords && r.deleted c.1.rid with
      | true => exact ih r
      | false =>
          simp only [Bool.false_eq_true, if_false]
          rw [addAll]
          cases addTo r.arg r.room r.records (c.1.bytes.take r.recordSize) c.2
            (c.1.bytes.drop r.recordSize) k with
          | none => rfl
          | some g => exact ih { r with records := g }

theorem resAddKeeps_iff {r : SubRecords} (hnew : r.records = fun _ => none)
    (calls : List (PosInfo × Nat)) :
    ResAddKeeps r calls ↔ Kept r.arg r.maxNSubrecs r.room (calls.filterMap r.add) := by
  constructor
  · rintro ⟨r', ⟨n, hn⟩, hbest⟩
    refine ⟨r'.records, ⟨n, fun k hk => ?_⟩, hbest⟩
    have h : resAddAll k r calls = some r' := hn k hk
    rw [resAddAll_eq, hnew] at h
    obtain ⟨g, hg, rfl⟩ := Option.map_eq_some_iff.mp h
    exact hg
  · rintro ⟨g, hg, hbest⟩
    refine ⟨{ r with records := g }, ?_, hbest⟩
    refine Settles.congr (fun k => resAddAll_eq r calls k) ?_
    rw [hnew]
    exact hg.map fun g => { r with records := g }

/-- The positive values of an `int`. -/
def PosInt (s : Int) : Prop := 0 < s ∧ s < 2 ^ 31

theorem subrecsCmp_eq {s t dir : Int} (hdir : dir = 1 ∨ dir = -1) (hlo : -2 ^ 31 < s - t)
    (hhi : s - t < 2 ^ 31) : subrecsCmp s t dir = decide (Better dir s t) := by
  have hmul : mulInt (s - t) dir = (s - t) * dir := by
    apply mulInt_of_fits
    rcases hdir with rfl | rfl <;> constructor <;> omega
  rw [subrecsCmp, toInt_of_fits ⟨by omega, by omega⟩, hmul]
  rfl

theorem toInt_top : toInt (2 ^ 31) = -2 ^ 31 := by decide

theorem SubRecords.arg_limit (r : SubRecords) : r.arg.limit = toInt r.maxNSubrecs := by
  rw [SubRecords.arg]

theorem SubRecords.arg_count (r : SubRecords) (n : Int) : r.arg.count n = n % 2 ^ 31 := rfl

theorem resAdd_arg_ok {r : SubRecords} (hpos : 0 < r.maxNSubrecs) (hlt : r.maxNSubrecs < 2 ^ 32) :
    r.arg.Ok r.maxNSubrecs PosInt where
  dir := Or.inl rfl
  pos := hpos
  lt := hlt
  limit := r.arg_limit
  count n hn := by
    rw [SubRecords.arg_count, toInt_of_fits ⟨by omega, by omega⟩]
    exact Int.emod_eq_of_lt (by omega) (by omega)
  count_top := by
    rw [SubRecords.arg_count, toInt_top]
    norm_num
  fits s hs := ⟨by have := hs.1; omega, hs.2⟩
  cmp s t hs ht := by
    obtain ⟨hs0, hs1⟩ := hs
    obtain ⟨ht0, ht1⟩ := ht
    exact subrecsCmp_eq (Or.inl rfl) (by omega) (by omega)
  clear := by
    right
    rintro s ⟨hs0, hs1⟩
    refine ⟨by omega, ?_⟩
    have hpos : (s - 0) * 1 % 2 ^ 32 > 0 := by omega
    exact decide_eq_true hpos

/-- `res_add` tells the root right when a worse score happens to be its first byte: it
replaces the root by any other score. -/
theorem resAdd_rootTold_iff {r : SubRecords} {w s : Int} (hw : PosInt w) (hs : PosInt s) :
    RootTold r.arg w s ↔ s < w → s = w % 256 := by
  obtain ⟨hw0, hw1⟩ := hw
  obtain ⟨hs0, hs1⟩ := hs
  have hcmp : r.arg.rootCmp s (w % 256) r.arg.dir = true ↔ s ≠ w % 256 := by
    show decide ((s - w % 256) * 1 % 2 ^ 32 > 0) = true ↔ _
    rw [decide_eq_true_eq]
    omega
  have hbetter (x y : Int) : Better r.arg.dir x y ↔ y < x := by
    show 0 < (x - y) * 1 ↔ _
    omega
  rw [RootTold]
  split
  · next h =>
      rw [hbetter]
      have := hcmp.mp h
      omega
  · next h =>
      rw [hbetter]
      have : s = w % 256 := by
        by_contra hne
        exact h (hcmp.mpr hne)
      omega

/-- What a record adds to the group that it belongs to. -/
def groupAdd (optarg : Option GroupOptarg) (row : List UInt8 × RecInfo) : Option Add :=
  (groupKeys optarg row.1 row.2).map fun keys => ⟨keys.1, row.2.score, keys.2⟩

/-- The sub-records that records add to a group. -/
def groupAddsOf (r : SubRecords) (optarg : Option GroupOptarg) (key : List UInt8)
    (rows : List (List UInt8 × RecInfo)) : List SubRec :=
  addsOf (groupSubrecSize r optarg) key (rows.filterMap (groupAdd optarg))

/-- Every group holds the best of its sub-records. -/
def GroupKeeps (r : SubRecords) (rows : List (List UInt8 × RecInfo)) (limit : Int)
    (optarg : Option GroupOptarg) : Prop :=
  ∃ r', Settles (senRecordsGroup r rows limit optarg) (.success, r') ∧
    ∀ key, KeepsBest (groupArg r limit optarg) limit.toNat (groupAddsOf r optarg key rows)
      ((r'.records key).getD (newRecInfo (subrecsRoom limit (groupSubrecSize r optarg))))

theorem groupLoop_eq (A : SubrecArg) (room : Nat) (optarg : Option GroupOptarg) (g : RecMap)
    (rows : List (List UInt8 × RecInfo)) (k : Nat) :
    groupLoop A room optarg k g rows = addAll A room k g (rows.filterMap (groupAdd optarg)) := by
  induction rows generalizing g with
  | nil => rfl
  | cons row rows ih =>
      obtain ⟨key, ri⟩ := row
      rw [groupLoop, List.filterMap_cons, groupAdd]
      cases groupKeys optarg key ri with
      | none => exact ih g
      | some keys =>
          show (addTo A room g keys.1 ri.score keys.2 k).bind _ = addAll A room k g (_ :: _)
          rw [addAll]
          cases addTo A room g keys.1 ri.score keys.2 k with
          | none => rfl
          | some g => exact ih g

theorem groupKeeps_iff {r : SubRecords} {limit : Int} {optarg : Option GroupOptarg}
    (hkey : groupFunc optarg = none → groupKeySize optarg < r.recordSize)
    (rows : List (List UInt8 × RecInfo)) :
    GroupKeeps r rows limit optarg ↔
      Kept (groupArg r limit optarg) limit.toNat (subrecsRoom limit (groupSubrecSize r optarg))
        (rows.filterMap (groupAdd optarg)) := by
  have hguard : ((groupFunc optarg).isNone && decide (r.recordSize ≤ groupKeySize optarg)) =
      false := by
    cases hf : groupFunc optarg with
    | none => simpa using hkey hf
    | some f => rfl
  have hrun (k : Nat) : senRecordsGroup r rows limit optarg k =
      (addAll (groupArg r limit optarg) (subrecsRoom limit (groupSubrecSize r optarg)) k
        (fun _ => none) (rows.filterMap (groupAdd optarg))).map fun g =>
          (.success, { r with
            recordSize := groupKeySize optarg
            subrecSize := groupSubrecSize r optarg
            maxNSubrecs := limit.toNat
            records := g }) := by
    rw [senRecordsGroup, hguard, groupLoop_eq]
    rfl
  constructor
  · rintro ⟨r', ⟨n, hn⟩, hbest⟩
    refine ⟨r'.records, ⟨n, fun k hk => ?_⟩, hbest⟩
    have h := hn k hk
    rw [hrun] at h
    obtain ⟨g, hg, hr⟩ := Option.map_eq_some_iff.mp h
    obtain ⟨-, rfl⟩ := Prod.mk.inj hr
    exact hg
  · rintro ⟨g, hg, hbest⟩
    exact ⟨_, Settles.congr hrun (hg.map _), hbest⟩

theorem groupDir_eq (optarg : Option GroupOptarg) : groupDir optarg = 1 ∨ groupDir optarg = -1 := by
  unfold groupDir
  split
  · split
    · exact Or.inr rfl
    · exact Or.inl rfl
  · exact Or.inl rfl

/-- The scores are `int` whose differences are. -/
structure ScoresFit (T : Int → Prop) : Prop where
  fits : ∀ s, T s → FitsInt s
  diff : ∀ s t, T s → T t → s - t < 2 ^ 31

theorem groupArg_count (r : SubRecords) (limit : Int) (optarg : Option GroupOptarg) (n : Int) :
    (groupArg r limit optarg).count n = n := rfl

theorem groupArg_ok (r : SubRecords) {limit : Int} (optarg : Option GroupOptarg) {T : Int → Prop}
    (hpos : 0 < limit) (hlt : limit < 2 ^ 31) (hT : ScoresFit T) :
    (groupArg r limit optarg).Ok limit.toNat T where
  dir := groupDir_eq optarg
  pos := by omega
  lt := by omega
  limit := by
    rw [groupArg, Int.toNat_of_nonneg hpos.le, toInt_of_fits ⟨by omega, by omega⟩]
  count n hn := by rw [groupArg_count, toInt_of_fits ⟨by omega, by omega⟩]
  count_top := by
    rw [groupArg_count, toInt_top]
    norm_num
  fits := hT.fits
  cmp s t hs ht := by
    have h1 := hT.diff s t hs ht
    have h2 := hT.diff t s ht hs
    exact subrecsCmp_eq (groupDir_eq optarg) (by omega) h1
  clear := Or.inl (by omega)

/-- `sen_records_group` compares with the first byte of the root where it should compare
with its score: a descending group takes a score in between for a better one, an ascending
group does not take it for one. -/
theorem group_rootTold_iff {r : SubRecords} {limit w s : Int} {optarg : Option GroupOptarg}
    (hw : PosInt w) (hs : PosInt s) :
    RootTold (groupArg r limit optarg) w s ↔
      if groupDir optarg = 1 then w % 256 < s → w ≤ s else s < w → s < w % 256 := by
  obtain ⟨hw0, hw1⟩ := hw
  obtain ⟨hs0, hs1⟩ := hs
  have hcmp : (groupArg r limit optarg).rootCmp s (w % 256) (groupArg r limit optarg).dir =
      decide (Better (groupDir optarg) s (w % 256)) :=
    subrecsCmp_eq (groupDir_eq optarg) (by omega) (by omega)
  have hdir : (groupArg r limit optarg).dir = groupDir optarg := rfl
  rw [RootTold, hcmp, hdir]
  unfold Better
  rcases groupDir_eq optarg with hd | hd
  · rw [hd, if_pos rfl]
    split
    · next h =>
        have := of_decide_eq_true h
        omega
    · next h =>
        have : ¬0 < (s - w % 256) * 1 := fun hlt => h (decide_eq_true hlt)
        omega
  · have hne : ¬(-1 : Int) = 1 := by decide
    rw [hd, if_neg hne]
    split
    · next h =>
        have := of_decide_eq_true h
        omega
    · next h =>
        have : ¬0 < (s - w % 256) * -1 := fun hlt => h (decide_eq_true hlt)
        omega

/-- Calls of `res_add` with positive scores, for an object without records. -/
structure AddRun (r : SubRecords) (calls : List (PosInfo × Nat)) : Prop where
  new : r.records = fun _ => none
  pos : 0 < r.maxNSubrecs
  lt : r.maxNSubrecs < 2 ^ 32
  size : r.recordSize + r.subrecSize ≤ 12
  scores : ∀ c ∈ calls, PosInt c.2

/-- A call of `sen_records_group` that is not refused, for records with scores whose
differences are `int`. -/
structure GroupRun (r : SubRecords) (rows : List (List UInt8 × RecInfo)) (limit : Int)
    (optarg : Option GroupOptarg) : Prop where
  pos : 0 < limit
  lt : limit < 2 ^ 31
  key : groupFunc optarg = none → groupKeySize optarg < r.recordSize
  rowKeys : ∀ row ∈ rows, r.recordSize ≤ row.1.length
  scores : ScoresFit fun s => ∃ row ∈ rows, row.2.score = s

theorem PosInfo.length_bytes (pi : PosInfo) : pi.bytes.length = 12 := rfl

/-- **The best sub-records.** They are kept after every call of `res_add`, and for all
groups of the records seen so far, exactly when every sub-record is added in a sound step:
they can be counted, there is room for them, and the comparison with the first byte of the
root tells a better one right. -/
theorem subrecs_best_iff {r r' : SubRecords} {calls : List (PosInfo × Nat)}
    {rows : List (List UInt8 × RecInfo)} {limit : Int} {optarg : Option GroupOptarg}
    (h : AddRun r calls) (h' : GroupRun r' rows limit optarg) :
    ((∀ l, l <+: calls → ResAddKeeps r l) ↔
        ∀ key, SoundRun r.arg r.maxNSubrecs r.room (r.addsOf key calls)) ∧
      ((∀ l, l <+: rows → GroupKeeps r' l limit optarg) ↔
        ∀ key, SoundRun (groupArg r' limit optarg) limit.toNat
          (subrecsRoom limit (groupSubrecSize r' optarg)) (groupAddsOf r' optarg key rows)) := by
  constructor
  · have hadd (c : PosInfo × Nat) (a : Add) (ha : r.add c = some a) :
        a = ⟨c.1.bytes.take r.recordSize, c.2, c.1.bytes.drop r.recordSize⟩ := by
      rw [SubRecords.add] at ha
      split at ha
      · cases ha
      · exact (Option.some.inj ha).symm
    have hiff : (∀ l, l <+: calls → ResAddKeeps r l) ↔
        ∀ l, l <+: calls → Kept r.arg r.maxNSubrecs r.room (l.filterMap r.add) :=
      forall₂_congr fun l _ => resAddKeeps_iff h.new l
    rw [hiff, forall_filterMap r.add]
    apply kept_iff (resAdd_arg_ok h.pos h.lt)
    · intro a ha
      obtain ⟨c, hc, ha⟩ := List.mem_filterMap.mp ha
      rw [hadd c a ha]
      exact h.scores c hc
    · intro a ha
      obtain ⟨c, -, ha⟩ := List.mem_filterMap.mp ha
      have hsize := h.size
      rw [hadd c a ha]
      show r.subrecSize ≤ (c.1.bytes.drop r.recordSize).length
      rw [List.length_drop, PosInfo.length_bytes]
      omega
  · have hiff : (∀ l, l <+: rows → GroupKeeps r' l limit optarg) ↔
        ∀ l, l <+: rows → Kept (groupArg r' limit optarg) limit.toNat
          (subrecsRoom limit (groupSubrecSize r' optarg)) (l.filterMap (groupAdd optarg)) :=
      forall₂_congr fun l _ => groupKeeps_iff h'.key l
    rw [hiff, forall_filterMap (groupAdd optarg)]
    apply kept_iff (groupArg_ok _ _ h'.pos h'.lt h'.scores)
    · intro a ha
      obtain ⟨row, hrow, ha⟩ := List.mem_filterMap.mp ha
      obtain ⟨keys, -, rfl⟩ := Option.map_eq_some_iff.mp ha
      exact ⟨row, hrow, rfl⟩
    · intro a ha
      obtain ⟨row, hrow, ha⟩ := List.mem_filterMap.mp ha
      obtain ⟨keys, hkeys, rfl⟩ := Option.map_eq_some_iff.mp ha
      have hlen := h'.rowKeys row hrow
      show groupSubrecSize r' optarg ≤ keys.2.length
      rw [groupSubrecSize]
      rw [groupKeys] at hkeys
      cases hf : groupFunc optarg with
      | none =>
          rw [hf] at hkeys
          obtain rfl := Option.some.inj hkeys
          show r'.recordSize - groupKeySize optarg ≤ (row.1.drop (groupKeySize optarg)).length
          rw [List.length_drop]
          omega
      | some f =>
          rw [hf] at hkeys
          obtain ⟨gkey, -, rfl⟩ := Option.map_eq_some_iff.mp hkeys
          exact hlen

/-- Records of documents that keep one section. -/
def exampleRecordSet : SubRecords where
  recordSize := 4
  subrecSize := 4
  maxNSubrecs := 1
  ignoreDeletedRecords := false
  deleted _ := false
  records _ := none

/-- Records of sections, to be grouped by documents. -/
def exampleSectionSet : SubRecords := { exampleRecordSet with recordSize := 8 }

/-- Two sections of one document, the better one first. -/
def exampleCalls : List (PosInfo × Nat) := [(⟨1, 1, 0⟩, 5), (⟨1, 2, 0⟩, 3)]

/-- Two sections of one document as records, the better one first. -/
def exampleRows : List (List UInt8 × RecInfo) :=
  [(le32 1 ++ le32 1, ⟨256, 1, []⟩), (le32 1 ++ le32 2, ⟨100, 1, []⟩)]

/-- The room of one sub-record with a body of four bytes. -/
theorem subrecsRoom_one : subrecsRoom 1 4 = 8 := by decide

/-- A first sub-record is added in a sound step where there is room for it. -/
theorem soundStep_nil {A : SubrecArg} {m room : Nat} (hm : 0 < m) (hroom : A.size + 4 ≤ room)
    (c : SubRec) : SoundStep A m room [] c where
  count := by norm_num
  room := by
    rw [List.length_nil, Nat.zero_add, Nat.min_eq_right hm, Nat.one_mul]
    exact hroom
  limit := Or.inr rfl
  told h := by
    rw [List.length_nil] at h
    omega

/-- After two sub-records for one record of which the first is to be kept, the best is only
kept if the root has been told right. -/
theorem rootTold_of_kept {A : SubrecArg} {room : Nat} {T : Int → Prop} {a b : Add}
    (hA : A.Ok 1 T) (hab : b.key = a.key) (ha : T a.score) (hb : T b.score)
    (halen : A.size ≤ a.ekey.length) (hblen : A.size ≤ b.ekey.length) (hroom : A.size + 4 ≤ room)
    (h : Kept A 1 room [a, b]) : RootTold A a.score b.score := by
  have hheld : Held A 1 room ([] ++ [a]) :=
    held_nil.step hA (by simp) ha halen (soundStep_nil Nat.zero_lt_one hroom _)
  have hsound := hheld.sound (a := b) hA (by simpa using ha) hb hblen h
  have hadds : addsOf A.size b.key ([] ++ [a]) = [⟨a.score, a.ekey.take A.size⟩] := by
    rw [hab]
    exact addsOf_append_self A.size [] a
  rw [hadds] at hsound
  have hself : ¬Better A.dir a.score a.score := by
    unfold Better
    rw [sub_self, zero_mul]
    exact lt_irrefl 0
  refine hsound.told (le_refl 1) a.score ⟨⟨_, List.mem_singleton_self _, rfl⟩, ?_, ?_⟩
  · simp [hself]
  · simp [hself]

/-- A worse sub-record takes the place of a better one, in `res_add` and in
`sen_records_group`. -/
theorem subrecs_worse_kept :
    ¬ResAddKeeps exampleRecordSet exampleCalls ∧
      ¬GroupKeeps exampleSectionSet exampleRows 1 none := by
  constructor
  · intro h
    rw [resAddKeeps_iff rfl] at h
    have hpos5 : PosInt 5 := ⟨by norm_num, by norm_num⟩
    have hpos3 : PosInt 3 := ⟨by norm_num, by norm_num⟩
    have hroom : exampleRecordSet.arg.size + 4 ≤ exampleRecordSet.room := by
      show 8 ≤ subrecsRoom 1 4
      rw [subrecsRoom_one]
    have htold := rootTold_of_kept (resAdd_arg_ok (r := exampleRecordSet) (by decide) (by decide))
      (a := ⟨le32 1, 5, le32 1 ++ le32 0⟩) (b := ⟨le32 1, 3, le32 2 ++ le32 0⟩)
      rfl hpos5 hpos3 (by decide) (by decide) hroom h
    have h53 := (resAdd_rootTold_iff hpos5 hpos3).mp htold (by norm_num)
    norm_num at h53
  · intro h
    rw [groupKeeps_iff (fun _ => by decide)] at h
    have hpos256 : PosInt 256 := ⟨by norm_num, by norm_num⟩
    have hpos100 : PosInt 100 := ⟨by norm_num, by norm_num⟩
    have hfit : ScoresFit PosInt :=
      ⟨fun s hs => ⟨by have := hs.1; omega, hs.2⟩, fun s t hs ht => by
        have := ht.1
        have := hs.2
        omega⟩
    have hroom : (groupArg exampleSectionSet 1 none).size + 4 ≤
        subrecsRoom 1 4 := by
      rw [subrecsRoom_one]
      decide
    have htold := rootTold_of_kept
      (groupArg_ok exampleSectionSet none
        (by norm_num) (by norm_num) hfit)
      (a := ⟨le32 1, 256, le32 1⟩) (b := ⟨le32 1, 100, le32 2⟩)
      rfl hpos256 hpos100 (by decide) (by decide) hroom h
    have hbad := (group_rootTold_iff hpos256 hpos100).mp htold
    rw [if_pos (by decide)] at hbad
    norm_num at hbad

/-- Small scores by ascending order, and one group with the better section last. -/
theorem subrecs_best_iff_sections :
    ((∀ l, l <+: exampleCalls.reverse → ResAddKeeps exampleRecordSet l) ↔
        ∀ key, SoundRun exampleRecordSet.arg exampleRecordSet.maxNSubrecs exampleRecordSet.room
          (exampleRecordSet.addsOf key exampleCalls.reverse)) ∧
      ((∀ l, l <+: exampleRows.reverse →
          GroupKeeps exampleSectionSet l 1 none) ↔
        ∀ key, SoundRun (groupArg exampleSectionSet 1 none) (1 : Int).toNat
          (subrecsRoom 1 (groupSubrecSize exampleSectionSet none))
          (groupAddsOf exampleSectionSet none key exampleRows.reverse)) := by
  have hscores : ∀ s, (∃ row ∈ exampleRows.reverse, row.2.score = s) → s = 100 ∨ s = 256 := by
    rintro s ⟨row, hrow, rfl⟩
    revert row
    decide
  refine subrecs_best_iff ⟨rfl, by decide, by decide, by decide, ?_⟩
    ⟨by norm_num, by norm_num, fun _ => by decide, by decide, ⟨fun s hs => ?_, fun s t hs ht => ?_⟩⟩
  · unfold PosInt
    decide
  · rcases hscores s hs with rfl | rfl <;> decide
  · rcases hscores s hs with rfl | rfl <;> rcases hscores t ht with rfl | rfl <;> norm_num

end Senna.Index
