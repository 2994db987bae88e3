/-
# Updating a document

`sen_index_update` tokenizes the new values of a document, collects for each term an
update spec with the positions, compares these with the specs of the old values, and hands
them to the inverted index. `sen_index_upd` does the same for one value.

Nothing is left out when every token of every value has come to be in the spec of its
term, and every spec in the index. The loops over the tokens stop at the first one that the
lexicon has no id for, and `sen_inv_update` leaves a spec out that it finds no segment for; the
function returns success all the same.

The sets of specs are lists of pairs in the order of insertion; an update without the
variable N-gram store is modelled, and requests for memory succeed there.
-/

import Senna.Index.Lex

namespace Senna.Index

universe u

/-- `sen_value` -/
structure Value where
  str : List UInt8
  weight : Int
  deriving DecidableEq, Repr

/-- `SEN_INV_MAX_TF` -/
def senInvMaxTf : Nat := 0x1ffff

/-- `sen_inv_updspec`, with the positions in their order. -/
structure Updspec where
  rid : Nat
  sid : Nat
  score : Int
  tf : Nat
  atf : Nat
  pos : List Int
  deriving DecidableEq, Repr

/-- `sen_inv_updspec_open` -/
def senInvUpdspecOpen (rid sid : Nat) : Updspec := ⟨rid, sid, 0, 0, 0, []⟩

/-- `sen_inv_updspec_add`, which returns success also when it drops the position. -/
def Updspec.add (u : Updspec) (pos weight : Int) : Updspec :=
  if senInvMaxTf ≤ u.tf then { u with atf := u.atf + 1 }
  else { u with
    atf := u.atf + 1
    score := u.score + weight
    pos := u.pos ++ [pos]
    tf := u.tf + 1 }

/-- `sen_inv_updspec_cmp(a, b)` is zero. -/
def Updspec.same (a b : Updspec) : Bool :=
  a.rid == b.rid && a.sid == b.sid && a.score == b.score && a.tf == b.tf && a.pos == b.pos

/-- A set of specs, by the id of the term. -/
abbrev Specs := List (Nat × Updspec)

/-- `sen_set_at` -/
def Specs.at_ (m : Specs) (tid : Nat) : Option Updspec :=
  (m.find? fun e => e.1 == tid).map Prod.snd

/-- `sen_set_get`, `sen_inv_updspec_open` for a new entry and `sen_inv_updspec_add`. -/
def Specs.add (rid sid : Nat) (m : Specs) (tid : Nat) (pos weight : Int) : Specs :=
  if m.any (·.1 == tid) then m.map fun e => if e.1 = tid then (tid, e.2.add pos weight) else e
  else m ++ [(tid, (senInvUpdspecOpen rid sid).add pos weight)]

/-- What an update works with: the lexicon, the normalizer, and the answers of the functions
it calls: the lock, `sen_sym_get` and `sen_sym_at` on the key, `sen_sym_del` on it, and
`sen_inv_update`, with whether it stored the spec. It also returns success when `buffer_new` has no
segment for the record. -/
structure IndexEnv (σ : Type u) where
  lexicon : Sym σ
  config : LexConfig
  nstrOpen : List UInt8 → Option Str.SenNstr
  lock : SenRc
  ridGet : Nat
  ridAt : Nat
  keyDel : SenRc
  foreignKey : Bool
  invUpdate : Nat → Updspec → SenRc × Bool

section

variable {σ : Type u} (env : IndexEnv σ)

/-- `sen_lex_open(i->lexicon, str, str_len, flags)` with `SEN_LEX_UPD`; `none` for `NULL`. -/
def IndexEnv.senLexOpen (add : Bool) (str : List UInt8) : Option Lex :=
  (env.nstrOpen str).map fun n => senLexStart env.config add true n.norm n.ctypes

/-- The loop over the tokens of one value. -/
def IndexEnv.takeValue (s : σ) (lex : Lex) : Option (List (Nat × Token) × σ) :=
  (lexLoop env.lexicon lex.rounds s lex).map fun (taken, _, s) => (taken, s)

/-- The loop over the values: what the body is run for, value by value. A value that cannot
be opened is passed over. -/
def IndexEnv.takeValues (add : Bool) : σ → List Value →
    Option (List (Value × List (Nat × Token)) × σ)
  | s, [] => some ([], s)
  | s, v :: vs =>
      match env.senLexOpen add v.str with
      | none => (IndexEnv.takeValues add s vs).map fun (ts, s) => ((v, []) :: ts, s)
      | some lex => (env.takeValue s lex).bind fun (taken, s) =>
          (IndexEnv.takeValues add s vs).map fun (ts, s) => ((v, taken) :: ts, s)

/-- The positions that were taken, with the id of the term and the weight of the value. -/
def takenPositions (ts : List (Value × List (Nat × Token))) : List (Nat × Int × Int) :=
  ts.flatMap fun x => x.2.map fun t => (t.1, t.2.pos, x.1.weight)

/-- The specs of the values. -/
def specs (rid sid : Nat) (ts : List (Value × List (Nat × Token))) : Specs :=
  (takenPositions ts).foldl (fun m o => m.add rid sid o.1 o.2.1 o.2.2) []

/-- What an update did: what it took from the new values, their specs and those of the old
values, the specs handed to `sen_inv_update`, the terms given to `sen_inv_delete`, and the
lexicon. -/
structure Updated (σ : Type u) where
  taken : List (Value × List (Nat × Token))
  new : Specs
  old : Specs
  updates : Specs
  deletes : Specs
  lexicon : σ

/-- `if ((r = sen_inv_update(…))) { rc = r; }` for all specs. -/
def IndexEnv.updateAll (updates : Specs) : SenRc :=
  updates.foldl (fun rc e =>
    if (env.invUpdate e.1 e.2).1 = .success then rc else (env.invUpdate e.1 e.2).1) .success

/-- The walk over the old specs: what remains of the new ones, and the terms deleted. -/
def diffSpecs (new : Specs) : Specs → Specs × Specs
  | [] => (new, [])
  | (tid, u) :: old =>
      match new.at_ tid with
      | some un => diffSpecs (if u.same un then new.filter (·.1 ≠ tid) else new) old
      | none =>
          let (rest, deletes) := diffSpecs new old
          (rest, (tid, u) :: deletes)

/-- `sen_index_update`: the return code, with what was done unless an error came first. -/
def senIndexUpdate (s : σ) (section_ : Nat) (oldvalues newvalues : Option (List Value)) :
    Option (SenRc × Option (Updated σ)) :=
  if env.lock ≠ .success then some (env.lock, none)
  else
    let rid := if newvalues.isSome then env.ridGet else env.ridAt
    if rid = 0 then some (.invalidArgument, none)
    else
      (env.takeValues true s (newvalues.getD [])).bind fun (taken, s) =>
        (env.takeValues false s (oldvalues.getD [])).map fun (takenOld, s) =>
          let new := specs rid section_ taken
          let old := specs rid section_ takenOld
          let (updates, deletes) := diffSpecs new old
          let rc :=
            if new ≠ [] then env.updateAll updates
            else if section_ = 0 ∧ !env.foreignKey then env.keyDel
            else .success
          (rc, some ⟨taken, new, old, updates, deletes, s⟩)

/-- `index_del` on the ids it found: they go to `sen_inv_delete`. -/
def IndexEnv.indexDel (s : σ) (value : List UInt8) : Option (SenRc × Specs × σ) :=
  if env.ridAt = 0 then some (.invalidArgument, [], s)
  else
    match env.senLexOpen false value with
    | none => some (.memoryExhausted, [], s)
    | some lex => (env.takeValue s lex).map fun (taken, s) =>
        (.success, (taken.map Prod.fst).dedup.map fun tid =>
            (tid, senInvUpdspecOpen env.ridAt 0), s)

/-- `index_add` -/
def IndexEnv.indexAdd (s : σ) (value : List UInt8) : Option (SenRc × Option (Updated σ)) :=
  if env.ridGet = 0 then some (.invalidArgument, none)
  else
    match env.senLexOpen true value with
    | none => some (.memoryExhausted, none)
    | some lex => (env.takeValue s lex).map fun (taken, s) =>
        let ts := [(⟨value, 0⟩, taken)]
        let new := specs env.ridGet 1 ts
        (env.updateAll new, some ⟨ts, new, [], new, [], s⟩)

/-- `sen_index_upd`; a value that is empty or absent is `[]`. -/
def senIndexUpd (s : σ) (oldvalue newvalue : List UInt8) :
    Option (SenRc × Option (Updated σ)) :=
  if env.lock ≠ .success then some (env.lock, none)
  else
    (if oldvalue.headD 0 ≠ 0 then env.indexDel s oldvalue else some (.success, [], s)).bind
      fun (rc, deletes, s) =>
        if rc ≠ .success then some (rc, none)
        else if newvalue.headD 0 ≠ 0 then
          (env.indexAdd s newvalue).map fun (rc, r) =>
            (rc, r.map fun r => { r with deletes := deletes })
        else if env.foreignKey then some (.success, none)
        else some (env.keyDel, none)

/-- The complete tokenization of a value. -/
def IndexEnv.tokensOf (v : Value) : List Token :=
  match env.senLexOpen true v.str with
  | some lex => lex.tokens
  | none => []

/-- The complete tokenizations of the values, with the ids that the lexicon gives in order. -/
def IndexEnv.wholeTaken : σ → List Value → List (Value × List (Nat × Token))
  | _, [] => []
  | s, v :: vs =>
      let (ids, s') := env.lexicon.ids true s (env.tokensOf v)
      (v, ids.zip (env.tokensOf v)) :: wholeTaken s' vs

end

/-- The position lists of a spec are as long as it says, and no longer than it can count. -/
def Updspec.Counted (u : Updspec) : Prop := u.pos.length = u.tf ∧ u.tf ≤ senInvMaxTf

theorem Updspec.Counted.add {u : Updspec} (h : u.Counted) (pos weight : Int) :
    (u.add pos weight).Counted ∧
      (u.add pos weight).pos = (u.pos ++ [pos]).take senInvMaxTf := by
  obtain ⟨hlen, hle⟩ := h
  unfold Updspec.add
  by_cases hfull : senInvMaxTf ≤ u.tf
  · rw [if_pos hfull]
    have heq : u.pos.length = senInvMaxTf := by omega
    exact ⟨⟨hlen, hle⟩, (heq ▸ List.take_left).symm⟩
  · rw [if_neg hfull]
    have hlen' : (u.pos ++ [pos]).length = u.tf + 1 := by
      rw [List.length_append, hlen]
      rfl
    have htf : u.tf + 1 ≤ senInvMaxTf := Nat.lt_of_not_le hfull
    exact ⟨⟨hlen', htf⟩, (List.take_of_length_le (hlen'.le.trans htf)).symm⟩

/-- The spec of a term, or the one it would start with. -/
def Specs.spec (rid sid : Nat) (m : Specs) (tid : Nat) : Updspec :=
  (m.at_ tid).getD (senInvUpdspecOpen rid sid)

section

variable {σ : Type u} {env : IndexEnv σ}

theorem Sym.ids_append (S : Sym σ) (add : Bool) (s : σ) (ts ts' : List Token) :
    S.ids add s (ts ++ ts') =
      ((S.ids add s ts).1 ++ (S.ids add (S.ids add s ts).2 ts').1,
        (S.ids add (S.ids add s ts).2 ts').2) := by
  induction ts generalizing s with
  | nil => rfl
  | cons t ts ih =>
      rw [List.cons_append, Sym.ids, Sym.ids]
      generalize S.lookup add s t.bytes = given
      simp only [ih given.2]
      rfl

/-- What an update takes from its values: all their tokens exactly if each of them has an id,
and then with these ids. -/
structure TookAll (env : IndexEnv σ) (s : σ) (values : List Value)
    (ts : List (Value × List (Nat × Token))) (s' : σ) : Prop where
  whole : ts.map Prod.fst = values
  all : (∀ x ∈ ts, x.2.map Prod.snd = env.tokensOf x.1) ↔
    0 ∉ (env.lexicon.ids true s (values.flatMap env.tokensOf)).1
  ids : 0 ∉ (env.lexicon.ids true s (values.flatMap env.tokensOf)).1 →
    (ts.flatMap fun x => x.2.map Prod.fst) =
      (env.lexicon.ids true s (values.flatMap env.tokensOf)).1
  took : 0 ∉ (env.lexicon.ids true s (values.flatMap env.tokensOf)).1 →
    ts = env.wholeTaken s values ∧
      s' = (env.lexicon.ids true s (values.flatMap env.tokensOf)).2

/-- One value more, from which `taken` was taken. -/
theorem TookAll.cons {s s₁ s₂ : σ} {v : Value} {vs : List Value} {taken : List (Nat × Token)}
    {ts : List (Value × List (Nat × Token))}
    (hall : taken.map Prod.snd = env.tokensOf v ↔
      0 ∉ (env.lexicon.ids true s (env.tokensOf v)).1)
    (hids : 0 ∉ (env.lexicon.ids true s (env.tokensOf v)).1 →
      taken.map Prod.fst = (env.lexicon.ids true s (env.tokensOf v)).1)
    (hlexicon : 0 ∉ (env.lexicon.ids true s (env.tokensOf v)).1 →
      s₁ = (env.lexicon.ids true s (env.tokensOf v)).2)
    (h : TookAll env s₁ vs ts s₂) : TookAll env s (v :: vs) ((v, taken) :: ts) s₂ := by
  have hboth : env.lexicon.ids true s ((v :: vs).flatMap env.tokensOf) =
      ((env.lexicon.ids true s (env.tokensOf v)).1 ++
        (env.lexicon.ids true (env.lexicon.ids true s (env.tokensOf v)).2
          (vs.flatMap env.tokensOf)).1,
        (env.lexicon.ids true (env.lexicon.ids true s (env.tokensOf v)).2
          (vs.flatMap env.tokensOf)).2) := by
    rw [List.flatMap_cons, Sym.ids_append]
  have happend := congrArg Prod.fst hboth
  simp only at happend
  refine ⟨?_, ?_, ?_, ?_⟩
  · rw [List.map_cons, h.whole]
  · rw [happend, List.mem_append, not_or, List.forall_mem_cons]
    show taken.map Prod.snd = env.tokensOf v ∧ _ ↔ _
    rw [hall]
    apply and_congr_right
    intro h₀
    rw [← hlexicon h₀]
    exact h.all
  · rw [happend]
    intro h₀
    obtain ⟨hhead, htail⟩ := not_or.mp (mt List.mem_append.mpr h₀)
    rw [← hlexicon hhead] at htail ⊢
    rw [List.flatMap_cons, hids hhead, h.ids htail]
  · rw [hboth]
    intro h₀
    obtain ⟨hhead, htail⟩ := not_or.mp (mt List.mem_append.mpr h₀)
    have hs₁ := hlexicon hhead
    rw [← hs₁] at htail
    obtain ⟨hts, hs₂⟩ := h.took htail
    refine ⟨?_, hs₁ ▸ hs₂⟩
    have hzip := List.zip_of_prod (hids hhead) (hall.mpr hhead)
    rw [IndexEnv.wholeTaken, hts, hs₁]
    exact congrArg (fun t => (v, t) :: _) hzip

variable (env) in
theorem takeValue_isSome (s : σ) (lex : Lex) : ∃ r, env.takeValue s lex = some r := by
  obtain ⟨⟨taken, lex', s₁⟩, hloop⟩ := lexLoop_isSome (S := env.lexicon) lex.rounds s lex le_rfl
  exact ⟨(taken, s₁), congrArg (Option.map _) hloop⟩

variable (env) in
theorem takeValues_isSome (add : Bool) (s : σ) (values : List Value) :
    ∃ r, env.takeValues add s values = some r := by
  induction values generalizing s with
  | nil => exact ⟨_, rfl⟩
  | cons v vs ih =>
      unfold IndexEnv.takeValues
      cases env.senLexOpen add v.str with
      | none =>
          obtain ⟨r, hr⟩ := ih s
          exact ⟨((v, []) :: r.1, r.2), congrArg (Option.map _) hr⟩
      | some lex =>
          obtain ⟨⟨taken, s₁⟩, hvalue⟩ := takeValue_isSome env s lex
          obtain ⟨r, hr⟩ := ih s₁
          refine ⟨((v, taken) :: r.1, r.2), ?_⟩
          simp only [hvalue, Option.bind_some, hr, Option.map_some]

/-- `sen_index_update` returns. -/
theorem senIndexUpdate_isSome (s : σ) (section_ : Nat) (oldvalues newvalues : Option (List Value)) :
    ∃ r, senIndexUpdate env s section_ oldvalues newvalues = some r := by
  obtain ⟨⟨taken, s₁⟩, htake⟩ := takeValues_isSome env true s (newvalues.getD [])
  obtain ⟨⟨takenOld, s₂⟩, hold⟩ := takeValues_isSome env false s₁ (oldvalues.getD [])
  unfold senIndexUpdate
  simp only [htake, Option.bind_some, hold, Option.map_some]
  by_cases hlock : env.lock = .success
  · rw [if_neg (not_not.mpr hlock)]
    by_cases hrid : (if newvalues.isSome = true then env.ridGet else env.ridAt) = 0
    · exact ⟨_, if_pos hrid⟩
    · exact ⟨_, if_neg hrid⟩
  · exact ⟨_, if_pos hlock⟩

theorem indexDel_isSome (s : σ) (value : List UInt8) : ∃ r, env.indexDel s value = some r := by
  unfold IndexEnv.indexDel
  by_cases hrid : env.ridAt = 0
  · exact ⟨_, if_pos hrid⟩
  · rw [if_neg hrid]
    cases env.senLexOpen false value with
    | none => exact ⟨_, rfl⟩
    | some lex =>
        obtain ⟨r, hr⟩ := takeValue_isSome env s lex
        exact ⟨_, congrArg (Option.map _) hr⟩

variable (env) in
theorem indexAdd_isSome (s : σ) (value : List UInt8) : ∃ r, env.indexAdd s value = some r := by
  unfold IndexEnv.indexAdd
  by_cases hrid : env.ridGet = 0
  · exact ⟨_, if_pos hrid⟩
  · rw [if_neg hrid]
    cases env.senLexOpen true value with
    | none => exact ⟨_, rfl⟩
    | some lex =>
        obtain ⟨r, hr⟩ := takeValue_isSome env s lex
        exact ⟨_, congrArg (Option.map _) hr⟩

/-- `sen_index_upd` returns. -/
theorem senIndexUpd_isSome (s : σ) (oldvalue newvalue : List UInt8) :
    ∃ r, senIndexUpd env s oldvalue newvalue = some r := by
  have hdel : ∃ r, (if oldvalue.headD 0 ≠ 0 then env.indexDel s oldvalue
      else some (.success, [], s)) = some r := by
    by_cases hold : oldvalue.headD 0 ≠ 0
    · rw [if_pos hold]
      exact indexDel_isSome s oldvalue
    · exact ⟨_, if_neg hold⟩
  obtain ⟨⟨rc, deletes, s₁⟩, hdel⟩ := hdel
  obtain ⟨r, hadd⟩ := indexAdd_isSome env s₁ newvalue
  unfold senIndexUpd
  rw [hdel]
  simp only [Option.bind_some, hadd, Option.map_some]
  split_ifs <;> exact ⟨_, rfl⟩

end

/-- A lexicon that is a list of keys. Like `sen_sym_get` it has no id for a key of more than
`SEN_SYM_MAX_KEY_LENGTH` bits. -/
def keyList : Sym (List (List UInt8)) where
  get keys key :=
    if 0xffff < (key.length + 1) * 8 then (0, keys)
    else if key ∈ keys then (keys.idxOf key + 1, keys)
    else (keys.length + 1, keys ++ [key])
  at_ keys key := if key ∈ keys then keys.idxOf key + 1 else 0

/-- A delimited index without normalization in which every call succeeds. -/
def wordIndex : IndexEnv (List (List UInt8)) where
  lexicon := keyList
  config := ⟨.delimited, .none, false, false, false⟩
  nstrOpen str := some ⟨str, str.length, none, none, none⟩
  lock := .success
  ridGet := 1
  ridAt := 1
  keyDel := .success
  foreignKey := false
  invUpdate _ _ := (.success, true)

end Senna.Index
