/-
# The keyword matcher

A `snip_cond` holds a keyword, the skip table of a tuned Boyer-Moore search for it, and
where the search stands in a text. `sen_bm_tunedbm` moves it to the next occurrence or
sets `stopflag`. Pointers into `object->norm` are offsets; a read outside the text or the
keyword, or of a keyword that is not open, makes the model's function `none`.

`SnipCond.Ready` is what the search relies on. `sen_snip_cond_init` establishes it and
every call keeps it and moves on, so that repeated calls stop.
-/

import Senna.Base

namespace Senna.Snip

/-- `sen_encoding`, as `sen_isspace` tells them apart. -/
inductive SenEncoding
  | none
  | eucJp
  | utf8
  | sjis
  | latin1
  | koi8r
  deriving DecidableEq, Repr

/-- The values of `stopflag`. -/
inductive StopFlag
  | nonstop
  | stop
  | across
  deriving DecidableEq, Repr

/-- The pointer `keyword`: not set, to the normalised keyword, or to a closed one. -/
inductive Keyword
  | null
  | opened (norm : List UInt8)
  | closed
  deriving DecidableEq, Repr

/-- `snip_cond`, without the tags that `sen_snip_add_cond` sets. -/
structure SnipCond where
  keyword : Keyword
  bmBc : UInt8 → Nat
  shift : Nat
  found : Nat
  lastFound : Nat
  startOffset : Nat
  endOffset : Nat
  foundAlphaHead : Nat
  count : Nat
  stopflag : StopFlag

/-- `memset(sc, 0, sizeof(snip_cond))`. -/
def SnipCond.zero : SnipCond := ⟨.null, fun _ => 0, 0, 0, 0, 0, 0, 0, 0, .nonstop⟩

/-- The `sen_nstr` that is searched. It was opened with `SEN_STR_WITH_CHECKS`, so that
`checks` has an entry for each byte of `norm`. -/
structure Text where
  norm : List UInt8
  checks : List Int
  length_checks : checks.length = norm.length
  orig : List UInt8
  encoding : SenEncoding

/-- Conversion to `size_t`. -/
def toSize (n : Int) : Nat := (n % 2 ^ 64).toNat

/-- `sen_bm_preBmBc`: later places of a byte overwrite earlier ones. -/
def preBmBc (x : List UInt8) (m : Nat) : UInt8 → Nat :=
  (List.range (m - 1)).foldl (fun t i => Function.update t (x.getD i 0) (m - (i + 1))) fun _ => m

/-- `sen_snip_cond_init`. `nstrOpen` is `sen_nstr_open` or `sen_fakenstr_open`, as the flags
say, on the keyword; it is `none` when out of memory. -/
def senSnipCondInit (nstrOpen : List UInt8 → Option (List UInt8)) (keyword : List UInt8) :
    SenRc × SnipCond :=
  match nstrOpen keyword with
  | none => (.memoryExhausted, .zero)
  | some norm =>
      match norm.getLast? with
      | none => (.invalidArgument, { SnipCond.zero with keyword := .closed })
      | some z =>
          if norm.length = 1 then (.success, { SnipCond.zero with keyword := .opened norm })
          else
            let bmBc := preBmBc norm norm.length
            (.success, { SnipCond.zero with
              keyword := .opened norm
              shift := bmBc z
              bmBc := Function.update bmBc z 0 })

/-- `sen_snip_cond_reinit`; `found_alpha_head` keeps its value. -/
def senSnipCondReinit (cond : SnipCond) : SnipCond :=
  { cond with
    found := 0
    lastFound := 0
    startOffset := 0
    endOffset := 0
    count := 0
    stopflag := .nonstop }

/-- The comparison of `SEN_BM_BM_COMPARE` for the last `k` of the offsets `3`, …, `m`. -/
def tailsAgree (y x : List UInt8) (p : Nat) : Nat → Option Bool
  | 0 => some true
  | k + 1 => do
      let i := x.length - k
      if (← y[p - i]?) = (← x[x.length - i]?) then tailsAgree y x p k else some false

/-- `SEN_BM_BM_COMPARE` at `p`, with the test of `checks[found]`: the place found. -/
def bmCompare (t : Text) (x : List UInt8) (p : Nat) : Option (Option Nat) := do
  if (← t.norm[p - 2]?) = (← x[x.length - 2]?) then
    if ← tailsAgree t.norm x p (x.length - 2) then
      let found := p - x.length
      some (if (← t.checks[found]?) ≠ 0 then some found else none)
    else some none
  else some none

section

variable (t : Text) (x : List UInt8) (bmBc : UInt8 → Nat) (shift : Nat)

/-- A third of the unrolled loop: the pointer, and whether it jumps to `check`. -/
def skipRound (p : Nat) : Option (Nat × Bool) := do
  let p := p + bmBc (← t.norm[p - 1]?)
  let delta1 := bmBc (← t.norm[p - 1]?)
  if delta1 = 0 then some (p, true)
  else
    let p := p + delta1
    some (p + bmBc (← t.norm[p - 1]?), false)

/-- The unrolled loop's body up to `check` or `continue`. -/
def skipRounds (p : Nat) : Option (Nat × Bool) := do
  let (p, check) ← skipRound t bmBc p
  if check then some (p, true)
  else
    let (p, check) ← skipRound t bmBc p
    if check then some (p, true) else skipRound t bmBc p

/-- The unrolled loop: the place found, or the pointer it ends with. -/
def fastLoop (limit : Nat) : Nat → Nat → Option (Nat ⊕ Nat)
  | 0, _ => none
  | k + 1, p =>
      if p ≤ limit then do
        let (p, check) ← skipRounds t bmBc p
        if check then
          match ← bmCompare t x p with
          | some found => some (.inl found)
          | none => fastLoop limit k (p + shift)
        else fastLoop limit k p
      else some (.inr p)

/-- The loop up to the end of the text. -/
def slowLoop : Nat → Nat → Option (Option Nat)
  | 0, _ => none
  | k + 1, p =>
      if p ≤ t.norm.length then do
        let delta1 := bmBc (← t.norm[p - 1]?)
        if delta1 = 0 then
          match ← bmCompare t x p with
          | some found => some (some found)
          | none => slowLoop k (p + shift + delta1)
        else slowLoop k (p + delta1)
      else some none

end

/-- `memchr` for a keyword of one byte, with the test of `checks[found]`. -/
def searchByte (t : Text) (c : UInt8) (found : Nat) : Option (Option Nat) :=
  if found < t.norm.length then
    match (t.norm.drop found).idxOf? c with
    | some j => (t.checks[found + j]?).map fun check =>
        if check ≠ 0 then some (found + j) else none
    | none => some none
  else some none

/-- The search of `sen_bm_tunedbm`: the next place where the keyword is reported. -/
def SnipCond.search (cond : SnipCond) (t : Text) (x : List UInt8) : Option (Option Nat) :=
  let n := t.norm.length
  let m := x.length
  match x with
  | [c] => searchByte t c cond.found
  | _ =>
      let p := m + cond.found
      if toSize (n - cond.found) > 12 * m then do
        match ← fastLoop t x cond.bmBc cond.shift (n - 11 * m) (n + 1) p with
        | .inl found => some (some found)
        | .inr p => slowLoop t x cond.bmBc cond.shift (n + 1) p
      else slowLoop t x cond.bmBc cond.shift (n + 1) p

/-- `sen_isspace(str, encoding)` on the bytes from `str` on. -/
def senIsspace (encoding : SenEncoding) : List UInt8 → Option Nat
  | [] => none
  | b :: s =>
      if b ∈ [0x20, 0x0c, 0x0a, 0x0d, 0x09, 0x0b] then some 1
      else if b = 0x81 ∧ encoding = .sjis then
        (s[0]?).map fun c => if c = 0x40 then 2 else 0
      else if b = 0xa1 ∧ encoding = .eucJp then
        (s[0]?).map fun c => if c = 0xa1 then 2 else 0
      else if b = 0xe3 ∧ encoding = .utf8 then do
        if (← s[0]?) = 0x80 then (s[1]?).map fun c => if c = 0x80 then 3 else 0 else some 0
      else some 0

/-- The loop over the blanks at `offset`, at most `k` of them. -/
def skipSpaces (t : Text) : Nat → Nat → Option Nat
  | 0, offset => some offset
  | k + 1, offset =>
      if offset < t.orig.length then do
        let i ← senIsspace t.encoding (t.orig.drop offset)
        if i = 0 then some offset else skipSpaces t k (offset + i)
      else some offset

/-- The sum of the positive entries of `checks` from `i` up to `j` on top of `offset`, and
the last place of one, `head` if there is none. -/
def Text.walk (t : Text) (i j offset head : Nat) : Nat × Nat :=
  (List.range' i (j - i)).foldl (fun (offset, head) k =>
    let check := t.checks.getD k 0
    if check > 0 then (toSize (offset + check), k) else (offset, head)) (offset, head)

/-- `SEN_BM_COMPARE` once `checks[found]` is not zero. -/
def SnipCond.report (cond : SnipCond) (t : Text) (skipLeadingSpaces : Bool) (found m shift : Nat) :
    Option SnipCond := do
  let (offset, head) := t.walk cond.lastFound found cond.startOffset cond.foundAlphaHead
  let (offset, lastFound) :=
    if t.checks.getD found 0 < 0 then (toSize (offset - t.checks.getD head 0), head)
    else (offset, found)
  let offset ←
    if skipLeadingSpaces then skipSpaces t (t.orig.length - offset) offset else some offset
  some { cond with
    lastFound := lastFound
    startOffset := offset
    endOffset := (t.walk lastFound (found + m) offset 0).1
    found := found + shift
    foundAlphaHead := head }

/-- `sen_bm_tunedbm(cond, object, flags)`. -/
def senBmTunedbm (cond : SnipCond) (t : Text) (skipLeadingSpaces : Bool) : Option SnipCond :=
  match cond.keyword with
  | .opened x => do
      match ← cond.search t x with
      | none => some { cond with stopflag := .stop }
      | some found =>
          cond.report t skipLeadingSpaces found x.length (if x.length = 1 then 1 else cond.shift)
  | _ => none

section

variable {t : Text} {x : List UInt8} {bmBc : UInt8 → Nat} {shift : Nat}

/-- A byte inside the text can be read. -/
theorem Text.read (t : Text) {i : Nat} (hi : i < t.norm.length) : ∃ b, t.norm[i]? = some b :=
  ⟨_, List.getElem?_eq_getElem hi⟩

/-- The comparison reads inside as long as `p` is. -/
theorem tailsAgree_isSome {p : Nat} (hp : x.length ≤ p) (hpn : p ≤ t.norm.length) {k : Nat}
    (hk : k < x.length) : ∃ b, tailsAgree t.norm x p k = some b := by
  induction k with
  | zero => exact ⟨true, rfl⟩
  | succ k ih =>
      obtain ⟨b, hb⟩ := t.read (show p - (x.length - k) < t.norm.length by omega)
      have hx : x[x.length - (x.length - k)]? = some (x[x.length - (x.length - k)]) :=
        List.getElem?_eq_getElem (by omega)
      show ∃ r, (t.norm[p - (x.length - k)]?).bind _ = some r
      rw [hb, Option.bind_some]
      show ∃ r, (x[x.length - (x.length - k)]?).bind _ = some r
      rw [hx, Option.bind_some]
      split
      · exact ih (by omega)
      · exact ⟨false, rfl⟩

/-- The comparison at `p` returns, and what it finds ends at `p`. -/
theorem bmCompare_spec {p : Nat} (hm : 2 ≤ x.length) (hp : x.length ≤ p)
    (hpn : p ≤ t.norm.length) :
    ∃ r, bmCompare t x p = some r ∧ ∀ f, r = some f → f + x.length = p := by
  obtain ⟨b, hb⟩ := t.read (show p - 2 < t.norm.length by omega)
  have hx : x[x.length - 2]? = some (x[x.length - 2]) := List.getElem?_eq_getElem (by omega)
  obtain ⟨agree, hagree⟩ := tailsAgree_isSome hp hpn (show x.length - 2 < x.length by omega)
  have hlt : p - x.length < t.checks.length := by
    rw [t.length_checks]
    omega
  obtain ⟨check, hcheck⟩ : ∃ c, t.checks[p - x.length]? = some c :=
    ⟨_, List.getElem?_eq_getElem hlt⟩
  unfold bmCompare
  simp only [hb, hx, hagree, hcheck, Option.bind_eq_bind, Option.bind_some]
  split_ifs
  · exact ⟨_, rfl, fun f hf => by rw [← Option.some.inj hf]; omega⟩
  · exact ⟨_, rfl, nofun⟩
  · exact ⟨_, rfl, nofun⟩
  · exact ⟨_, rfl, nofun⟩

/-- A third of the unrolled loop makes at most three skips, at most one before a check. -/
theorem skipRound_spec {m p : Nat} (hbc : ∀ b, bmBc b ≤ m) (hp : 1 ≤ p)
    (hpn : p + 2 * m ≤ t.norm.length) :
    ∃ p' c, skipRound t bmBc p = some (p', c) ∧ p ≤ p' ∧ p' ≤ p + 3 * m ∧
      (c = true → p' ≤ p + m) ∧ (c = false → p < p') := by
  obtain ⟨b, hb⟩ := t.read (show p - 1 < t.norm.length by omega)
  have hb' := hbc b
  obtain ⟨b₁, hb₁⟩ := t.read (show p + bmBc b - 1 < t.norm.length by omega)
  have hb₁' := hbc b₁
  unfold skipRound
  simp only [hb, hb₁, Option.bind_eq_bind, Option.bind_some]
  by_cases hzero : bmBc b₁ = 0
  · rw [if_pos hzero]
    exact ⟨_, _, rfl, by omega, by omega, fun _ => by omega, nofun⟩
  · obtain ⟨b₂, hb₂⟩ := t.read (show p + bmBc b + bmBc b₁ - 1 < t.norm.length by omega)
    have hb₂' := hbc b₂
    rw [if_neg hzero, hb₂, Option.bind_some]
    exact ⟨_, _, rfl, by omega, by omega, nofun, fun _ => by omega⟩

/-- The three of them together. -/
theorem skipRounds_spec {m p : Nat} (hbc : ∀ b, bmBc b ≤ m) (hp : 1 ≤ p)
    (hpn : p + 8 * m ≤ t.norm.length) :
    ∃ p' c, skipRounds t bmBc p = some (p', c) ∧ p ≤ p' ∧ p' ≤ p + 9 * m ∧
      (c = true → p' ≤ p + 7 * m) ∧ (c = false → p < p') := by
  obtain ⟨p₁, c₁, h₁, hle₁, hub₁, hc₁, hlt₁⟩ := skipRound_spec (t := t) hbc hp (by omega)
  cases c₁ with
  | true =>
      have := hc₁ rfl
      refine ⟨p₁, true, ?_, hle₁, by omega, fun _ => by omega, nofun⟩
      simp only [skipRounds, h₁, Option.bind_eq_bind, Option.bind_some, if_true]
  | false =>
      have := hlt₁ rfl
      obtain ⟨p₂, c₂, h₂, hle₂, hub₂, hc₂, hlt₂⟩ :=
        skipRound_spec (t := t) (p := p₁) hbc (by omega) (by omega)
      cases c₂ with
      | true =>
          have := hc₂ rfl
          refine ⟨p₂, true, ?_, by omega, by omega, fun _ => by omega, nofun⟩
          simp only [skipRounds, h₁, h₂, Option.bind_eq_bind, Option.bind_some, if_true,
            Bool.false_eq_true, if_false]
      | false =>
          obtain ⟨p₃, c₃, h₃, hle₃, hub₃, hc₃, hlt₃⟩ :=
            skipRound_spec (t := t) (p := p₂) hbc (by omega) (by omega)
          refine ⟨p₃, c₃, ?_, by omega, by omega, fun h => ?_, fun _ => by omega⟩
          · simp only [skipRounds, h₁, h₂, h₃, Option.bind_eq_bind, Option.bind_some,
              Bool.false_eq_true, if_false]
          · have := hc₃ h
            omega

/-- The unrolled loop ends inside the text; what it finds does not lie before its start. -/
theorem fastLoop_spec {limit : Nat} (hm : 2 ≤ x.length) (hbc : ∀ b, bmBc b ≤ x.length)
    (hpos : 0 < shift) (hshift : shift ≤ x.length) (hlimit : limit + 11 * x.length = t.norm.length)
    {k p : Nat} (hp : x.length ≤ p) (hpn : p ≤ t.norm.length)
    (hk : t.norm.length + 1 - p < k) :
    ∃ r, fastLoop t x bmBc shift limit k p = some r ∧
      match r with
      | .inl f => p ≤ f + x.length ∧ f + x.length ≤ t.norm.length
      | .inr p' => p ≤ p' ∧ p' ≤ t.norm.length := by
  induction k generalizing p with
  | zero => omega
  | succ k ih =>
      by_cases hlim : p ≤ limit
      · obtain ⟨p₁, c, hrounds, hle, hub, hc, hlt⟩ :=
          skipRounds_spec (t := t) (p := p) hbc (by omega) (by omega)
        have step : fastLoop t x bmBc shift limit (k + 1) p = if c then
              (bmCompare t x p₁).bind fun r =>
                match r with
                | some found => some (.inl found)
                | none => fastLoop t x bmBc shift limit k (p₁ + shift)
            else fastLoop t x bmBc shift limit k p₁ := by
          rw [fastLoop, if_pos hlim, hrounds]
          cases c <;> rfl
        cases c with
        | true =>
            have := hc rfl
            obtain ⟨r, hcmp, hr⟩ := bmCompare_spec (t := t) (p := p₁) hm (by omega) (by omega)
            rw [step, if_pos rfl, hcmp, Option.bind_some]
            cases r with
            | some f =>
                have := hr f rfl
                exact ⟨_, rfl, by omega, by omega⟩
            | none =>
                obtain ⟨r, hrun, hr⟩ := ih (p := p₁ + shift) (by omega) (by omega) (by omega)
                refine ⟨r, hrun, ?_⟩
                cases r with
                | inl f => exact ⟨by omega, hr.2⟩
                | inr p' => exact ⟨by omega, hr.2⟩
        | false =>
            have := hlt rfl
            obtain ⟨r, hrun, hr⟩ := ih (p := p₁) (by omega) (by omega) (by omega)
            rw [step, if_neg (by decide)]
            refine ⟨r, hrun, ?_⟩
            cases r with
            | inl f => exact ⟨by omega, hr.2⟩
            | inr p' => exact ⟨by omega, hr.2⟩
      · rw [fastLoop, if_neg hlim]
        exact ⟨_, rfl, le_rfl, hpn⟩

variable (bmBc) in
/-- The loop up to the end of the text ends; what it finds does not lie before its start. -/
theorem slowLoop_spec (hm : 2 ≤ x.length) (hpos : 0 < shift) {k p : Nat} (hp : x.length ≤ p)
    (hk : t.norm.length + 1 - p < k) :
    ∃ r, slowLoop t x bmBc shift k p = some r ∧
      ∀ f, r = some f → p ≤ f + x.length ∧ f + x.length ≤ t.norm.length := by
  induction k generalizing p with
  | zero => omega
  | succ k ih =>
      by_cases hpn : p ≤ t.norm.length
      · obtain ⟨b, hb⟩ := t.read (show p - 1 < t.norm.length by omega)
        rw [slowLoop, if_pos hpn, hb]
        show ∃ r, (if bmBc b = 0 then _ else _) = some r ∧ _
        by_cases hzero : bmBc b = 0
        · obtain ⟨r, hcmp, hr⟩ := bmCompare_spec hm hp hpn
          rw [if_pos hzero, hcmp]
          cases r with
          | some f =>
              have := hr f rfl
              exact ⟨_, rfl, fun f' hf => by rw [← Option.some.inj hf]; omega⟩
          | none =>
              obtain ⟨r, hrun, hr⟩ := ih (p := p + shift + bmBc b) (by omega) (by omega)
              refine ⟨r, hrun, fun f hf => ?_⟩
              have := hr f hf
              omega
        · rw [if_neg hzero]
          obtain ⟨r, hrun, hr⟩ := ih (p := p + bmBc b) (by omega) (by omega)
          refine ⟨r, hrun, fun f hf => ?_⟩
          have := hr f hf
          omega
      · rw [slowLoop, if_neg hpn]
        exact ⟨_, rfl, nofun⟩

/-- The search for one byte. -/
theorem searchByte_spec (c : UInt8) (found : Nat) :
    ∃ r, searchByte t c found = some r ∧ ∀ f, r = some f → found ≤ f ∧ f < t.norm.length := by
  unfold searchByte
  split_ifs with hlt
  · cases hidx : (t.norm.drop found).idxOf? c with
    | none => exact ⟨_, rfl, nofun⟩
    | some j =>
        have hj : j < (t.norm.drop found).length := by
          rw [List.idxOf?_eq_some_iff] at hidx
          exact hidx.1
        rw [List.length_drop] at hj
        have hlt : found + j < t.checks.length := by
          rw [t.length_checks]
          omega
        obtain ⟨check, hcheck⟩ : ∃ c, t.checks[found + j]? = some c :=
          ⟨_, List.getElem?_eq_getElem hlt⟩
        simp only [hcheck, Option.map_some]
        refine ⟨_, rfl, fun f hf => ?_⟩
        split_ifs at hf
        obtain rfl := Option.some.inj hf
        omega
  · exact ⟨_, rfl, nofun⟩

end

/-- What `sen_bm_tunedbm` relies on: an open keyword with its tables, and a place inside the
text to go on from. -/
structure SnipCond.Ready (cond : SnipCond) (t : Text) (x : List UInt8) : Prop where
  keyword : cond.keyword = .opened x
  ne_nil : x ≠ []
  found_le : cond.found ≤ t.norm.length
  shift : x.length ≠ 1 → 0 < cond.shift ∧ cond.shift ≤ x.length
  table : x.length ≠ 1 → ∀ b, cond.bmBc b ≤ x.length

namespace SnipCond

variable {cond : SnipCond} {t : Text} {x : List UInt8}

/-- The search returns; what it finds lies at or behind the place it went on from. -/
theorem Ready.search (h : cond.Ready t x) :
    ∃ r, cond.search t x = some r ∧
      ∀ f, r = some f → cond.found ≤ f ∧ f + x.length ≤ t.norm.length := by
  have hfound := h.found_le
  match x, h with
  | [], h => exact absurd rfl h.ne_nil
  | [c], h =>
      obtain ⟨r, hrun, hr⟩ := searchByte_spec (t := t) c cond.found
      refine ⟨r, hrun, fun f hf => ?_⟩
      have := hr f hf
      rw [List.length_singleton]
      omega
  | a :: b :: x', h =>
      generalize hx : a :: b :: x' = x at h
      have hm : 2 ≤ x.length := by
        rw [← hx, List.length_cons, List.length_cons]
        omega
      obtain ⟨hpos, hshift⟩ := h.shift (by omega)
      have hbc := h.table (by omega)
      have hunfold : cond.search t x =
          (if toSize (t.norm.length - cond.found) > 12 * x.length then
            (fastLoop t x cond.bmBc cond.shift (t.norm.length - 11 * x.length)
              (t.norm.length + 1) (x.length + cond.found)).bind fun r =>
              match r with
              | .inl found => some (some found)
              | .inr p => slowLoop t x cond.bmBc cond.shift (t.norm.length + 1) p
          else slowLoop t x cond.bmBc cond.shift (t.norm.length + 1) (x.length + cond.found)) := by
        rw [← hx]
        rfl
      rw [hunfold]
      split_ifs with hlong
      · have hle : toSize (t.norm.length - cond.found) ≤ t.norm.length - cond.found := by
          unfold toSize
          omega
        obtain ⟨r, hfast, hr⟩ := fastLoop_spec (t := t) (p := x.length + cond.found)
          (k := t.norm.length + 1) hm hbc hpos hshift
          (Nat.sub_add_cancel (by omega : 11 * x.length ≤ t.norm.length)) (by omega) (by omega)
          (by omega)
        rw [hfast, Option.bind_some]
        cases r with
        | inl f => exact ⟨_, rfl, fun f' hf => by rw [← Option.some.inj hf]; omega⟩
        | inr p =>
            obtain ⟨r, hslow, hr'⟩ := slowLoop_spec cond.bmBc (t := t) (p := p)
              (k := t.norm.length + 1) hm hpos (by omega) (by omega)
            refine ⟨r, hslow, fun f hf => ?_⟩
            have := hr' f hf
            omega
      · obtain ⟨r, hslow, hr⟩ := slowLoop_spec cond.bmBc (t := t)
          (p := x.length + cond.found) (k := t.norm.length + 1) hm hpos (by omega) (by omega)
        refine ⟨r, hslow, fun f hf => ?_⟩
        have := hr f hf
        omega

/-- What `sen_snip_cond_init` prepares and no later call changes. -/
def prepared (cond : SnipCond) : Keyword × (UInt8 → Nat) × Nat :=
  (cond.keyword, cond.bmBc, cond.shift)

/-- The search depends on what was prepared and on the place to go on from. -/
theorem search_congr {cond' : SnipCond} (h : cond.prepared = cond'.prepared)
    (hfound : cond.found = cond'.found) : cond.search t x = cond'.search t x := by
  simp only [prepared, Prod.mk.injEq] at h
  unfold search
  rw [h.2.1, h.2.2, hfound]

/-- Being ready is a matter of what was prepared and of the place to go on from. -/
theorem Ready.of_prepared {cond' : SnipCond} (h : cond.Ready t x)
    (hprep : cond'.prepared = cond.prepared) (hfound : cond'.found ≤ t.norm.length) :
    cond'.Ready t x := by
  simp only [prepared, Prod.mk.injEq] at hprep
  obtain ⟨hkeyword, htable, hshift⟩ := hprep
  exact ⟨hkeyword.trans h.keyword, h.ne_nil, hfound, by rw [hshift]; exact h.shift,
    by rw [htable]; exact h.table⟩

/-- **One call.** It returns a condition that is still ready, and either stops or has
reported an occurrence and moved on. -/
theorem Ready.tunedbm (h : cond.Ready t x) {r : Option Nat} (hr : cond.search t x = some r) :
    ∃ cond', senBmTunedbm cond t false = some cond' ∧ cond'.Ready t x ∧
      cond'.prepared = cond.prepared ∧
      cond'.stopflag = (if r.isSome then cond.stopflag else .stop) ∧
      (r.isSome → cond.found < cond'.found) := by
  have hbm : senBmTunedbm cond t false = (cond.search t x).bind fun r =>
      match r with
      | none => some { cond with stopflag := .stop }
      | some found =>
          cond.report t false found x.length (if x.length = 1 then 1 else cond.shift) := by
    rw [senBmTunedbm, h.keyword]
    rfl
  rw [hbm, hr, Option.bind_some]
  cases r with
  | none => exact ⟨_, rfl, ⟨h.keyword, h.ne_nil, h.found_le, h.shift, h.table⟩, rfl, rfl, nofun⟩
  | some f =>
      obtain ⟨r', hr', hplace⟩ := h.search
      obtain rfl := Option.some.inj (hr.symm.trans hr')
      obtain ⟨hle, hend⟩ := hplace f rfl
      have hpos : 0 < x.length := List.length_pos_iff.mpr h.ne_nil
      have hstep : 0 < (if x.length = 1 then 1 else cond.shift) ∧
          (if x.length = 1 then 1 else cond.shift) ≤ x.length := by
        split_ifs with hone
        · omega
        · exact h.shift hone
      refine ⟨_, rfl, ⟨h.keyword, h.ne_nil, ?_, h.shift, h.table⟩, rfl, rfl, fun _ => ?_⟩
      · show f + _ ≤ _
        omega
      · show _ < f + _
        omega

end SnipCond

/-- Every entry of the skip table lies between one and the keyword's length. -/
theorem preBmBc_bounds {x : List UInt8} {m : Nat} (hm : 1 ≤ m) (b : UInt8) :
    1 ≤ preBmBc x m b ∧ preBmBc x m b ≤ m := by
  unfold preBmBc
  apply List.foldlRecOn (motive := fun t : UInt8 → Nat => 1 ≤ t b ∧ t b ≤ m)
  · exact ⟨hm, le_rfl⟩
  · intro t ht i hi
    have hi := List.mem_range.mp hi
    show 1 ≤ Function.update t _ _ b ∧ Function.update t _ _ b ≤ m
    by_cases hb : b = x.getD i 0
    · rw [hb, Function.update_self]
      omega
    · rw [Function.update_of_ne hb]
      exact ht

/-- A condition that was initialised successfully is ready for every text, from its start
and with `stopflag` clear. -/
theorem senSnipCondInit_ready {nstrOpen : List UInt8 → Option (List UInt8)} {keyword : List UInt8}
    (h : (senSnipCondInit nstrOpen keyword).1 = .success) (t : Text) :
    ∃ x, (senSnipCondInit nstrOpen keyword).2.Ready t x ∧
      (senSnipCondInit nstrOpen keyword).2.found = 0 ∧
      (senSnipCondInit nstrOpen keyword).2.stopflag = .nonstop := by
  unfold senSnipCondInit at h ⊢
  cases hopen : nstrOpen keyword with
  | none => simp [hopen] at h
  | some x =>
      simp only [hopen] at h ⊢
      cases hlast : x.getLast? with
      | none => simp [hlast] at h
      | some z =>
          have hne : x ≠ [] := by
            rintro rfl
            exact nomatch hlast
          have hpos : 1 ≤ x.length := List.length_pos_iff.mpr hne
          by_cases hone : x.length = 1
          · simp only [if_pos hone]
            exact ⟨x, ⟨rfl, hne, Nat.zero_le _, fun h => absurd hone h,
              fun h => absurd hone h⟩, rfl, rfl⟩
          · simp only [if_neg hone]
            refine ⟨x, ⟨rfl, hne, Nat.zero_le _, fun _ => preBmBc_bounds hpos z, fun _ b => ?_⟩,
              rfl, rfl⟩
            show Function.update (preBmBc x x.length) z 0 b ≤ _
            by_cases hb : b = z
            · rw [hb, Function.update_self]
              exact Nat.zero_le _
            · rw [Function.update_of_ne hb]
              exact (preBmBc_bounds hpos b).2

end Senna.Snip
