/-
# What sorting a set returns

The partition loop needs no test for the ends of the array: what it has moved to either
side stops the scans. `LoopInv` says so. From the partition the sort of a range follows by
induction on its width, and the collection of the entries is a first partition of the
whole array, so `sen_set_sort` terminates, touches nothing outside the array and the
index, and returns the entries with the first `limit` of them in order and least.
-/

import Senna.Set.Sort

namespace Senna.Set

open Senna.Lib

universe u v

variable {ε : Type u} {σ : Type v}

/-- Both tests of a sort belong to one total preorder of the elements `S`. -/
structure Cmp.Ok (S : ε → Prop) (cmp : Cmp ε) : Prop where
  lt_eq : ∀ {x y}, S x → S y → cmp.lt x y = cmp.gt y x
  total : TotalPreorderOn S cmp.gt

/-- The pivot is found as long as it stands at the position it was moved to. -/
def PivotRule.Ok (pv : PivotRule ε) : Prop := ∀ p c a, a[c]? = some p → pv p c a = some p

section

variable {cmp : Cmp ε} {pv : List ε → Option ε} {a : List ε} {p : ε}

variable (cmp) in
/-- The upward scan stops at the first element that is not smaller than the pivot, which
is found when there is one. -/
theorem scanUp_settles (hpv : pv a = some p) {b e : Nat} (hbe : b < e) (hea : e < a.length)
    (hstop : ∀ x, a[e]? = some x → cmp.lt x p = false) :
    ∃ b', Settles (fun k => scanUp cmp pv a k b) b' ∧ b < b' ∧ b' ≤ e ∧
      (∀ i x, b < i → i < b' → a[i]? = some x → cmp.lt x p = true) ∧
      ∀ x, a[b']? = some x → cmp.lt x p = false := by
  generalize hd : e - b = d
  induction d generalizing b with
  | zero => omega
  | succ d ih =>
      have hx : a[b + 1]? = some a[b + 1] := List.getElem?_eq_getElem (by omega)
      have step (k : Nat) : scanUp cmp pv a (k + 1) b =
          if cmp.lt a[b + 1] p then scanUp cmp pv a k (b + 1) else some (b + 1) := by
        rw [scanUp, hx, hpv]
        rfl
      cases hlt : cmp.lt a[b + 1] p with
      | false =>
          refine ⟨b + 1, Settles.succ (fun k => ?_) (Settles.pure _), by omega, by omega,
            fun i x hi hi' => by omega, fun x hx' => ?_⟩
          · rw [step, hlt]
            rfl
          · rwa [← Option.some.inj (hx.symm.trans hx')]
      | true =>
          have hne : b + 1 ≠ e := by
            intro he
            subst he
            rw [hstop _ hx] at hlt
            cases hlt
          obtain ⟨b', hset, hb, hbe', hlow, hend⟩ := ih (b := b + 1) (by omega) (by omega)
          refine ⟨b', Settles.succ (fun k => ?_) hset, by omega, hbe', fun i x hi hi' hix => ?_,
            hend⟩
          · rw [step, hlt]
            rfl
          · rcases Nat.lt_or_ge (b + 1) i with h | h
            · exact hlow i x h hi' hix
            · obtain rfl : i = b + 1 := by omega
              rwa [← Option.some.inj (hx.symm.trans hix)]

variable (cmp) in
/-- The downward scan stops at the first element that is not greater than the pivot. -/
theorem scanDown_settles (hpv : pv a = some p) {b e : Nat} (hbe : b < e) (hea : e ≤ a.length)
    (hstop : ∀ x, a[b]? = some x → cmp.gt x p = false) :
    ∃ e', Settles (fun k => scanDown cmp pv a k e) e' ∧ b ≤ e' ∧ e' < e ∧
      (∀ i x, e' < i → i < e → a[i]? = some x → cmp.gt x p = true) ∧
      ∀ x, a[e']? = some x → cmp.gt x p = false := by
  induction e with
  | zero => omega
  | succ e ih =>
      have hx : a[e]? = some a[e] := List.getElem?_eq_getElem (by omega)
      have step (k : Nat) : scanDown cmp pv a (k + 1) (e + 1) =
          if cmp.gt a[e] p then scanDown cmp pv a k e else some e := by
        rw [scanDown, hx, hpv]
        rfl
      cases hgt : cmp.gt a[e] p with
      | false =>
          refine ⟨e, Settles.succ (fun k => ?_) (Settles.pure _), by omega, by omega,
            fun i x hi hi' => by omega, fun x hx' => ?_⟩
          · rw [step, hgt]
            rfl
          · rwa [← Option.some.inj (hx.symm.trans hx')]
      | true =>
          have hne : b ≠ e := by
            intro he
            subst he
            rw [hstop _ hx] at hgt
            cases hgt
          obtain ⟨e', hset, hb, hee, hhigh, hend⟩ := ih (by omega) (by omega)
          refine ⟨e', Settles.succ (fun k => ?_) hset, hb, by omega, fun i x hi hi' hix => ?_,
            hend⟩
          · rw [step, hgt]
            rfl
          · rcases Nat.lt_or_ge i e with h | h
            · exact hhigh i x hi h hix
            · obtain rfl : i = e := by omega
              rwa [← Option.some.inj (hx.symm.trans hix)]

variable (cmp) in
/-- The invariant of the partition loop: up to `b` nothing is greater than the pivot, from
`e` on nothing is smaller, and the pivot waits at `c`. -/
structure LoopInv (p : ε) (c hi b e : Nat) (a : List ε) : Prop where
  lo_le : c ≤ b
  lt : b < e
  le_hi : e ≤ hi
  hi_lt : hi < a.length
  pivot : a[c]? = some p
  below : ∀ i x, c ≤ i → i ≤ b → a[i]? = some x → cmp.gt x p = false
  above : ∀ i x, e ≤ i → i ≤ hi → a[i]? = some x → cmp.gt p x = false

end

section

variable {cmp : Cmp ε} {S : ε → Prop} {pv : PivotRule ε} {p : ε} {c hi b e : Nat} {a : List ε}

/-- **The partition loop.** It ends at a position `m` that is not before the pivot's, with
nothing greater than the pivot up to `m` and nothing smaller after it. -/
theorem partLoop_settles (hcmp : cmp.Ok S) (hpv : pv.Ok) (hS : ∀ x ∈ a, S x)
    (h : LoopInv cmp p c hi b e a) :
    ∃ a' m, Settles (fun k => partLoop cmp (pv p c) k a b e) (a', m) ∧
      Reorder (c + 1) hi a a' ∧ c ≤ m ∧ m < hi ∧
      (∀ i x, c ≤ i → i ≤ m → a'[i]? = some x → cmp.gt x p = false) ∧
      ∀ i x, m < i → i ≤ hi → a'[i]? = some x → cmp.gt p x = false := by
  generalize hd : e - b = d
  induction d using Nat.strong_induction_on generalizing a b e with
  | _ d ih =>
    have hp : pv p c a = some p := hpv p c a h.pivot
    have hSp : S p := forall_getElem? hS h.pivot
    have hhi := h.hi_lt
    have hle := h.le_hi
    have hcb := h.lo_le
    have hbe := h.lt
    obtain ⟨b', hup, hbb, hbe', hlow, hbend⟩ := scanUp_settles cmp hp h.lt
      (by omega) fun x hx => by
        rw [hcmp.lt_eq (forall_getElem? hS hx) hSp]
        exact h.above e x le_rfl h.le_hi hx
    obtain ⟨e', hdown, hbe'', hee, hhigh, heend⟩ := scanDown_settles cmp hp h.lt
      (by omega) fun x hx => h.below b x h.lo_le le_rfl hx
    -- what the scans passed is on its side already
    have below : ∀ i x, c ≤ i → i < b' → a[i]? = some x → cmp.gt x p = false := by
      intro i x hci hib hx
      rcases Nat.lt_or_ge b i with hbi | hib'
      · have hSx := forall_getElem? hS hx
        apply hcmp.total.asymm hSp hSx
        rw [← hcmp.lt_eq hSx hSp]
        exact hlow i x hbi hib hx
      · exact h.below i x hci hib' hx
    have above : ∀ i x, e' < i → i ≤ hi → a[i]? = some x → cmp.gt p x = false := by
      intro i x hei hih hx
      rcases Nat.lt_or_ge i e with hie | hie
      · exact hcmp.total.asymm (forall_getElem? hS hx) hSp (hhigh i x hei hie hx)
      · exact h.above i x hie hih hx
    have round {a' : List ε} {m : Nat} (hrest : Settles (fun k => if b' ≥ e' then some (a, e')
        else (swap a b' e').bind fun a => partLoop cmp (pv p c) k a b' e') (a', m)) :
        Settles (fun k => partLoop cmp (pv p c) k a b e) (a', m) :=
      Settles.succ (fun _ => rfl) (Settles.bind hup (Settles.bind hdown hrest))
    by_cases hcross : b' ≥ e'
    · refine ⟨a, e', round ?_, Reorder.refl _ _ _, by omega, by omega, fun i x hci hie hx => ?_,
        above⟩
      · simp only [if_pos hcross]
        exact Settles.pure _
      · rcases Nat.lt_or_ge i b' with hib | hib
        · exact below i x hci hib hx
        · obtain rfl : i = e' := by omega
          exact heend x hx
    · have hbl : b' < a.length := by omega
      have hel : e' < a.length := by omega
      obtain ⟨a₁, hswap, hre, hb₁, he₁, hrest⟩ := swap_reorder (c + 1) hi b' e'
        (show hi ≤ a.length by omega) (by omega) (by omega) (by omega) (by omega)
      have hinv : LoopInv cmp p c hi b' e' a₁ := by
        refine ⟨by omega, by omega, by omega, by rw [hre.length_eq]; omega, ?_, ?_, ?_⟩
        · rw [hrest c (by omega) (by omega)]
          exact h.pivot
        · intro i x hci hib hx
          rcases Nat.lt_or_ge i b' with hlt | hge
          · rw [hrest i (by omega) (by omega)] at hx
            exact below i x hci hlt hx
          · obtain rfl : i = b' := by omega
            rw [hb₁] at hx
            exact heend x hx
        · intro i x hei hih hx
          rcases Nat.lt_or_ge e' i with hlt | hge
          · rw [hrest i (by omega) (by omega)] at hx
            exact above i x hlt hih hx
          · obtain rfl : i = e' := by omega
            rw [he₁] at hx
            rw [← hcmp.lt_eq (forall_getElem? hS hx) hSp]
            exact hbend x hx
      obtain ⟨a', m, hset, hre', hcm, hmh, hbelow, habove⟩ := ih (e' - b') (by omega)
        (hre.forall_mem hS) hinv rfl
      refine ⟨a', m, round ?_, hre.trans hre', hcm, hmh, hbelow, habove⟩
      simp only [if_neg hcross, hswap, Option.bind_some]
      exact hset

end

section

variable {cmp : Cmp ε} {S : ε → Prop} {a : List ε}

/-- After `swapIfGt` the two elements are in order. -/
theorem swapIfGt_reorder (hcmp : cmp.Ok S) (hS : ∀ x ∈ a, S x) (lo stop i j : Nat)
    (hs : stop ≤ a.length) (hi : lo ≤ i) (his : i < stop) (hj : lo ≤ j) (hjs : j < stop) :
    ∃ a' x y, swapIfGt cmp a i j = some a' ∧ Reorder lo stop a a' ∧ a'[i]? = some x ∧
      a'[j]? = some y ∧ cmp.gt x y = false ∧ (∀ k, k ≠ i → k ≠ j → a'[k]? = a[k]?) ∧
      (a[i]? = some x ∨ a[j]? = some x) := by
  have hx : a[i]? = some a[i] := List.getElem?_eq_getElem (by omega)
  have hy : a[j]? = some a[j] := List.getElem?_eq_getElem (by omega)
  have step : swapIfGt cmp a i j =
      if cmp.gt a[i] a[j] then swap a i j else some a := by
    rw [swapIfGt, hx, hy]
    rfl
  cases hgt : cmp.gt a[i] a[j] with
  | false =>
      refine ⟨a, a[i], a[j], ?_, Reorder.refl _ _ _, hx, hy, hgt, fun _ _ _ => rfl, Or.inl hx⟩
      rw [step, hgt]
      rfl
  | true =>
      obtain ⟨a', hswap, hre, hi', hj', hrest⟩ := swap_reorder lo stop i j hs hi his hj hjs
      refine ⟨a', a[j], a[i], ?_, hre, by rw [hi', hy], by rw [hj', hx],
        hcmp.total.asymm (forall_getElem? hS hx) (forall_getElem? hS hy) hgt, hrest, Or.inr hy⟩
      rw [step, hgt]
      exact hswap

/-- After `median` the three elements are in order. -/
theorem median_reorder (hcmp : cmp.Ok S) (hS : ∀ x ∈ a, S x) {b c e : Nat} {x z : ε}
    (hbc : b < c) (hce : c < e) (hea : e < a.length) (hx : a[b]? = some x)
    (hz : a[e]? = some z) (hxz : cmp.gt x z = false) :
    ∃ a' x y z, median cmp a b c e = some a' ∧ Reorder b (e + 1) a a' ∧ a'[b]? = some x ∧
      a'[c]? = some y ∧ a'[e]? = some z ∧ cmp.gt x y = false ∧ cmp.gt y z = false := by
  have hy : a[c]? = some a[c] := List.getElem?_eq_getElem (by omega)
  have step : median cmp a b c e =
      if cmp.gt x a[c] then swap a b c else swapIfGt cmp a c e := by
    rw [median, hx, hy]
    rfl
  cases hgt : cmp.gt x a[c] with
  | true =>
      obtain ⟨a', hswap, hre, hb', hc', hrest⟩ := swap_reorder b (e + 1) b c
        (show e + 1 ≤ a.length by omega) le_rfl (by omega) (by omega) (by omega)
      refine ⟨a', a[c], x, z, ?_, hre, by rw [hb', hy], by rw [hc', hx], ?_,
        hcmp.total.asymm (forall_getElem? hS hx) (forall_getElem? hS hy) hgt, hxz⟩
      · rw [step, hgt]
        exact hswap
      · rw [hrest e (by omega) (by omega), hz]
  | false =>
      obtain ⟨a', y', z', hswap, hre, hc', he', hyz, hrest, hmem⟩ := swapIfGt_reorder hcmp hS
        b (e + 1) c e (by omega) (by omega) (by omega)
        (by omega) (by omega)
      refine ⟨a', x, y', z', ?_, hre, ?_, hc', he', ?_, hyz⟩
      · rw [step, hgt]
        exact hswap
      · rw [hrest b (by omega) (by omega), hx]
      · rcases hmem with hmem | hmem
        · rwa [← Option.some.inj (hy.symm.trans hmem)]
        · rwa [← Option.some.inj (hz.symm.trans hmem)]

/-- What `part` leaves of the elements from `b` to `e`: sorted elements, or a partition. -/
def PartPost (gt : ε → ε → Bool) (b e : Nat) (a : List ε) : Option Nat → Prop
  | none => ∀ limit, SortedTo gt b (e + 1) limit a
  | some m => ∃ p, Split gt b (e + 1) m p a

/-- **The partition.** It terminates within the range and leaves it sorted or split. -/
theorem part_settles (hcmp : cmp.Ok S) {pv : PivotRule ε} (hpv : pv.Ok) (hS : ∀ x ∈ a, S x)
    {b e : Nat} (hbe : b < e) (hea : e < a.length) :
    ∃ a' r, Settles (fun k => part cmp pv k a b e) (a', r) ∧ Reorder b (e + 1) a a' ∧
      PartPost cmp.gt b e a' r := by
  obtain ⟨a₁, x₁, z₁, hswap, hre₁, hx₁, hz₁, hxz₁, -, -⟩ := swapIfGt_reorder hcmp hS b
    (e + 1) b e (by omega) le_rfl (by omega) (by omega) (by omega)
  have hlen₁ := hre₁.length_eq
  have hS₁ := hre₁.forall_mem hS
  by_cases htwo : e - b < 2
  · refine ⟨a₁, none, ?_, hre₁, ?_⟩
    · apply Settles.congr _ (Settles.pure _)
      intro k
      rw [part, hswap, Option.bind_some, if_pos htwo]
    · intro limit i j x y hi hij hj _ hx hy
      obtain rfl : i = b := by omega
      obtain rfl : j = e := by omega
      rwa [Option.some.inj (hx.symm.trans hx₁), Option.some.inj (hy.symm.trans hz₁)]
  obtain ⟨c, hc⟩ : ∃ c, c = b + (e - b) / 2 := ⟨_, rfl⟩
  have hbc : b < c := by omega
  have hce : c < e := by omega
  obtain ⟨a₂, x, p, z, hmed, hre₂, hx, hp, hz, hxp, hpz⟩ :=
    median_reorder hcmp hS₁ hbc hce (by omega) hx₁ hz₁ hxz₁
  have hlen₂ := hre₂.length_eq
  have hS₂ := hre₂.forall_mem hS₁
  by_cases hthree : e - b < 3
  · refine ⟨a₂, none, ?_, hre₁.trans hre₂, ?_⟩
    · apply Settles.congr _ (Settles.pure _)
      intro k
      rw [part, hswap, Option.bind_some, if_neg htwo, ← hc, hmed, Option.bind_some,
        if_pos hthree]
    · intro limit i j x' y' hi hij hj _ hx' hy'
      have hxz := hcmp.total.trans (forall_getElem? hS₂ hx) (forall_getElem? hS₂ hp)
        (forall_getElem? hS₂ hz) hxp hpz
      rcases (by omega : i = b ∧ j = c ∨ i = b ∧ j = e ∨ i = c ∧ j = e) with
        ⟨rfl, rfl⟩ | ⟨rfl, rfl⟩ | ⟨rfl, rfl⟩
      · rwa [Option.some.inj (hx'.symm.trans hx), Option.some.inj (hy'.symm.trans hp)]
      · rwa [Option.some.inj (hx'.symm.trans hx), Option.some.inj (hy'.symm.trans hz)]
      · rwa [Option.some.inj (hx'.symm.trans hp), Option.some.inj (hy'.symm.trans hz)]
  -- the median waits at `b + 1` while the elements after it are partitioned
  obtain ⟨a₃, hswap₃, hre₃, hb₃, -, hrest₃⟩ := swap_reorder (b + 1) e (b + 1) c
    (show e ≤ a₂.length by omega) le_rfl (by omega) (by omega) (by omega)
  have hlen₃ := hre₃.length_eq
  have hinv : LoopInv cmp p (b + 1) e (b + 1) e a₃ := by
    refine ⟨le_rfl, by omega, le_rfl, by omega, hb₃.trans hp, ?_, ?_⟩
    · intro i y hi hi' hy
      obtain rfl : i = b + 1 := by omega
      rw [Option.some.inj (hy.symm.trans (hb₃.trans hp))]
      exact hcmp.total.refl (forall_getElem? hS₂ hp)
    · intro i y hi hi' hy
      obtain rfl : i = e := by omega
      rw [hrest₃ _ (by omega) (by omega)] at hy
      rwa [Option.some.inj (hy.symm.trans hz)]
  obtain ⟨a₄, m, hloop, hre₄, hbm, hme, hbelow, habove⟩ :=
    partLoop_settles hcmp hpv (hre₃.forall_mem hS₂) hinv
  have hlen₄ := hre₄.length_eq
  obtain ⟨a₅, hswap₅, hre₅, hb₅, hm₅, hrest₅⟩ := swap_reorder (b + 1) e (b + 1) m
    (show e ≤ a₄.length by omega) le_rfl (by omega) (by omega) (by omega)
  have hp₄ : a₄[b + 1]? = some p :=
    (hre₄.outside _ (Or.inl (by omega))).trans (hb₃.trans hp)
  refine ⟨a₅, some m, ?_, ?_, p, by omega, by omega, hm₅.trans hp₄, ?_, ?_⟩
  · obtain ⟨n, hn⟩ := hloop
    refine ⟨n, fun k hk => ?_⟩
    have hk : partLoop cmp (pv p (b + 1)) k a₃ (b + 1) e = some (a₄, m) := hn k hk
    show part cmp pv k a b e = _
    rw [part, hswap, Option.bind_some, if_neg htwo, ← hc, hmed, Option.bind_some, if_neg hthree,
      hp, Option.bind_some, hswap₃, Option.bind_some, hk, Option.bind_some]
    show (swap a₄ (b + 1) m).map _ = _
    rw [hswap₅, Option.map_some]
  · have h₃ : Reorder b (e + 1) a₂ a₃ := hre₃.widen (by omega) (by omega)
    have h₄ : Reorder b (e + 1) a₃ a₄ := hre₄.widen (by omega) (by omega)
    have h₅ : Reorder b (e + 1) a₄ a₅ := hre₅.widen (by omega) (by omega)
    exact hre₁.trans (hre₂.trans (h₃.trans (h₄.trans h₅)))
  · intro i y hi him hy
    by_cases hib : i = b
    · rw [hib, hrest₅ b (by omega) (by omega), hre₄.outside b (Or.inl (by omega)),
        hrest₃ b (by omega) (by omega), hx] at hy
      rwa [← Option.some.inj hy]
    · by_cases hib₁ : i = b + 1
      · rw [hib₁, hb₅] at hy
        exact hbelow m y hbm le_rfl hy
      · rw [hrest₅ i hib₁ (by omega)] at hy
        exact hbelow i y (by omega) (by omega) hy
  · intro i y hi hie hy
    rw [hrest₅ i (by omega) (by omega)] at hy
    exact habove i y (by omega) (by omega) hy

end

section

variable {cmp : Cmp ε} {S : ε → Prop} {pv : PivotRule ε}

/-- **The sort of a range** terminates, moves elements inside the range only, and leaves
its first `limit` elements in order and least. -/
theorem sortRange_settles (hcmp : cmp.Ok S) (hpv : pv.Ok) {a : List ε} (hS : ∀ x ∈ a, S x)
    (head stop : Nat) (hs : stop ≤ a.length) (limit : Int) :
    ∃ a', Settles (fun k => sortRange cmp pv k a head stop limit) a' ∧ Reorder head stop a a' ∧
      SortedTo cmp.gt head stop limit a' := by
  generalize hd : stop - head = d
  induction d using Nat.strong_induction_on generalizing a head stop limit with
  | _ d ih =>
    by_cases hlt : head + 1 < stop
    · obtain ⟨a₁, r, hpart, hre₁, hpost⟩ := part_settles hcmp hpv hS (b := head)
        (e := stop - 1) (by omega) (by omega)
      obtain ⟨hstop⟩ : Nonempty (stop - 1 + 1 = stop) := ⟨by omega⟩
      rw [hstop] at hre₁
      have hlen₁ := hre₁.length_eq
      have hS₁ := hre₁.forall_mem hS
      have step (k : Nat) : sortRange cmp pv (k + 1) a head stop limit =
          (part cmp pv k a head (stop - 1)).bind fun ac => ac.2.elim (some ac.1) fun c =>
            (sortRange cmp pv k ac.1 head c limit).bind fun a =>
              if limit - 1 - ((c : Int) - head) > 0 then
                sortRange cmp pv k a (c + 1) stop (limit - 1 - ((c : Int) - head))
              else some a := by
        rw [sortRange, if_pos hlt]
        congr 1
        funext ac
        obtain ⟨a, c⟩ := ac
        cases c <;> rfl
      cases r with
      | none =>
          refine ⟨a₁, Settles.succ step (Settles.bind hpart (Settles.pure _)), hre₁, ?_⟩
          rw [← hstop]
          exact hpost limit
      | some m =>
          obtain ⟨p, hsplit⟩ := hpost
          rw [hstop] at hsplit
          have hm := hsplit.lo_le
          have hm' := hsplit.lt_stop
          obtain ⟨a₂, hleft, hre₂, hsort₂⟩ := ih (m - head) (by omega) hS₁ head m
            (by omega) limit rfl
          have hlen₂ := hre₂.length_eq
          have hS₂ := hre₂.forall_mem hS₁
          have hsplit₂ := hsplit.reorder_left hre₂
          by_cases hrest : limit - 1 - ((m : Int) - head) > 0
          · obtain ⟨a₃, hright, hre₃, hsort₃⟩ := ih (stop - (m + 1)) (by omega) hS₂
              (m + 1) stop (by omega) (limit - 1 - ((m : Int) - head)) rfl
            refine ⟨a₃, Settles.succ step (Settles.bind hpart (Settles.bind hleft ?_)), ?_, ?_⟩
            · simp only [if_pos hrest]
              exact hright
            · exact hre₁.trans ((hre₂.widen le_rfl (by omega)).trans
                (hre₃.widen (by omega) le_rfl))
            · apply (hsplit₂.reorder_right hre₃).sortedTo hcmp.total (hre₃.forall_mem hS₂) _
                fun _ => hsort₃
              exact hsort₂.congr fun i hi him => hre₃.outside i (Or.inl (by omega))
          · refine ⟨a₂, Settles.succ step (Settles.bind hpart (Settles.bind hleft ?_)), ?_, ?_⟩
            · simp only [if_neg hrest]
              exact Settles.pure _
            · exact hre₁.trans (hre₂.widen le_rfl (by omega))
            · exact hsplit₂.sortedTo hcmp.total hS₂ hsort₂ fun h => absurd h hrest
    · refine ⟨a, Settles.succ (fun k => ?_) (Settles.pure _), Reorder.refl _ _ _,
        SortedTo.of_le (by omega)⟩
      rw [sortRange, if_neg hlt]

end

section

variable {cmp : Cmp ε} {S : ε → Prop}

theorem store_append (pre post : List ε) (y x : ε) :
    store (pre ++ y :: post) pre.length x = some (pre ++ x :: post) := by
  rw [store, if_pos (by simp), List.set_append_right _ _ le_rfl, Nat.sub_self, List.set_cons_zero]

section

variable {index : List (Slot ε)} {m n i i' head tail : Nat} {c e : ε} {res res' : List ε}
  {r : List ε × Nat}

/-- An entry smaller than the pivot goes to the front. -/
theorem packLoop_low (hnext : Settles (fun f => nextLive index m f ((i + 1) &&& m)) (i', e))
    (hlt : cmp.lt e c = true) (hstore : store res head e = some res')
    (hrest : Settles (fun f => packLoop cmp index m c f n res' (head + 1) tail i') r) :
    Settles (fun f => packLoop cmp index m c f (n + 1) res head tail i) r := by
  obtain ⟨k₁, h₁⟩ := hnext
  obtain ⟨k₂, h₂⟩ := hrest
  refine ⟨max k₁ k₂, fun k hk => ?_⟩
  have h₁ : nextLive index m k ((i + 1) &&& m) = some (i', e) :=
    h₁ k (le_trans (le_max_left k₁ k₂) hk)
  have h₂ := h₂ k (le_trans (le_max_right k₁ k₂) hk)
  simp only [packLoop, h₁, Option.bind_some, hlt, if_true, hstore]
  exact h₂

/-- Any other entry goes to the back. -/
theorem packLoop_high (hnext : Settles (fun f => nextLive index m f ((i + 1) &&& m)) (i', e))
    (hlt : cmp.lt e c = false) (hstore : store res tail e = some res')
    (hrest : Settles (fun f => packLoop cmp index m c f n res' head (tail - 1) i') r) :
    Settles (fun f => packLoop cmp index m c f (n + 1) res head tail i) r := by
  obtain ⟨k₁, h₁⟩ := hnext
  obtain ⟨k₂, h₂⟩ := hrest
  refine ⟨max k₁ k₂, fun k hk => ?_⟩
  have h₁ : nextLive index m k ((i + 1) &&& m) = some (i', e) :=
    h₁ k (le_trans (le_max_left k₁ k₂) hk)
  have h₂ := h₂ k (le_trans (le_max_right k₁ k₂) hk)
  simp only [packLoop, h₁, Option.bind_some, hlt, Bool.false_eq_true, if_false, hstore]
  exact h₂

end

variable (cmp) in
/-- The loop of the collection puts the entries to come on either side of the pivot: what
is smaller before it, the rest after it. -/
theorem packLoop_settles {index : List (Slot ε)} {m k start : Nat} {c : ε}
    (hlen : index.length = m + 1) (hm : m + 1 = 2 ^ k) (L pre mid post : List ε) (i tail : Nat)
    (hmid : mid.length = L.length + 1) (htail : tail = pre.length + L.length)
    (hahead : Ahead index start ((i + 1) &&& m) L) :
    ∃ lows highs, (lows ++ highs).Perm L ∧ (∀ x ∈ lows, cmp.lt x c = true) ∧
      (∀ x ∈ highs, cmp.lt x c = false) ∧
      Settles (fun f => packLoop cmp index m c f L.length (pre ++ (mid ++ post)) pre.length tail i)
        (pre ++ (lows ++ c :: highs ++ post), pre.length + lows.length) := by
  induction L generalizing pre mid post i tail with
  | nil =>
      obtain ⟨y, rfl⟩ : ∃ y, mid = [y] := List.length_eq_one_iff.mp hmid
      refine ⟨[], [], List.Perm.refl _, by simp, by simp, Settles.congr (fun f => ?_)
        (Settles.pure _)⟩
      show (store (pre ++ y :: post) pre.length c).map _ = _
      rw [store_append]
      rfl
  | cons e L ih =>
      obtain ⟨i', hnext, hahead'⟩ := nextLive_ahead hlen hm hahead
      rw [List.length_cons] at hmid htail
      cases hlt : cmp.lt e c with
      | true =>
          obtain ⟨y, mid, rfl⟩ : ∃ y mid', mid = y :: mid' :=
            List.exists_cons_of_length_eq_add_one hmid
          obtain ⟨lows, highs, hperm, hlow, hhigh, hset⟩ := ih (pre ++ [e]) mid post i' tail
            (by simpa using hmid) (by simp; omega) hahead'
          simp only [List.length_append, List.length_singleton, List.append_assoc] at hset
          refine ⟨e :: lows, highs, hperm.cons e, ?_, hhigh, ?_⟩
          · intro x hx
            rcases List.mem_cons.mp hx with rfl | hx
            · exact hlt
            · exact hlow x hx
          · have hcount : pre.length + (e :: lows).length = pre.length + 1 + lows.length := by
              rw [List.length_cons]
              omega
            rw [hcount]
            have hstore : store (pre ++ (y :: mid ++ post)) pre.length e =
                some (pre ++ ([e] ++ (mid ++ post))) := store_append _ _ _ e
            have hshape : e :: lows ++ c :: highs ++ post =
                [e] ++ (lows ++ (c :: highs ++ post)) := by
              simp
            rw [hshape]
            exact packLoop_low hnext hlt hstore hset
      | false =>
          obtain ⟨mid, y, rfl⟩ : ∃ mid' y, mid = mid' ++ [y] := by
            refine ⟨mid.dropLast, mid.getLast (by intro h; simp [h] at hmid), ?_⟩
            rw [List.dropLast_append_getLast]
          have hmid' : mid.length = L.length + 1 := by simpa using hmid
          obtain ⟨lows, highs, hperm, hlow, hhigh, hset⟩ := ih pre mid (e :: post) i' (tail - 1)
            hmid' (by omega) hahead'
          have hstore : store (pre ++ (mid ++ [y] ++ post)) tail e =
              some (pre ++ (mid ++ e :: post)) := by
            have h := store_append (pre ++ mid) post y e
            rw [List.length_append, hmid', ← htail] at h
            simpa using h
          refine ⟨lows, highs ++ [e], ?_, hlow, ?_, ?_⟩
          · rw [← List.append_assoc]
            exact (List.perm_append_singleton e _).trans (hperm.cons e)
          · intro x hx
            rcases List.mem_append.mp hx with hx | hx
            · exact hhigh x hx
            · rw [List.mem_singleton.mp hx]
              exact hlt
          · have hshape : lows ++ c :: (highs ++ [e]) ++ post =
                lows ++ c :: highs ++ e :: post := by
              simp
            rw [hshape]
            exact packLoop_high hnext hlt hstore hset

/-- **The collection** returns the entries, partitioned around the first one found. -/
theorem pack_settles {t : Table ε} (hcmp : cmp.Ok (· ∈ live t.index)) (ht : t.Ok)
    (hne : t.nEntries ≠ 0) {buf : List ε} (hbuf : buf.length = t.nEntries) :
    ∃ res m c, Settles (pack cmp t buf) (res, if t.nEntries > 2 then some m else none) ∧
      res.Perm (live t.index) ∧ Split cmp.gt 0 t.nEntries m c res := by
  obtain ⟨k, hk⟩ := ht.pow_two
  obtain ⟨start, hstart⟩ : ∃ start, start = t.maxOffset >>> 1 := ⟨_, rfl⟩
  have hlt : start < t.index.length := by
    rw [hstart, Nat.shiftRight_eq_div_pow, ht.length_eq]
    omega
  have hperm := live_rotate_perm t.index start
  obtain ⟨c, L, hL⟩ : ∃ c L, live (t.index.rotate start) = c :: L := by
    apply List.exists_cons_of_ne_nil
    intro hnil
    rw [hnil] at hperm
    exact hne (by rw [ht.count, ← hperm.length_eq]; rfl)
  have hahead := ahead_start hlt
  rw [hL] at hahead hperm
  have hc : c ∈ live t.index := hperm.mem_iff.mp List.mem_cons_self
  have hmem {x : ε} (hx : x ∈ L) : x ∈ live t.index :=
    hperm.mem_iff.mp (List.mem_cons_of_mem c hx)
  have hn : t.nEntries = L.length + 1 := by
    rw [ht.count, ← hperm.length_eq, List.length_cons]
  obtain ⟨i, hfirst, hahead⟩ := nextLive_ahead ht.length_eq hk hahead
  obtain ⟨lows, highs, hLperm, hlow, hhigh, hloop⟩ := packLoop_settles cmp (c := c)
    ht.length_eq hk L [] buf [] i (0 + L.length) (by omega) rfl hahead
  simp only [List.nil_append, List.append_nil, List.length_nil, Nat.zero_add] at hloop
  refine ⟨lows ++ c :: highs, lows.length, c, ?_, ?_, ?_⟩
  · have hpack (f : Nat) : pack cmp t buf f = (nextLive t.index t.maxOffset f start).bind
        fun ic => (packLoop cmp t.index t.maxOffset ic.2 f L.length buf 0 L.length ic.1).map
          fun r => (r.1, if t.nEntries > 2 then some r.2 else none) := by
      rw [pack, hstart, hn, Nat.add_sub_cancel]
    exact Settles.congr hpack (Settles.bind hfirst (hloop.map _))
  · exact (List.perm_middle.trans (hLperm.cons c)).trans hperm
  · have hlen : lows.length + highs.length = L.length := by
      rw [← List.length_append]
      exact hLperm.length_eq
    refine ⟨Nat.zero_le _, by omega, ?_, fun i x _ hi hx => ?_, fun i x hi _ hx => ?_⟩
    · rw [List.getElem?_append_right le_rfl, Nat.sub_self, List.getElem?_cons_zero]
    · rw [List.getElem?_append_left hi] at hx
      have hx := List.mem_of_getElem? hx
      have hxl := hmem (hLperm.mem_iff.mp (List.mem_append_left _ hx))
      apply hcmp.total.asymm hc hxl
      rw [← hcmp.lt_eq hxl hc]
      exact hlow x hx
    · rw [List.getElem?_append_right (by omega)] at hx
      obtain ⟨j, hj⟩ : ∃ j, i - lows.length = j + 1 := ⟨i - lows.length - 1, by omega⟩
      rw [hj, List.getElem?_cons_succ] at hx
      have hx := List.mem_of_getElem? hx
      have hxl := hmem (hLperm.mem_iff.mp (List.mem_append_right _ hx))
      rw [← hcmp.lt_eq hxl hc]
      exact hhigh x hx

/-- The sort of the entries of a set, for a comparison that is a total preorder. -/
theorem sort_settles {t : Table ε} (hcmp : cmp.Ok (· ∈ live t.index)) {pv : PivotRule ε}
    (hpv : pv.Ok) (ht : t.Ok) (hne : t.nEntries ≠ 0) {buf : List ε}
    (hbuf : buf.length = t.nEntries) (limit : Int) :
    ∃ res, Settles (sort cmp pv t buf limit) res ∧ res.Perm (live t.index) ∧
      SortedTo cmp.gt 0 t.nEntries limit res := by
  obtain ⟨a, m, c, hpack, hperm, hsplit⟩ := pack_settles hcmp ht hne hbuf
  have hlen : a.length = t.nEntries := by rw [hperm.length_eq, ht.count]
  have hS : ∀ x ∈ a, x ∈ live t.index := fun x => hperm.mem_iff.mp
  have hm := hsplit.lt_stop
  by_cases htwo : t.nEntries > 2
  · rw [if_pos htwo] at hpack
    obtain ⟨a₁, hleft, hre₁, hsort₁⟩ := sortRange_settles hcmp hpv hS 0 m
      (by omega) limit
    have hlen₁ := hre₁.length_eq
    have hS₁ := hre₁.forall_mem hS
    have hsplit₁ := hsplit.reorder_left hre₁
    have hrest : limit - 1 - ((m : Int) - (0 : Nat)) = limit - 1 - (m : Int) := by omega
    by_cases hpos : limit - 1 - (m : Int) > 0
    · obtain ⟨a₂, hright, hre₂, hsort₂⟩ := sortRange_settles hcmp hpv hS₁ (m + 1)
        t.nEntries (by omega) (limit - 1 - (m : Int))
      refine ⟨a₂, Settles.bind hpack (Settles.bind hleft ?_), ?_, ?_⟩
      · simp only [if_pos hpos]
        exact hright
      · exact hre₂.perm.trans (hre₁.perm.trans hperm)
      · apply (hsplit₁.reorder_right hre₂).sortedTo hcmp.total (hre₂.forall_mem hS₁)
        · exact hsort₁.congr fun i hi him => hre₂.outside i (Or.inl (by omega))
        · rw [hrest]
          exact fun _ => hsort₂
    · refine ⟨a₁, Settles.bind hpack (Settles.bind hleft ?_), hre₁.perm.trans hperm, ?_⟩
      · simp only [if_neg hpos]
        exact Settles.pure _
      · apply hsplit₁.sortedTo hcmp.total hS₁ hsort₁
        rw [hrest]
        exact fun h => absurd h hpos
  · rw [if_neg htwo] at hpack
    refine ⟨a, Settles.bind hpack (Settles.pure _), hperm, ?_⟩
    exact hsplit.sortedTo hcmp.total hS (SortedTo.of_le (by omega))
      fun _ => SortedTo.of_le (by omega)

end

/-- The values of an `int`. -/
def FitsInt (v : Int) : Prop := -2 ^ 31 ≤ v ∧ v < 2 ^ 31

instance (v : Int) : Decidable (FitsInt v) := inferInstanceAs (Decidable (_ ∧ _))

theorem mulInt_of_fits {a b : Int} (h : FitsInt (a * b)) : mulInt a b = a * b := by
  obtain ⟨hlo, hhi⟩ := h
  apply Int.bmod_eq_of_le
  · norm_num
    omega
  · norm_num
    omega

/-- On the elements `S`, `f` compares by a total preorder. -/
structure FuncOrder (S : ε → Prop) (f : ε → ε → Int) : Prop where
  int : ∀ {x y}, S x → S y → FitsInt (f x y)
  symm : ∀ {x y}, S x → S y → (0 < f x y ↔ f y x < 0)
  trans : ∀ {x y z}, S x → S y → S z → f x y ≤ 0 → f y z ≤ 0 → f x z ≤ 0

/-- On the elements `S`, `f` compares by a total preorder and its product with the
direction is an `int`. -/
structure FuncOk (S : ε → Prop) (f : ε → ε → Int) (dir : Int) : Prop where
  fits : ∀ {x y}, S x → S y → FitsInt (f x y * dir)
  symm : ∀ {x y}, S x → S y → (0 < f x y ↔ f y x < 0)
  trans : ∀ {x y z}, S x → S y → S z → f x y ≤ 0 → f y z ≤ 0 → f x z ≤ 0

/-- A comparison function that a call sorts by is a total preorder. -/
def SortBy.Preorder (S : ε → Prop) : SortBy σ ε → Prop
  | .func f arg arg0 => FuncOrder S (fun x y => f arg0 x arg0 y arg)
  | .int _ => True

/-- No value that a call compares by leaves the `int` when it is turned around. -/
def SortBy.Turns (S : ε → Prop) (m : Entries ε) (dir : Int) : SortBy σ ε → Prop
  | .func f arg arg0 => ∀ {x y}, S x → S y → FitsInt (f arg0 x arg0 y arg * dir)
  | .int offset => ∀ x, S x → FitsInt (m.word x offset * dir)

/-- What is assumed of the order a call sorts by. -/
def SortBy.Ok (S : ε → Prop) (m : Entries ε) (dir : Int) : SortBy σ ε → Prop
  | .func f arg arg0 => FuncOk S (fun x y => f arg0 x arg0 y arg) dir
  | .int offset => ∀ x, S x → FitsInt (m.word x offset * dir)

theorem SortBy.Preorder.ok {S : ε → Prop} {m : Entries ε} {dir : Int} {by' : SortBy σ ε}
    (h : by'.Preorder S) (hturns : by'.Turns S m dir) : by'.Ok S m dir := by
  cases by' with
  | func f arg arg0 => exact ⟨hturns, h.symm, h.trans⟩
  | int offset => exact hturns

theorem SortBy.Ok.mono {S T : ε → Prop} {m : Entries ε} {dir : Int} {by' : SortBy σ ε}
    (h : by'.Ok S m dir) (hT : ∀ x, T x → S x) : by'.Ok T m dir := by
  cases by' with
  | func f arg arg0 =>
      exact ⟨fun hx hy => h.fits (hT _ hx) (hT _ hy), fun hx hy => h.symm (hT _ hx) (hT _ hy),
        fun hx hy hz => h.trans (hT _ hx) (hT _ hy) (hT _ hz)⟩
  | int offset => exact fun x hx => h x (hT x hx)

/-- In the order a call asks for, `x` may stand before `y`. -/
def SortBy.Before (m : Entries ε) (by' : SortBy σ ε) (mode : SortMode) (x y : ε) : Prop :=
  match by', mode with
  | .func f arg arg0, .ascending => f arg0 x arg0 y arg ≤ 0
  | .func f arg arg0, .descending => 0 ≤ f arg0 x arg0 y arg
  | .int offset, .ascending => m.word x offset ≤ m.word y offset
  | .int offset, .descending => m.word y offset ≤ m.word x offset

/-- The comparisons of the sort that a call dispatches to. -/
def SortBy.cmp (m : Entries ε) (dir : Int) : SortBy σ ε → Cmp ε
  | .func f arg arg0 => funcCmp f arg arg0 dir
  | .int offset => intCmp m.word offset dir

/-- Its pivot rule. -/
def SortBy.rule : SortBy σ ε → PivotRule ε
  | .func _ _ _ => fun _ c a => a[c]?
  | .int _ => fun ck _ _ => some ck

theorem SortBy.rule_ok (by' : SortBy σ ε) : by'.rule.Ok := by
  intro p c a hp
  cases by' with
  | func f arg arg0 => exact hp
  | int offset => rfl

/-- The mode of a call; without an argument it is ascending. -/
def sortMode : Option (SortOptarg σ ε) → SortMode
  | none => .ascending
  | some o => o.mode

section

variable {S : ε → Prop} {dir : Int}

theorem intCmp_gt {word : ε → Int → Int} {offset : Int} {x y : ε}
    (hx : FitsInt (word x offset * dir)) (hy : FitsInt (word y offset * dir)) :
    (intCmp word offset dir).gt x y = false ↔ word x offset * dir ≤ word y offset * dir := by
  show decide (mulInt _ _ > mulInt _ _) = false ↔ _
  rw [mulInt_of_fits hx, mulInt_of_fits hy, decide_eq_false_iff_not, not_lt]

theorem intCmp_ok {word : ε → Int → Int} {offset : Int}
    (h : ∀ x, S x → FitsInt (word x offset * dir)) : (intCmp word offset dir).Ok S where
  lt_eq _ _ := rfl
  total :=
    { asymm := by
        intro x y hx hy hgt
        rw [intCmp_gt (h y hy) (h x hx)]
        by_contra hlt
        rw [(intCmp_gt (h x hx) (h y hy)).mpr (by omega)] at hgt
        cases hgt
      trans := by
        intro x y z hx hy hz hxy hyz
        rw [intCmp_gt (h x hx) (h y hy)] at hxy
        rw [intCmp_gt (h y hy) (h z hz)] at hyz
        rw [intCmp_gt (h x hx) (h z hz)]
        exact le_trans hxy hyz }

theorem funcCmp_gt {func : Compar σ ε} {arg : Nat} {arg0 : σ} {x y : ε}
    (h : FitsInt (func arg0 x arg0 y arg * dir)) :
    (funcCmp func arg arg0 dir).gt x y = false ↔ func arg0 x arg0 y arg * dir ≤ 0 := by
  show decide (mulInt _ _ > 0) = false ↔ _
  rw [mulInt_of_fits h, decide_eq_false_iff_not, not_lt]

/-- Turning a comparison around turns its sign around, in both directions. -/
theorem FuncOk.mul_symm {f : ε → ε → Int} (h : FuncOk S f dir) (hdir : dir = 1 ∨ dir = -1)
    {x y : ε} (hx : S x) (hy : S y) : f x y * dir < 0 ↔ 0 < f y x * dir := by
  have hxy := h.symm hx hy
  have hyx := h.symm hy hx
  rcases hdir with rfl | rfl <;> omega

theorem FuncOk.mul_trans {f : ε → ε → Int} (h : FuncOk S f dir) (hdir : dir = 1 ∨ dir = -1)
    {x y z : ε} (hx : S x) (hy : S y) (hz : S z) (hxy : f x y * dir ≤ 0) (hyz : f y z * dir ≤ 0) :
    f x z * dir ≤ 0 := by
  rcases hdir with rfl | rfl
  · have hxz := h.trans hx hy hz
    omega
  · have hzx := h.trans hz hy hx
    have hxy' := h.symm hx hy
    have hyx := h.symm hy hx
    have hyz' := h.symm hy hz
    have hzy := h.symm hz hy
    have hxz := h.symm hx hz
    have hzx' := h.symm hz hx
    omega

theorem funcCmp_ok {func : Compar σ ε} {arg : Nat} {arg0 : σ} (hdir : dir = 1 ∨ dir = -1)
    (h : FuncOk S (fun x y => func arg0 x arg0 y arg) dir) : (funcCmp func arg arg0 dir).Ok S where
  lt_eq {x y} hx hy := by
    show decide (mulInt _ _ < 0) = decide (mulInt _ _ > 0)
    rw [mulInt_of_fits (h.fits hx hy), mulInt_of_fits (h.fits hy hx), decide_eq_decide]
    exact h.mul_symm hdir hx hy
  total :=
    { asymm := by
        intro x y hx hy hgt
        rw [funcCmp_gt (h.fits hy hx)]
        by_contra hlt
        have hle : func arg0 x arg0 y arg * dir ≤ 0 :=
          le_of_lt ((h.mul_symm hdir hx hy).mpr (by omega))
        rw [(funcCmp_gt (h.fits hx hy)).mpr hle] at hgt
        cases hgt
      trans := by
        intro x y z hx hy hz hxy hyz
        rw [funcCmp_gt (h.fits hx hy)] at hxy
        rw [funcCmp_gt (h.fits hy hz)] at hyz
        rw [funcCmp_gt (h.fits hx hz)]
        exact h.mul_trans hdir hx hy hz hxy hyz }

theorem SortBy.cmp_ok {m : Entries ε} {by' : SortBy σ ε} (hdir : dir = 1 ∨ dir = -1)
    (h : by'.Ok S m dir) : (by'.cmp m dir).Ok S := by
  cases by' with
  | func f arg arg0 => exact funcCmp_ok hdir h
  | int offset => exact intCmp_ok h

/-- An element may stand before another exactly when it does not compare greater. -/
theorem SortBy.before_iff {m : Entries ε} {by' : SortBy σ ε} {mode : SortMode}
    (hdir : dir = if mode = .ascending then 1 else -1) (h : by'.Ok S m dir) {x y : ε} (hx : S x)
    (hy : S y) : by'.Before m mode x y ↔ (by'.cmp m dir).gt x y = false := by
  cases by' with
  | func f arg arg0 =>
      show _ ↔ (funcCmp f arg arg0 dir).gt x y = false
      rw [funcCmp_gt (h.fits hx hy)]
      cases mode with
      | ascending =>
          rw [hdir, if_pos rfl]
          show f arg0 x arg0 y arg ≤ 0 ↔ _
          omega
      | descending =>
          rw [hdir, if_neg (by decide)]
          show 0 ≤ f arg0 x arg0 y arg ↔ _
          omega
  | int offset =>
      show _ ↔ (intCmp m.word offset dir).gt x y = false
      rw [intCmp_gt (h x hx) (h y hy)]
      cases mode with
      | ascending =>
          rw [hdir, if_pos rfl]
          show m.word x offset ≤ m.word y offset ↔ _
          omega
      | descending =>
          rw [hdir, if_neg (by decide)]
          show m.word y offset ≤ m.word x offset ↔ _
          omega

end

theorem sortDir_eq (optarg : Option (SortOptarg σ ε)) :
    sortDir optarg = (if sortMode optarg = .ascending then 1 else -1) := by
  cases optarg with
  | none => rfl
  | some o => rfl

theorem senSetSort_eq {t : Table ε} {m : Entries ε} {self : σ} {optarg : Option (SortOptarg σ ε)}
    {limit : Int} {buf : List ε} (hne : t.nEntries ≠ 0) (k : Nat) :
    senSetSort t m self (some buf) limit optarg k =
      (sort ((sortBy t m self optarg).cmp m (sortDir optarg)) (sortBy t m self optarg).rule t buf
        (if limit = 0 ∨ limit > t.nEntries then (t.nEntries : Int) else limit) k).map some := by
  rw [senSetSort, if_neg hne]
  show (match sortBy t m self optarg with
    | .func func arg arg0 => _
    | .int offset => _) = _
  cases sortBy t m self optarg with
  | func f arg arg0 => rfl
  | int offset => rfl

/-- What a call returns, for an order that is a total preorder on the entries. -/
theorem senSetSort_sorts {t : Table ε} {m : Entries ε} {self : σ}
    {optarg : Option (SortOptarg σ ε)} {limit : Int} {buf : List ε} (ht : t.Ok)
    (hne : t.nEntries ≠ 0)
    (hord : (sortBy t m self optarg).Ok (· ∈ live t.index) m (sortDir optarg))
    (hbuf : buf.length = t.nEntries) :
    ∃ res, Settles (senSetSort t m self (some buf) limit optarg) (some res) ∧
      res.length = t.nEntries ∧ res.Perm (live t.index) ∧
      ∀ (i j : Nat) (x y : ε), i < j → (limit = 0 ∨ (i : Int) < limit) →
        res[i]? = some x → res[j]? = some y →
        (sortBy t m self optarg).Before m (sortMode optarg) x y := by
  have hdir : sortDir optarg = 1 ∨ sortDir optarg = -1 := by
    rw [sortDir_eq]
    split
    · exact Or.inl rfl
    · exact Or.inr rfl
  obtain ⟨res, hset, hperm, hsort⟩ := sort_settles (SortBy.cmp_ok hdir hord)
    (SortBy.rule_ok (sortBy t m self optarg)) ht hne hbuf
    (if limit = 0 ∨ limit > t.nEntries then (t.nEntries : Int) else limit)
  have hlen : res.length = t.nEntries := by rw [hperm.length_eq, ht.count]
  refine ⟨res, Settles.congr (senSetSort_eq hne) (hset.map some), hlen, hperm, ?_⟩
  intro i j x y hij hi hx hy
  have hj : j < t.nEntries := by
    rw [← hlen]
    exact (List.getElem?_eq_some_iff.mp hy).1
  rw [SortBy.before_iff (sortDir_eq optarg) hord (hperm.mem_iff.mp (List.mem_of_getElem? hx))
    (hperm.mem_iff.mp (List.mem_of_getElem? hy))]
  apply hsort i j x y (Nat.zero_le _) hij hj _ hx hy
  split <;> omega

end Senna.Set
