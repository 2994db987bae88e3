/-
# Divisions that trap

`nf_div` looks for a zero divisor before `do_op` makes a string a number, and nobody looks for
the least number divided by -1. So exactly two kinds of argument lists make the processor
trap: a string that stands for zero is met while the quotient is still an integer, or the
least number, divided by nothing but 1 so far, is divided by -1. Every other zero divisor
ends in a float or in an error.
-/

import Senna.Scm.Arith

namespace Senna.Scm

universe u

variable {Flt : Type u} {fl : FloatOps Flt} {inspect : Heap Flt → Nat → List UInt8}
variable {m : Heap Flt}

namespace Heap

/-- The heap behind `sen_obj2int` of an object that is the number `i`. -/
def converted (m : Heap Flt) (x : Nat) (i : I64) : Heap Flt :=
  if (m.cell x).converts then m.set x (.int i) else m

@[simp]
theorem cell_set (x : Nat) (o : Obj Flt) : (m.set x o).cell x = o := Function.update_self ..

theorem cell_set_of_ne {x y : Nat} (o : Obj Flt) (hne : y ≠ x) : (m.set x o).cell y = m.cell y :=
  Function.update_of_ne hne ..

/-- A conversion does not change the numbers that objects stand for. -/
theorem toInt?_converted {x : Nat} {i : I64} (hx : (m.cell x).toInt? = some i) (y : Nat) :
    ((m.converted x i).cell y).toInt? = (m.cell y).toInt? := by
  unfold converted
  split_ifs
  · by_cases hy : y = x
    · rw [hy, cell_set, hx]
      rfl
    · rw [cell_set_of_ne _ hy]
  · rfl

/-- What is converted once is not converted again. -/
theorem converts_converted {x : Nat} {i : I64} (y : Nat) :
    ((m.converted x i).cell y).converts ↔ (m.cell y).converts ∧ y ≠ x := by
  unfold converted
  by_cases hx : (m.cell x).converts
  · rw [if_pos hx]
    by_cases hy : y = x
    · simp [hy, Obj.converts]
    · simp [cell_set_of_ne _ hy, hy]
  · rw [if_neg hx]
    refine ⟨fun h => ⟨h, ?_⟩, And.left⟩
    rintro rfl
    exact hx h

end Heap

theorem senObj2int_of_toInt? {x : Nat} {i : I64} (hx : (m.cell x).toInt? = some i) :
    senObj2int m x = some (i, m.converted x i) := by
  rw [senObj2int_eq, hx]
  rfl

theorem senObj2int_of_none {x : Nat} (hx : (m.cell x).toInt? = none) : senObj2int m x = none := by
  rw [senObj2int_eq, hx]
  rfl

/-- `do_op` of an integer and an object that stands for one. -/
theorem doOp_int (op : ArithOp) (a : I64) {y : Nat} {b : I64} (hy : (m.cell y).toInt? = some b) :
    doOp fl op m (.int a) y = ((op.onInt a b).map .int, m.converted y b) := by
  have hconv := senObj2int_of_toInt? hy
  unfold doOp
  cases hcell : m.cell y with
  | int c =>
      rw [hcell, Obj.toInt?, Option.some.injEq] at hy
      simp [Heap.converted, hcell, Obj.converts, hy]
  | bulk value => simp [hconv]
  | _ => simp [hcell, Obj.toInt?] at hy

/-- `do_op` of a float and an object that stands for an integer. -/
theorem doOp_float (op : ArithOp) (d : Flt) {y : Nat} {b : I64}
    (hy : (m.cell y).toInt? = some b) :
    doOp fl op m (.float d) y =
      (.ok (.float (fl.arith op d (fl.ofInt b.val))), m.converted y b) := by
  have hconv := senObj2int_of_toInt? hy
  unfold doOp
  cases hcell : m.cell y with
  | int c =>
      rw [hcell, Obj.toInt?, Option.some.injEq] at hy
      simp [Heap.converted, hcell, Obj.converts, hy]
  | bulk value => simp [hconv]
  | _ => simp [hcell, Obj.toInt?] at hy

variable (fl) in
/-- `do_op` with an object that stands for no integer: a float, or an error. -/
theorem doOp_other (op : ArithOp) (v : Num Flt) {y : Nat} (hy : (m.cell y).toInt? = none) :
    (∃ d, doOp fl op m v y = (.ok (.float d), m)) ∨
      ∃ msg, doOp fl op m v y = (.error (.error msg), m) := by
  have hconv := senObj2int_of_none hy
  unfold doOp
  cases v <;> cases hcell : m.cell y <;> simp_all [Obj.toInt?]

/-- A result is a float, or an error. -/
def FloatOrError (r : Except Fault (Num Flt)) : Prop :=
  r ≠ .error .trap ∧ ∀ v, r = .ok v → ∃ d, v = .float d

/-- Once the number is a float, it stays one until the list or an error ends the loop. -/
theorem opLoop_float (op : ArithOp) (ds : List Nat) (m : Heap Flt) (d : Flt) :
    FloatOrError (opLoop fl op (floatIfZero fl) ds m (.float d)).1 := by
  induction ds generalizing m d with
  | nil => simp [opLoop, FloatOrError]
  | cons y ys ih =>
      have hprepare : floatIfZero fl m (.float d) y = .float d := rfl
      cases hy : (m.cell y).toInt? with
      | some b =>
          simp only [opLoop, hprepare, doOp_float op d hy]
          exact ih _ _
      | none =>
          rcases doOp_other fl op (.float d) hy with ⟨e, h⟩ | ⟨msg, h⟩
          · simp only [opLoop, hprepare, h]
            exact ih _ _
          · simp [opLoop, hprepare, h, FloatOrError]

section Step

variable {z : Nat} {zs : List Nat} {v i : I64}

/-- An object that is no integer ends the integer quotient. -/
theorem opLoop_cons_none (hz : (m.cell z).toInt? = none) :
    FloatOrError (opLoop fl .div (floatIfZero fl) (z :: zs) m (.int v)).1 := by
  have hprepare : floatIfZero fl m (.int v) z = .int v := by
    unfold floatIfZero
    cases hcell : m.cell z <;> simp_all [Obj.toInt?]
  rcases doOp_other fl .div (.int v) hz with ⟨e, h⟩ | ⟨msg, h⟩
  · simp only [opLoop, hprepare, h]
    exact opLoop_float ..
  · simp [opLoop, hprepare, h, FloatOrError]

/-- The integer 0 ends the integer quotient, too. -/
theorem opLoop_cons_zero (hz : (m.cell z).toInt? = some i) (hi : i.val = 0)
    (hconv : ¬ (m.cell z).converts) :
    FloatOrError (opLoop fl .div (floatIfZero fl) (z :: zs) m (.int v)).1 := by
  have hcell : m.cell z = .int i := by
    cases hcell : m.cell z <;> simp_all [Obj.toInt?, Obj.converts]
  have hprepare : floatIfZero fl m (.int v) z = .float (fl.ofInt v.val) := by
    simp [floatIfZero, hcell, hi]
  simp only [opLoop, hprepare, doOp_float .div _ hz]
  exact opLoop_float ..

/-- Other divisors are divided by as integers. -/
theorem opLoop_cons_some (hz : (m.cell z).toInt? = some i)
    (hkeep : i.val ≠ 0 ∨ (m.cell z).converts) :
    opLoop fl .div (floatIfZero fl) (z :: zs) m (.int v) =
      if I64.Traps v i then (.error .trap, m.converted z i)
      else opLoop fl .div (floatIfZero fl) zs (m.converted z i)
        (.int (.wrap (v.val.tdiv i.val))) := by
  have hprepare : floatIfZero fl m (.int v) z = .int v := by
    unfold floatIfZero
    cases hcell : m.cell z <;> simp_all [Obj.toInt?, Obj.converts]
  rw [opLoop, hprepare, doOp_int .div v hz, ArithOp.onInt]
  split_ifs <;> rfl

end Step

/-- A division of `v` by `ds`, one after the other, comes to one that traps. All divisors before
it are integers other than 0. It is either a string that stands for 0, or it is -1 while the
quotient is still the least number. `fresh` says which objects have not been converted yet. -/
def TrapAt (m : Heap Flt) (fresh : Nat → Prop) (v : I64) (ds : List Nat) : Prop :=
  ∃ pre z post, ds = pre ++ z :: post ∧
    (∀ w ∈ pre, ∃ i, (m.cell w).toInt? = some i ∧ i.val ≠ 0) ∧
    ((((m.cell z).converts ∧ (m.cell z).toInt? = some (.wrap 0)) ∧ fresh z) ∨
      (v = .least ∧ (∀ w ∈ pre, (m.cell w).toInt? = some (.wrap 1)) ∧
        (m.cell z).toInt? = some (.wrap (-1))))

theorem I64.natAbs_le (v : I64) : v.val.natAbs ≤ 2 ^ 63 := by
  have hlow := v.low
  have hhigh := v.high
  omega

/-- A quotient is as large as the least number only when that is divided by 1 or -1. -/
theorem I64.natAbs_tdiv_lt {v i : I64} (hi : i.val ≠ 0)
    (hsmall : ¬ (v = .least ∧ i.val.natAbs = 1)) : (v.val.tdiv i.val).natAbs < 2 ^ 63 := by
  have hdiv : (v.val.tdiv i.val).natAbs = v.val.natAbs / i.val.natAbs := Int.natAbs_tdiv ..
  rw [hdiv]
  have habs : v.val.natAbs ≤ 2 ^ 63 := v.natAbs_le
  have hne : i.val.natAbs ≠ 0 := Int.natAbs_ne_zero.mpr hi
  rcases Nat.lt_or_ge 1 i.val.natAbs with htwo | hone
  · have hhalf : v.val.natAbs / i.val.natAbs ≤ v.val.natAbs / 2 :=
      Nat.div_le_div_left htwo (by omega)
    omega
  · have hunit : i.val.natAbs = 1 := by omega
    have hv : v.val ≠ -2 ^ 63 := fun h => hsmall ⟨I64.ext h, hunit⟩
    have hhigh := v.high
    rw [hunit, Nat.div_one]
    omega

/-- A quotient that does not trap is the least number only when that is divided by 1. -/
theorem wrap_tdiv_eq_least {v i : I64} (htrap : ¬ I64.Traps v i) :
    I64.wrap (v.val.tdiv i.val) = .least ↔ v = .least ∧ i = .wrap 1 := by
  unfold I64.Traps at htrap
  push Not at htrap
  constructor
  · intro hleast
    by_contra hnot
    have hlt : (v.val.tdiv i.val).natAbs < 2 ^ 63 := by
      refine I64.natAbs_tdiv_lt htrap.1 fun ⟨hv, hunit⟩ => hnot ⟨hv, ?_⟩
      have hne := htrap.2 hv
      exact I64.ext (show i.val = 1 by omega)
    have hval := I64.val_wrap (i := v.val.tdiv i.val) (by omega)
    rw [hleast] at hval
    change (-2 ^ 63 : Int) = _ at hval
    omega
  · rintro ⟨rfl, rfl⟩
    decide

/-- Behind a divisor that does not trap, the same divisors trap as before. -/
theorem trapAt_cons {v i : I64} {z : Nat} {ds : List Nat} (hz : (m.cell z).toInt? = some i)
    (hi : i.val ≠ 0) (htrap : ¬ I64.Traps v i) :
    TrapAt m (fun _ => True) v (z :: ds) ↔
      TrapAt (m.converted z i) (fun _ => True) (.wrap (v.val.tdiv i.val)) ds := by
  have hvalue (w : Nat) : ((m.converted z i).cell w).toInt? = (m.cell w).toInt? :=
    Heap.toInt?_converted hz w
  unfold TrapAt
  simp only [hvalue, and_true, Heap.converts_converted, wrap_tdiv_eq_least htrap]
  constructor
  · rintro ⟨pre, y, post, hds, hpre, hy⟩
    cases pre with
    | nil =>
        obtain ⟨rfl, rfl⟩ : z = y ∧ ds = post := by simpa using hds
        rw [hz, Option.some.injEq, Option.some.injEq] at hy
        rcases hy with ⟨-, rfl⟩ | ⟨hv, -, rfl⟩
        · exact absurd rfl hi
        · exact absurd (.inr ⟨hv, rfl⟩) htrap
    | cons w pre =>
        obtain ⟨rfl, rfl⟩ : z = w ∧ ds = pre ++ y :: post := by simpa using hds
        refine ⟨pre, y, post, rfl, fun w hw => hpre w (List.mem_cons_of_mem _ hw), ?_⟩
        rcases hy with ⟨hconv, hzero⟩ | ⟨hv, hone, hy⟩
        · refine .inl ⟨⟨hconv, ?_⟩, hzero⟩
          rintro rfl
          rw [hz, Option.some.injEq] at hzero
          exact hi (congrArg I64.val hzero)
        · have hi1 := hone z List.mem_cons_self
          rw [hz, Option.some.injEq] at hi1
          exact .inr ⟨⟨hv, hi1⟩, fun w hw => hone w (List.mem_cons_of_mem _ hw), hy⟩
  · rintro ⟨pre, y, post, rfl, hpre, hy⟩
    refine ⟨z :: pre, y, post, rfl, ?_, ?_⟩
    · exact List.forall_mem_cons.mpr ⟨⟨i, hz, hi⟩, hpre⟩
    · rcases hy with ⟨⟨hconv, -⟩, hzero⟩ | ⟨⟨hv, rfl⟩, hone, hy⟩
      · exact .inl ⟨hconv, hzero⟩
      · exact .inr ⟨hv, List.forall_mem_cons.mpr ⟨hz, hone⟩, hy⟩

/-- A divisor that is no integer, or that is 0 already, does not trap, nor does anything
behind it. -/
theorem not_trapAt_cons {v : I64} {z : Nat} {ds : List Nat}
    (hz : ∀ i, (m.cell z).toInt? = some i → i.val = 0)
    (hconv : ¬ ((m.cell z).converts ∧ (m.cell z).toInt? = some (.wrap 0))) :
    ¬ TrapAt m (fun _ => True) v (z :: ds) := by
  rintro ⟨pre, y, post, hds, hpre, hy⟩
  cases pre with
  | nil =>
      obtain ⟨rfl, rfl⟩ : z = y ∧ ds = post := by simpa using hds
      rcases hy with ⟨hzero, -⟩ | ⟨-, -, hone⟩
      · exact hconv hzero
      · exact absurd (hz _ hone) (by decide)
  | cons w pre =>
      obtain ⟨rfl, rfl⟩ : z = w ∧ ds = pre ++ y :: post := by simpa using hds
      obtain ⟨i, hi, hne⟩ := hpre z List.mem_cons_self
      exact hne (hz i hi)

/-- **A quotient of integers traps at the divisors that `TrapAt` says.** -/
theorem opLoop_traps_iff (ds : List Nat) (m : Heap Flt) (v : I64) :
    (opLoop fl .div (floatIfZero fl) ds m (.int v)).1 = .error .trap ↔
      TrapAt m (fun _ => True) v ds := by
  induction ds generalizing m v with
  | nil => simp [opLoop, TrapAt]
  | cons z zs ih =>
      cases hz : (m.cell z).toInt? with
      | none =>
          exact iff_of_false (opLoop_cons_none hz).1 (not_trapAt_cons (by simp [hz]) (by simp [hz]))
      | some i =>
          by_cases hzero : i.val = 0
          · by_cases hconv : (m.cell z).converts
            · refine iff_of_true ?_ ⟨[], z, zs, rfl, by simp, .inl ⟨⟨hconv, ?_⟩, trivial⟩⟩
              · rw [opLoop_cons_some hz (.inr hconv), if_pos (.inl hzero)]
              · exact hz.trans (congrArg some (I64.ext hzero))
            · refine iff_of_false (opLoop_cons_zero hz hzero hconv).1 (not_trapAt_cons ?_ ?_)
              · simpa [hz] using hzero
              · exact fun h => hconv h.1
          · rw [opLoop_cons_some hz (.inl hzero)]
            by_cases htrap : I64.Traps v i
            · rw [if_pos htrap]
              obtain ⟨hv, hi⟩ := htrap.resolve_left hzero
              have hone : (m.cell z).toInt? = some (.wrap (-1)) :=
                hz.trans (congrArg some (I64.ext hi))
              exact iff_of_true rfl ⟨[], z, zs, rfl, by simp, .inr ⟨hv, by simp, hone⟩⟩
            · rw [if_neg htrap, ih, trapAt_cons hz hzero htrap]

/-- A quotient with a zero divisor is a float or an error, if it does not trap. -/
theorem opLoop_zero (ds : List Nat) (m : Heap Flt) (v : I64)
    (hzero : ∃ z ∈ ds, (m.cell z).toInt? = some (.wrap 0))
    (hsafe : (opLoop fl .div (floatIfZero fl) ds m (.int v)).1 ≠ .error .trap) :
    FloatOrError (opLoop fl .div (floatIfZero fl) ds m (.int v)).1 := by
  induction ds generalizing m v with
  | nil => simp at hzero
  | cons z zs ih =>
      cases hz : (m.cell z).toInt? with
      | none => exact opLoop_cons_none hz
      | some i =>
          by_cases hkeep : i.val ≠ 0 ∨ (m.cell z).converts
          · rw [opLoop_cons_some hz hkeep] at hsafe ⊢
            by_cases htrap : I64.Traps v i
            · simp [htrap] at hsafe
            · rw [if_neg htrap] at hsafe ⊢
              refine ih _ _ ?_ hsafe
              obtain ⟨y, hy, hyzero⟩ := hzero
              rcases List.mem_cons.mp hy with rfl | hmem
              · rw [hz, Option.some.injEq] at hyzero
                exact absurd (.inl (congrArg I64.val hyzero)) htrap
              · exact ⟨y, hmem, (Heap.toInt?_converted hz y).trans hyzero⟩
          · push Not at hkeep
            exact opLoop_cons_zero hz hkeep.1 (by simpa using hkeep.2)

/-- A remainder is never the least number. -/
theorem wrap_tmod_ne_least {v i : I64} (hi : i.val ≠ 0) :
    I64.wrap (v.val.tmod i.val) ≠ .least := by
  intro hleast
  have hlt : (v.val.tmod i.val).natAbs < i.val.natAbs := by
    rw [Int.natAbs_tmod]
    exact Nat.mod_lt _ (Int.natAbs_pos.mpr hi)
  have hle : i.val.natAbs ≤ 2 ^ 63 := i.natAbs_le
  have hval := I64.val_wrap (i := v.val.tmod i.val) (by omega)
  rw [hleast] at hval
  change (-2 ^ 63 : Int) = _ at hval
  omega

/-- A number other than the least one leaves remainders or errors. -/
theorem remLoop_safe (xs : List Nat) (m : Heap Flt) {v : I64} (hv : v ≠ .least) :
    (remLoop xs m v).1 ≠ .error .trap := by
  induction xs generalizing m v with
  | nil => simp [remLoop]
  | cons x xs ih =>
      unfold remLoop
      cases senObj2int m x with
      | none => simp
      | some r =>
          by_cases hzero : r.1.val = 0
          · simp [hzero]
          · have hsafe : ¬ I64.Traps v r.1 := by simp [I64.Traps, hzero, hv]
            simpa [hzero, hsafe] using ih r.2 (wrap_tmod_ne_least hzero)

/-- **A remainder traps when the least number is divided by -1, which comes first.** -/
theorem remLoop_traps_iff (xs : List Nat) (m : Heap Flt) (v : I64) :
    (remLoop xs m v).1 = .error .trap ↔
      v = .least ∧ ∃ y ys, xs = y :: ys ∧ (m.cell y).toInt? = some (.wrap (-1)) := by
  cases xs with
  | nil => simp [remLoop]
  | cons y ys =>
      unfold remLoop
      cases hy : (m.cell y).toInt? with
      | none => simp [senObj2int_of_none hy, hy]
      | some i =>
          rw [senObj2int_of_toInt? hy]
          by_cases hzero : i.val = 0
          · have hne : i ≠ .wrap (-1) := by
              rintro rfl
              exact absurd hzero (by decide)
            simp [hzero, hy, hne]
          · by_cases htrap : I64.Traps v i
            · obtain ⟨hv, hi⟩ := htrap.resolve_left hzero
              have hone : i = .wrap (-1) := I64.ext hi
              have hminus : (m.cell y).toInt? = some (.wrap (-1)) := hy.trans (congrArg some hone)
              refine iff_of_true (by simp [hzero, htrap]) ⟨hv, y, ys, rfl, hminus⟩
            · have hrest := remLoop_safe ys (m.converted y i) (v := .wrap (v.val.tmod i.val))
                (wrap_tmod_ne_least hzero)
              have hno : ¬ (v = .least ∧ i = .wrap (-1)) := fun ⟨hv, hi⟩ =>
                htrap (.inr ⟨hv, congrArg I64.val hi⟩)
              simpa [hzero, htrap, hy, hrest] using hno

/-- A remainder with a zero divisor is an error. -/
theorem remLoop_zero (xs : List Nat) (m : Heap Flt) (v : I64)
    (hzero : ∃ z ∈ xs, (m.cell z).toInt? = some (.wrap 0)) :
    ∃ e, (remLoop xs m v).1 = .error e := by
  induction xs generalizing m v with
  | nil => simp at hzero
  | cons x xs ih =>
      unfold remLoop
      cases hx : (m.cell x).toInt? with
      | none => simp [senObj2int_of_none hx]
      | some i =>
          rw [senObj2int_of_toInt? hx]
          by_cases hi : i.val = 0
          · simp [hi]
          · by_cases htrap : I64.Traps v i
            · simp [hi, htrap]
            · obtain ⟨z, hz, hzzero⟩ := hzero
              rcases List.mem_cons.mp hz with rfl | hmem
              · rw [hx, Option.some.injEq] at hzzero
                exact absurd (congrArg I64.val hzzero) hi
              · simpa [hi, htrap] using
                  ih _ _ ⟨z, hmem, (Heap.toInt?_converted hx z).trans hzzero⟩

variable (fl) in
/-- Operators other than `/` do not trap. -/
theorem doOp_safe {op : ArithOp} (hop : op ≠ .div) (m : Heap Flt) (v : Num Flt) (y : Nat) :
    (doOp fl op m v y).1 ≠ .error .trap := by
  have honInt (a b : I64) : ∃ c, op.onInt a b = .ok c := by
    cases op <;> first | exact ⟨_, rfl⟩ | exact absurd rfl hop
  cases hy : (m.cell y).toInt? with
  | none => rcases doOp_other fl op v hy with ⟨d, h⟩ | ⟨msg, h⟩ <;> simp [h]
  | some b =>
      cases v with
      | int a =>
          obtain ⟨c, hc⟩ := honInt a b
          simp [doOp_int op a hy, hc, Except.map]
      | float d => simp [doOp_float op d hy]

variable (fl) in
theorem opLoop_safe {op : ArithOp} (hop : op ≠ .div) (xs : List Nat) (m : Heap Flt)
    (v : Num Flt) : (opLoop fl op keepNum xs m v).1 ≠ .error .trap := by
  induction xs generalizing m v with
  | nil => simp [opLoop]
  | cons x xs ih =>
      have hstep := doOp_safe fl hop m v x
      simp only [opLoop, keepNum]
      generalize doOp fl op m v x = r at hstep ⊢
      rcases r with ⟨e | w, m'⟩
      · exact hstep
      · exact ih m' w

theorem timeOp_safe (op : ArithOp) (x : Int × Int) (y : Nat) :
    timeOp fl op m x y ≠ .error .trap := by
  unfold timeOp
  split
  · simp
  · dsimp only
    split_ifs <;> simp
  · split <;> simp
  · simp

/-- A returned object traps only if its computation did. -/
theorem returnNew_trap (r : Except Fault (Obj Flt)) :
    (returnNew m r).1 = .error .trap ↔ r = .error .trap := by
  cases r <;> simp [returnNew]

theorem returnNum_trap (r : Except Fault (Num Flt) × Heap Flt) :
    (returnNum r).1 = .error .trap ↔ r.1 = .error .trap := by
  rcases r with ⟨e | v, m⟩ <;> simp [returnNum, returnNew, Except.map]

theorem map_int_trap (r : Except Fault I64) :
    r.map (Num.int : I64 → Num Flt) = .error .trap ↔ r = .error .trap := by
  cases r <;> simp [Except.map]

theorem nfAdd_safe (args : List Nat) : (nfAdd fl inspect m args).1 ≠ .error .trap := by
  cases args with
  | nil => simp [nfAdd]
  | cons x xs =>
      have hloop := opLoop_safe fl (show ArithOp.add ≠ .div by decide) (x :: xs) m (.int (.wrap 0))
      unfold nfAdd
      dsimp only
      split
      · simp [returnNew]
      · split <;> simp [returnNew_trap, timeOp_safe]
      · simpa [returnNum_trap] using hloop

theorem nfSub_safe (args : List Nat) : (nfSub fl m args).1 ≠ .error .trap := by
  have hloop (xs : List Nat) (m : Heap Flt) (v : Num Flt) :=
    opLoop_safe fl (show ArithOp.sub ≠ .div by decide) xs m v
  unfold nfSub
  split
  next x y ys =>
    have hfirst := doOp_safe fl (show ArithOp.add ≠ .div by decide) m (.int (.wrap 0)) x
    generalize doOp fl .add m (.int (.wrap 0)) x = r at hfirst
    rcases r with ⟨e | w, m'⟩ <;>
      cases m.cell x <;> simp_all [returnNum_trap, returnNew_trap, timeOp_safe]
  next => simpa [returnNum_trap] using hloop _ _ _

theorem nfMul_safe (args : List Nat) : (nfMul fl inspect m args).1 ≠ .error .trap := by
  have hloop := opLoop_safe fl (show ArithOp.mul ≠ .div by decide) args m (.int (.wrap 1))
  unfold nfMul
  dsimp only
  split
  · split <;> simp_all [returnNum_trap, returnNew]
  · simpa [returnNum_trap] using hloop

/-- The arguments that a function divides by. -/
def ArithFn.divisors : ArithFn → List Nat → List Nat
  | div, _ :: y :: ys => y :: ys
  | div, xs => xs
  | rem, xs => xs.tail
  | _, _ => []

/-- A call of a function does not trap, and with a divisor that stands for 0 it ends in a float or
in an error. -/
def ArithFn.Safe (fl : FloatOps Flt) (inspect : Heap Flt → Nat → List UInt8) (f : ArithFn)
    (m : Heap Flt) (args : List Nat) : Prop :=
  (f.run fl inspect m args).1 ≠ .error .trap ∧
    ((∃ z ∈ f.divisors args, (m.cell z).toInt? = some (.wrap 0)) →
      ∀ v, (f.run fl inspect m args).1 = .ok v → ∃ d, (f.run fl inspect m args).2.cell v = .float d)

/-- The argument lists that make the processor trap. -/
def ArithFn.Traps (m : Heap Flt) : ArithFn → List Nat → Prop
  | div, x :: y :: ys => ∃ v, (m.cell x).toInt? = some v ∧ TrapAt m (· ≠ x) v (y :: ys)
  | div, xs => TrapAt m (fun _ => True) (.wrap 1) xs
  | rem, x :: y :: _ =>
      (m.cell x).toInt? = some .least ∧ (m.cell y).toInt? = some (.wrap (-1))
  | _, _ => False

/-- What the conversion of the first argument leaves of the divisors that trap. -/
theorem trapAt_converted {x : Nat} {v i : I64} {ds : List Nat} (hx : (m.cell x).toInt? = some i) :
    TrapAt (m.converted x i) (fun _ => True) v ds ↔ TrapAt m (· ≠ x) v ds := by
  unfold TrapAt
  simp only [Heap.toInt?_converted hx, Heap.converts_converted, and_true]
  refine exists_congr fun pre => exists_congr fun z => exists_congr fun post => ?_
  tauto

/-- A number that a loop returned, in the cell made for it. -/
theorem returnNum_float {r : Except Fault (Num Flt) × Heap Flt} (hr : FloatOrError r.1) {v : Nat}
    (hv : (returnNum r).1 = .ok v) : ∃ d, (returnNum r).2.cell v = .float d := by
  rcases r with ⟨e | w, m⟩
  · simp [returnNum, returnNew, Except.map] at hv
  · obtain ⟨d, rfl⟩ := hr.2 w rfl
    obtain rfl : m.next = v := by simpa [returnNum, returnNew, Except.map, Heap.alloc] using hv
    exact ⟨d, by simp [returnNum, returnNew, Except.map, Heap.alloc, Num.obj]⟩

/-- The first argument of a quotient, converted. -/
theorem doOp_first {x : Nat} {v : I64} (hx : (m.cell x).toInt? = some v) :
    doOp fl .add m (.int (.wrap 0)) x = (.ok (.int v), m.converted x v) := by
  have hval : I64.wrap ((I64.wrap 0).val + v.val) = v := by
    rw [show (I64.wrap 0).val + v.val = v.val from Int.zero_add _, I64.wrap_val]
  rw [doOp_int .add _ hx, ArithOp.onInt, hval]
  rfl

/-- `nf_div` traps at the divisors that `Traps` describes. -/
theorem nfDiv_trap_iff (args : List Nat) :
    (nfDiv fl m args).1 = .error .trap ↔ ArithFn.Traps m .div args := by
  match args with
  | [] => exact (returnNum_trap _).trans (opLoop_traps_iff _ _ _)
  | [x] => exact (returnNum_trap _).trans (opLoop_traps_iff _ _ _)
  | x :: y :: ys =>
      simp only [nfDiv, ArithFn.Traps]
      cases hx : (m.cell x).toInt? with
      | some v =>
          simp only [doOp_first hx, returnNum_trap, opLoop_traps_iff, trapAt_converted hx,
            Option.some.injEq, exists_eq_left']
      | none =>
          refine iff_of_false ?_ (by simp)
          rcases doOp_other fl .add (.int (.wrap 0)) hx with ⟨d, h⟩ | ⟨msg, h⟩
          · simpa only [h, returnNum_trap] using (opLoop_float .div (y :: ys) m d).1
          · simp [h]

/-- A zero divisor of `nf_div` leads to a float, to an error or to a trap. -/
theorem nfDiv_zero (args : List Nat) (hsafe : (nfDiv fl m args).1 ≠ .error .trap)
    (hzero : ∃ z ∈ ArithFn.divisors .div args, (m.cell z).toInt? = some (.wrap 0)) {q : Nat}
    (hq : (nfDiv fl m args).1 = .ok q) : ∃ d, (nfDiv fl m args).2.cell q = .float d := by
  have hloop (m : Heap Flt) (v : I64) (ds : List Nat)
      (hzero : ∃ z ∈ ds, (m.cell z).toInt? = some (.wrap 0))
      (hsafe : (returnNum (opLoop fl .div (floatIfZero fl) ds m (.int v))).1 ≠ .error .trap) :
      FloatOrError (opLoop fl .div (floatIfZero fl) ds m (.int v)).1 :=
    opLoop_zero ds m v hzero fun h => hsafe ((returnNum_trap _).mpr h)
  match args with
  | [] => simp [ArithFn.divisors] at hzero
  | [x] => exact returnNum_float (hloop _ _ _ hzero hsafe) hq
  | x :: y :: ys =>
      simp only [nfDiv] at hsafe hq ⊢
      cases hx : (m.cell x).toInt? with
      | some v =>
          simp only [doOp_first hx] at hsafe hq ⊢
          refine returnNum_float (hloop _ _ _ ?_ hsafe) hq
          simpa only [Heap.toInt?_converted hx, ArithFn.divisors] using hzero
      | none =>
          rcases doOp_other fl .add (.int (.wrap 0)) hx with ⟨d, h⟩ | ⟨msg, h⟩
          · simp only [h] at hq ⊢
            exact returnNum_float (opLoop_float .div (y :: ys) m d) hq
          · simp [h] at hq

/-- `nf_rem` traps at the arguments that `Traps` describes. -/
theorem nfRem_trap_iff (args : List Nat) :
    (nfRem m args).1 = .error .trap ↔ ArithFn.Traps m .rem args := by
  cases args with
  | nil => simp [nfRem, ArithFn.Traps]
  | cons x xs =>
      simp only [nfRem]
      cases hx : (m.cell x).toInt? with
      | none =>
          rw [senObj2int_of_none hx]
          cases xs <;> simp [ArithFn.Traps, hx]
      | some v =>
          have hloop := remLoop_traps_iff xs (m.converted x v) v
          simp only [Heap.toInt?_converted hx] at hloop
          rw [senObj2int_of_toInt? hx]
          simp only [returnNum_trap, map_int_trap, hloop]
          cases xs <;> simp [ArithFn.Traps, hx]

/-- A zero divisor of `nf_rem` is an error. -/
theorem nfRem_zero (args : List Nat)
    (hzero : ∃ z ∈ ArithFn.divisors .rem args, (m.cell z).toInt? = some (.wrap 0)) :
    ∃ e, (nfRem m args).1 = .error e := by
  cases args with
  | nil => simp [ArithFn.divisors] at hzero
  | cons x xs =>
      simp only [nfRem]
      cases hx : (m.cell x).toInt? with
      | none => simp [senObj2int_of_none hx]
      | some v =>
          simp only [← Heap.toInt?_converted hx] at hzero
          obtain ⟨e, he⟩ := remLoop_zero xs (m.converted x v) v hzero
          simp [senObj2int_of_toInt? hx, he, Except.map, returnNum, returnNew]

variable (fl inspect) in
/-- **A function traps for the argument lists that `Traps` describes.** -/
theorem ArithFn.run_trap_iff (f : ArithFn) (m : Heap Flt) (args : List Nat) :
    (f.run fl inspect m args).1 = .error .trap ↔ f.Traps m args := by
  cases f with
  | add => exact iff_of_false (nfAdd_safe args) id
  | sub => exact iff_of_false (nfSub_safe args) id
  | mul => exact iff_of_false (nfMul_safe args) id
  | div => exact nfDiv_trap_iff args
  | rem => exact nfRem_trap_iff args

/-- **Arithmetic is safe for the argument lists that `Traps` does not describe, and for no
others.** -/
theorem arithmetic_safe_iff (fl : FloatOps Flt) (inspect : Heap Flt → Nat → List UInt8)
    (f : ArithFn) (m : Heap Flt) (args : List Nat) :
    f.Safe fl inspect m args ↔ ¬ f.Traps m args := by
  rw [← f.run_trap_iff fl inspect m args]
  refine and_iff_left_of_imp fun hsafe hzero q hq => ?_
  cases f with
  | add | sub | mul => simp [ArithFn.divisors] at hzero
  | div => exact nfDiv_zero args hsafe hzero hq
  | rem =>
      obtain ⟨e, he⟩ := nfRem_zero args hzero
      exact absurd (hq.symm.trans he) (by simp)

/-- `(/ 1 "0")` traps, and so does `(remainder -9223372036854775808 -1)`. -/
theorem arithmetic_safe_fails :
    ¬ ArithFn.Safe .unit (fun _ _ => []) .div
        (.ofObjs [.int (.wrap 1), .bulk [48]]) [3, 4] ∧
      ¬ ArithFn.Safe .unit (fun _ _ => []) .rem
        (.ofObjs [.int .least, .int (.wrap (-1))]) [3, 4] :=
  ⟨fun h => h.1 rfl, fun h => h.1 rfl⟩

end Senna.Scm
