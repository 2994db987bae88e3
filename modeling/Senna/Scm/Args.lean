/-
# What functions do to their arguments

A string among the arguments of an arithmetic function or of a comparison is made
a number in place, and whoever else holds the string finds a number from then on. `cons` changes the
first cell of its argument list. When `apply` calls it, that is a cell of the list that `apply`
was given. Everything else is kept.
-/

import Senna.Scm.Traps
import Senna.Scm.Compare
import Senna.Scm.Lists

namespace Senna.Scm

universe u v

variable {Flt : Type u} {fl : FloatOps Flt} {raw : Obj Flt → List UInt8}
variable {inspect : Heap Flt → Nat → List UInt8} {m : Heap Flt}

/-- The functions `+`, `-`, `*`, `/` and `remainder`, the comparisons, and those of lists. -/
inductive Fn
  | arith (f : ArithFn)
  | compare (rel : Rel)
  | cons
  | list
  | append
  | reverse
  | length
  deriving DecidableEq, Repr

/-- What a function does with the argument list `args` of the objects `xs`. -/
def Fn.run (fl : FloatOps Flt) (raw : Obj Flt → List UInt8)
    (inspect : Heap Flt → Nat → List UInt8) (fuel : Nat) (m : Heap Flt) (args : Nat)
    (xs : List Nat) : Fn → Option (Except Fault Nat × Heap Flt)
  | arith f => some (f.run fl inspect m xs)
  | compare rel => some (rel.run fl raw m xs)
  | cons => some (nfCons m args)
  | list => some (nfList m args)
  | append => nfAppend fuel m args
  | reverse => nfReverse fuel m args
  | length => nfLength fuel m args

/-- `NUMBERP` -/
def Obj.IsNumber (o : Obj Flt) : Prop := (∃ i, o = .int i) ∨ ∃ d, o = .float d

/-- Behind objects that all have a property comes a string that stands for a number. -/
def FirstConverts (P : Obj Flt → Prop) (m : Heap Flt) (xs : List Nat) : Prop :=
  ∃ pre x post, xs = pre ++ x :: post ∧ (∀ w ∈ pre, P (m.cell w)) ∧ (m.cell x).converts

/-- The first object converts, or it has the property and another one converts first. -/
theorem firstConverts_cons {P : Obj Flt → Prop} (x : Nat) (xs : List Nat) :
    FirstConverts P m (x :: xs) ↔
      (m.cell x).converts ∨ P (m.cell x) ∧ FirstConverts P m xs := by
  constructor
  · rintro ⟨pre, y, post, hxs, hpre, hy⟩
    cases pre with
    | nil =>
        obtain ⟨rfl, rfl⟩ : x = y ∧ xs = post := by simpa using hxs
        exact .inl hy
    | cons w pre =>
        obtain ⟨rfl, rfl⟩ : x = w ∧ xs = pre ++ y :: post := by simpa using hxs
        obtain ⟨hw, hpre⟩ := List.forall_mem_cons.mp hpre
        exact .inr ⟨hw, pre, y, post, rfl, hpre, hy⟩
  · rintro (hx | ⟨hx, pre, y, post, rfl, hpre, hy⟩)
    · exact ⟨[], x, xs, rfl, by simp, hx⟩
    · exact ⟨x :: pre, y, post, rfl, List.forall_mem_cons.mpr ⟨hx, hpre⟩, hy⟩

theorem not_firstConverts_nil {P : Obj Flt → Prop} : ¬ FirstConverts P m [] := by
  rintro ⟨pre, x, post, hxs, -⟩
  simp at hxs

/-- Nothing but strings that stand for numbers has changed, and no cell is new. -/
def Heap.Steady (m m' : Heap Flt) : Prop :=
  m'.next = m.next ∧ ∀ x, ¬ (m.cell x).converts → m'.cell x = m.cell x

theorem Heap.Steady.rfl : m.Steady m := ⟨Eq.refl _, fun _ _ => .refl _⟩

theorem Heap.Steady.trans {m' m'' : Heap Flt} (h : m.Steady m') (h' : m'.Steady m'') :
    m.Steady m'' := by
  refine ⟨h'.1.trans h.1, fun x hx => ?_⟩
  have hsame := h.2 x hx
  rw [h'.2 x (by rwa [hsame]), hsame]

theorem Heap.steady_converted (x : Nat) (i : I64) : m.Steady (m.converted x i) := by
  unfold converted
  split_ifs with hx
  · exact ⟨.refl _, fun y hy => cell_set_of_ne _ fun h => hy (h ▸ hx)⟩
  · exact .rfl

/-- A string that has become a number is changed, and stays so. -/
theorem Heap.Steady.ne_of_converts {m' : Heap Flt} {x : Nat} {i : I64}
    (hconv : (m.cell x).converts) (h : (m.converted x i).Steady m') :
    m'.cell x ≠ m.cell x := by
  have hcell : (m.converted x i).cell x = .int i := by simp [converted, hconv]
  rw [h.2 x (by simp [hcell, Obj.converts]), hcell]
  intro hint
  simp [← hint, Obj.converts] at hconv

theorem toInt?_of_converts {o : Obj Flt} (h : o.converts) : ∃ i, o.toInt? = some i := by
  cases o with
  | bulk value => exact Option.isSome_iff_exists.mp h
  | _ => simp [Obj.converts] at h

/-- An object that is no number and does not convert stands for none. -/
theorem toInt?_of_other {o : Obj Flt} (hnum : ¬ o.IsNumber) (hconv : ¬ o.converts) :
    o.toInt? = none := by
  cases o with
  | int i => exact absurd (.inl ⟨i, rfl⟩) hnum
  | bulk value => simpa [Obj.converts] using hconv
  | _ => rfl

variable (fl) in
/-- `do_op` converts the object if it is a string that stands for a number. -/
theorem doOp_converts (op : ArithOp) (v : Num Flt) {y : Nat} (hy : (m.cell y).converts) :
    ∃ i, (doOp fl op m v y).2 = m.converted y i := by
  obtain ⟨i, hi⟩ := toInt?_of_converts hy
  cases v with
  | int a => exact ⟨i, by rw [doOp_int op a hi]⟩
  | float d => exact ⟨i, by rw [doOp_float op d hi]⟩

variable (fl) in
/-- Otherwise it changes nothing. -/
theorem doOp_heap (op : ArithOp) (v : Num Flt) {y : Nat} (hy : ¬ (m.cell y).converts) :
    (doOp fl op m v y).2 = m := by
  cases hval : (m.cell y).toInt? with
  | none => rcases doOp_other fl op v hval with ⟨d, h⟩ | ⟨msg, h⟩ <;> rw [h]
  | some i =>
      have hsame : m.converted y i = m := if_neg hy
      cases v with
      | int a => rw [doOp_int op a hval, hsame]
      | float d => rw [doOp_float op d hval, hsame]

variable (fl) in
theorem doOp_steady (op : ArithOp) (v : Num Flt) (y : Nat) : m.Steady (doOp fl op m v y).2 := by
  by_cases hy : (m.cell y).converts
  · obtain ⟨i, hi⟩ := doOp_converts fl op v hy
    rw [hi]
    exact Heap.steady_converted y i
  · rw [doOp_heap fl op v hy]
    exact .rfl

variable (fl) in
/-- What is no number and does not become one is an error. -/
theorem doOp_error (op : ArithOp) (v : Num Flt) {y : Nat} (hnum : ¬ (m.cell y).IsNumber)
    (hconv : ¬ (m.cell y).converts) : ∃ e, (doOp fl op m v y).1 = .error e := by
  have hval := senObj2int_of_none (toInt?_of_other hnum hconv)
  unfold Obj.IsNumber at hnum
  unfold doOp
  cases v <;> cases hcell : m.cell y <;> simp_all

variable (fl) in
/-- A number makes no error. -/
theorem doOp_number (op : ArithOp) (v : Num Flt) {y : Nat} (hy : (m.cell y).IsNumber) :
    (∃ w, doOp fl op m v y = (.ok w, m)) ∨ (doOp fl op m v y).1 = .error .trap := by
  have honInt (a b : I64) : (∃ c, op.onInt a b = .ok c) ∨ op.onInt a b = .error .trap := by
    cases op with
    | div =>
        unfold ArithOp.onInt
        split_ifs <;> simp
    | _ => exact .inl ⟨_, rfl⟩
  rcases hy with ⟨i, hi⟩ | ⟨d, hd⟩
  · cases v with
    | int a => rcases honInt a i with ⟨c, hc⟩ | hc <;> simp [doOp, hi, hc, Except.map]
    | float e => simp [doOp, hi]
  · cases v <;> simp [doOp, hd]

/-- A loop over `xs` leaves the heap as it is, or it changes one of these objects. -/
structure LoopEffect {α : Type v} (m : Heap Flt) (xs : List Nat) (harms : Prop)
    (r : Except Fault α × Heap Flt) : Prop where
  steady : m.Steady r.2
  keeps : ¬ harms → r.2 = m
  changes : harms → r.1 ≠ .error .trap → ∃ x ∈ xs, r.2.cell x ≠ m.cell x

theorem loopEffect_nil {α : Type v} (v : α) {harms : Prop} (hno : ¬ harms) :
    LoopEffect m [] harms (.ok v, m) :=
  ⟨.rfl, fun _ => rfl, fun h => absurd h hno⟩

variable (fl m) in
/-- One operator, and what is done with the other objects if it makes no error. -/
theorem loopEffect_doOp (op : ArithOp) (v : Num Flt) (x : Nat) (xs : List Nat)
    (rest : Heap Flt → Num Flt → Except Fault (Num Flt) × Heap Flt)
    (hrest : ∀ m v, LoopEffect m xs (FirstConverts Obj.IsNumber m xs) (rest m v)) :
    LoopEffect m (x :: xs) (FirstConverts Obj.IsNumber m (x :: xs))
      (match doOp fl op m v x with
        | (.ok v, m) => rest m v
        | failed => failed) := by
  have hsteady := doOp_steady fl (m := m) op v x
  have hheap := doOp_heap fl (m := m) (y := x) op v
  have hnumber := doOp_number fl (m := m) (y := x) op v
  have herror := doOp_error fl (m := m) (y := x) op v
  have hconverts := doOp_converts fl (m := m) (y := x) op v
  rw [firstConverts_cons]
  generalize doOp fl op m v x = r at *
  constructor
  case steady =>
    rcases r with ⟨e | w, m'⟩
    · exact hsteady
    · exact hsteady.trans (hrest m' w).steady
  case keeps =>
    intro hkeep
    push Not at hkeep
    have hconv : ¬ (m.cell x).converts := by simpa using hkeep.1
    rcases r with ⟨e | w, m'⟩
    · exact hheap hconv
    · obtain rfl : m' = m := hheap hconv
      by_cases hnum : (m'.cell x).IsNumber
      · exact (hrest m' w).keeps (hkeep.2 hnum)
      · obtain ⟨e, he⟩ := herror hnum hconv
        simp at he
  case changes =>
    rintro (hconv | ⟨hnum, hlater⟩) hsafe
    · obtain ⟨i, hi⟩ := hconverts hconv
      refine ⟨x, List.mem_cons_self, Heap.Steady.ne_of_converts (i := i) hconv ?_⟩
      rcases r with ⟨e | w, m'⟩
      · rw [← hi]
        exact .rfl
      · rw [← hi]
        exact (hrest m' w).steady
    · rcases hnumber hnum with ⟨w, rfl⟩ | htrap
      · obtain ⟨y, hy, hne⟩ := (hrest m w).changes hlater hsafe
        exact ⟨y, List.mem_cons_of_mem _ hy, hne⟩
      · rcases r with ⟨e | w, m'⟩
        · exact absurd htrap hsafe
        · simp at htrap

variable (fl) in
/-- **A loop that does not trap changes its arguments if the first of them that is no
number converts, and only then.** -/
theorem opLoop_effect (op : ArithOp) (prepare : Heap Flt → Num Flt → Nat → Num Flt)
    (xs : List Nat) (m : Heap Flt) (v : Num Flt) :
    LoopEffect m xs (FirstConverts Obj.IsNumber m xs) (opLoop fl op prepare xs m v) := by
  induction xs generalizing m v with
  | nil => exact loopEffect_nil v not_firstConverts_nil
  | cons x xs ih => exact loopEffect_doOp fl m op _ x xs (opLoop fl op prepare xs) ih

/-- An integer other than 0, which `nf_rem` divides by. -/
def Obj.IsDivisor (o : Obj Flt) : Prop := ∃ i, o = .int i ∧ i.val ≠ 0

/-- What does not convert is a number of the machine, or it is an error. -/
theorem senObj2int_of_not_converts {x : Nat} (hx : ¬ (m.cell x).converts) :
    (∃ i, m.cell x = .int i ∧ senObj2int m x = some (i, m)) ∨ senObj2int m x = none := by
  unfold senObj2int
  cases hcell : m.cell x with
  | int i => simp
  | bulk value =>
      rw [hcell] at hx
      simp_all [Obj.converts, Obj.toInt?]
  | _ => simp

theorem senObj2int_of_converts {x : Nat} (hx : (m.cell x).converts) :
    ∃ i, senObj2int m x = some (i, m.converted x i) := by
  obtain ⟨i, hi⟩ := toInt?_of_converts hx
  exact ⟨i, senObj2int_of_toInt? hi⟩

/-- **The loop of `nf_rem` changes a divisor that converts.** -/
theorem remLoop_effect (xs : List Nat) (m : Heap Flt) (v : I64) :
    LoopEffect m xs (FirstConverts Obj.IsDivisor m xs) (remLoop xs m v) := by
  induction xs generalizing m v with
  | nil => exact loopEffect_nil v not_firstConverts_nil
  | cons x xs ih =>
      rw [firstConverts_cons]
      by_cases hconv : (m.cell x).converts
      · obtain ⟨i, hi⟩ := senObj2int_of_converts hconv
        have hstep : (m.converted x i).Steady (remLoop (x :: xs) m v).2 := by
          simp only [remLoop, hi]
          split_ifs
          · exact .rfl
          · exact (ih _ _).steady
          · exact .rfl
        exact {
          steady := (Heap.steady_converted x i).trans hstep
          keeps := fun h => absurd (.inl hconv) h
          changes := fun _ _ => ⟨x, List.mem_cons_self, Heap.Steady.ne_of_converts hconv hstep⟩ }
      · rcases senObj2int_of_not_converts hconv with ⟨i, hcell, hi⟩ | hnone
        · by_cases hzero : i.val = 0
          · have hno : ¬ Obj.IsDivisor (m.cell x) := by
              rintro ⟨j, hj, hne⟩
              rw [hcell, Obj.int.injEq] at hj
              exact hne (hj ▸ hzero)
            simp only [remLoop, hi, hzero, ne_eq, not_true_eq_false, if_false, hconv, hno]
            exact ⟨.rfl, fun _ => rfl, by simp⟩
          · have hdiv : Obj.IsDivisor (m.cell x) := ⟨i, hcell, hzero⟩
            simp only [remLoop, hi, ne_eq, hzero, not_false_eq_true, if_true, hconv, hdiv]
            split_ifs
            · exact ⟨.rfl, fun _ => rfl, fun _ h => absurd rfl h⟩
            · obtain ⟨hsteady, hkeeps, hchanges⟩ := ih m (.wrap (v.val.tmod i.val))
              refine ⟨hsteady, by simpa using hkeeps, fun h hsafe => ?_⟩
              obtain ⟨y, hy, hne⟩ := hchanges (by simpa using h) hsafe
              exact ⟨y, List.mem_cons_of_mem _ hy, hne⟩
        · have hno : ¬ Obj.IsDivisor (m.cell x) := by
            rintro ⟨j, hj, -⟩
            simp [senObj2int, hj] at hnone
          simp only [remLoop, hnone, hconv, hno]
          exact ⟨.rfl, fun _ => rfl, by simp⟩

/-- What `do_compare` finds of two objects without a conversion. -/
def Obj.InOrder (fl : FloatOps Flt) (raw : Obj Flt → List UInt8) (rel : Rel) :
    Obj Flt → Obj Flt → Prop
  | .int i, .int j => rel.On i.val j.val
  | .int i, .float e => fl.relation rel (fl.ofInt i.val) e
  | .float d, .int j => fl.relation rel d (fl.ofInt j.val)
  | .float d, .float e => fl.relation rel d e
  | .bulk a, .bulk b => rel.On (bulkCompare a b) 0
  | .time sec usec, .time sec' usec' =>
      rel.On (memcmp 8 (timeBytes sec usec) (timeBytes sec' usec')) 0
  | .int _, _ | .float _, _ | .bulk _, _ | .time _ _, _ => False
  | o, p => rel.On (memcmp 8 (o.tvBytes raw) (p.tvBytes raw)) 0

variable (fl raw) in
/-- `do_compare` converts a string after a number. -/
theorem doCompare_converts (rel : Rel) {x y : Nat} (hx : (m.cell x).IsNumber)
    (hy : (m.cell y).converts) : ∃ r i, doCompare fl raw rel m x y = (r, m.converted y i) := by
  obtain ⟨i, hi⟩ := senObj2int_of_converts hy
  unfold doCompare
  rcases hx with ⟨a, ha⟩ | ⟨d, hd⟩ <;> cases hcell : m.cell y <;>
    simp_all [Obj.converts]

variable (fl raw) in
/-- Otherwise it changes nothing, and is true of objects in order. -/
theorem doCompare_heap (rel : Rel) {x y : Nat}
    (h : ¬ ((m.cell x).IsNumber ∧ (m.cell y).converts)) :
    (doCompare fl raw rel m x y).2 = m ∧
      ((doCompare fl raw rel m x y).1 = .ok true ↔ (m.cell x).InOrder fl raw rel (m.cell y)) := by
  have hnone : (m.cell x).IsNumber → (∀ j, m.cell y ≠ .int j) → senObj2int m y = none := by
    intro hx hint
    have hy : ¬ (m.cell y).converts := fun hy => h ⟨hx, hy⟩
    exact (senObj2int_of_not_converts hy).resolve_left fun ⟨j, hj, _⟩ => hint j hj
  unfold Obj.IsNumber at hnone
  unfold doCompare Obj.InOrder
  clear h
  cases hx : m.cell x <;> cases hy : m.cell y <;> simp_all

/-- Behind objects that are in order, of which the last one is a number, comes a string that stands
for a number. -/
def ChainConverts (fl : FloatOps Flt) (raw : Obj Flt → List UInt8) (rel : Rel) (m : Heap Flt)
    (xs : List Nat) : Prop :=
  ∃ pre x y post, xs = pre ++ x :: y :: post ∧
    List.IsChain (fun v w => (m.cell v).InOrder fl raw rel (m.cell w)) (pre ++ [x]) ∧
    (m.cell x).IsNumber ∧ (m.cell y).converts

theorem chainConverts_cons (rel : Rel) (x y : Nat) (ys : List Nat) :
    ChainConverts fl raw rel m (x :: y :: ys) ↔
      (m.cell x).IsNumber ∧ (m.cell y).converts ∨
        (m.cell x).InOrder fl raw rel (m.cell y) ∧ ChainConverts fl raw rel m (y :: ys) := by
  constructor
  · rintro ⟨pre, v, w, post, hxs, hchain, hv, hw⟩
    match pre with
    | [] =>
        obtain ⟨rfl, rfl, rfl⟩ : x = v ∧ y = w ∧ ys = post := by simpa using hxs
        exact .inl ⟨hv, hw⟩
    | [a] =>
        obtain ⟨rfl, rfl, rfl⟩ : x = a ∧ y = v ∧ ys = w :: post := by simpa using hxs
        exact .inr ⟨by simpa using hchain, [], y, w, post, rfl, by simp, hv, hw⟩
    | a :: b :: pre =>
        obtain ⟨rfl, rfl, rfl⟩ : x = a ∧ y = b ∧ ys = pre ++ v :: w :: post := by simpa using hxs
        simp only [List.cons_append, List.isChain_cons_cons] at hchain
        exact .inr ⟨hchain.1, y :: pre, v, w, post, rfl, hchain.2, hv, hw⟩
  · rintro (⟨hx, hy⟩ | ⟨horder, pre, v, w, post, hys, hchain, hv, hw⟩)
    · exact ⟨[], x, y, ys, rfl, by simp, hx, hy⟩
    · refine ⟨x :: pre, v, w, post, by rw [hys, List.cons_append], ?_, hv, hw⟩
      cases pre with
      | nil =>
          obtain ⟨rfl, -⟩ : y = v ∧ ys = w :: post := by simpa using hys
          simpa using horder
      | cons b pre =>
          obtain ⟨rfl, -⟩ : y = b ∧ ys = pre ++ v :: w :: post := by simpa using hys
          exact List.isChain_cons_cons.mpr ⟨horder, hchain⟩

theorem not_chainConverts_singleton (rel : Rel) (x : Nat) :
    ¬ ChainConverts fl raw rel m [x] := by
  rintro ⟨pre, v, w, post, hxs, -⟩
  have hlen := congrArg List.length hxs
  simp at hlen
  omega

variable (fl raw) in
/-- **The loop of a comparison changes a string that converts.** -/
theorem compareLoop_effect (rel : Rel) (ys : List Nat) (m : Heap Flt) (x : Nat) :
    LoopEffect m ys (ChainConverts fl raw rel m (x :: ys)) (compareLoop fl raw rel ys m x) := by
  induction ys generalizing m x with
  | nil => exact loopEffect_nil true (not_chainConverts_singleton rel x)
  | cons y ys ih =>
      rw [chainConverts_cons]
      unfold compareLoop
      by_cases h : (m.cell x).IsNumber ∧ (m.cell y).converts
      · obtain ⟨r, i, hi⟩ := doCompare_converts fl raw rel h.1 h.2
        rw [hi]
        have hends (s : Except Fault Bool × Heap Flt) (hstep : (m.converted y i).Steady s.2) :
            LoopEffect m (y :: ys) (((m.cell x).IsNumber ∧ (m.cell y).converts) ∨
              (m.cell x).InOrder fl raw rel (m.cell y) ∧
                ChainConverts fl raw rel m (y :: ys)) s := {
          steady := (Heap.steady_converted y i).trans hstep
          keeps := fun hno => absurd (.inl h) hno
          changes := fun _ _ => ⟨y, List.mem_cons_self, Heap.Steady.ne_of_converts h.2 hstep⟩ }
        rcases r with e | _ | _
        · exact hends _ .rfl
        · exact hends _ .rfl
        · exact hends _ (ih _ _).steady
      · obtain ⟨hheap, htrue⟩ := doCompare_heap fl raw rel h
        simp only [h, false_or]
        generalize doCompare fl raw rel m x y = r at hheap htrue
        obtain ⟨r, m'⟩ := r
        obtain rfl : m' = m := hheap
        by_cases horder : (m'.cell x).InOrder fl raw rel (m'.cell y)
        · obtain rfl : r = .ok true := htrue.mpr horder
          obtain ⟨hsteady, hkeeps, hchanges⟩ := ih m' y
          refine ⟨hsteady, by simpa [horder] using hkeeps, fun hlater hsafe => ?_⟩
          obtain ⟨z, hz, hne⟩ := hchanges hlater.2 hsafe
          exact ⟨z, List.mem_cons_of_mem _ hz, hne⟩
        · have hfalse : r ≠ .ok true := fun hr => horder (htrue.mp hr)
          have hkept : LoopEffect m' (y :: ys) ((m'.cell x).InOrder fl raw rel (m'.cell y) ∧
              ChainConverts fl raw rel m' (y :: ys)) (r, m') :=
            ⟨.rfl, fun _ => rfl, fun hlater => absurd hlater.1 horder⟩
          rcases r with e | _ | _
          · exact hkept
          · exact hkept
          · exact absurd rfl hfalse

/-- When a function of arithmetic changes an argument, if it does not trap. -/
def ArithFn.Harms (m : Heap Flt) : ArithFn → List Nat → Prop
  | add, xs => (∀ x ∈ xs.head?, (m.cell x).IsNumber) ∧ FirstConverts Obj.IsNumber m xs
  | mul, xs =>
      FirstConverts Obj.IsNumber m xs ∧
        ¬ ∃ x y ys i, xs = x :: y :: ys ∧ (m.cell x).converts ∧ m.cell y = .int i
  | sub, xs | div, xs => FirstConverts Obj.IsNumber m xs
  | rem, [] => False
  | rem, x :: xs =>
      (m.cell x).converts ∨ (∃ i, m.cell x = .int i) ∧ FirstConverts Obj.IsDivisor m xs

/-- A function keeps all cells in use, or it changes one of the arguments. -/
def Effect (m : Heap Flt) (xs : List Nat) (harms : Prop) (r : Except Fault Nat × Heap Flt) : Prop :=
  (¬ harms → ∀ x < m.next, r.2.cell x = m.cell x) ∧
    (harms → r.1 ≠ .error .trap → (∀ x ∈ xs, x < m.next) → ∃ x ∈ xs, r.2.cell x ≠ m.cell x)

/-- A returned object is a new cell. -/
theorem returnNew_cell (r : Except Fault (Obj Flt)) {x : Nat} (hx : x < m.next) :
    (returnNew m r).2.cell x = m.cell x := by
  cases r with
  | error e => rfl
  | ok o => exact (Heap.kept_alloc o).2 x hx

/-- The effect of a function is that of its loop. -/
theorem LoopEffect.returnNum {xs : List Nat} {harms : Prop} {r : Except Fault (Num Flt) × Heap Flt}
    (h : LoopEffect m xs harms r) : Effect m xs harms (returnNum r) := by
  refine ⟨fun hno x hx => ?_, fun hharms hsafe hused => ?_⟩
  · rw [← h.keeps hno] at hx ⊢
    exact returnNew_cell _ hx
  · obtain ⟨x, hx, hne⟩ := h.changes hharms fun htrap => hsafe ((returnNum_trap r).mpr htrap)
    refine ⟨x, hx, ?_⟩
    rwa [Scm.returnNum, returnNew_cell _ (h.steady.1 ▸ hused x hx)]

/-- A function that changes nothing. -/
theorem effect_none {xs : List Nat} {harms : Prop} {r : Except Fault Nat × Heap Flt}
    (hno : ¬ harms) (hkeep : ∀ x < m.next, r.2.cell x = m.cell x) : Effect m xs harms r :=
  ⟨fun _ => hkeep, fun h => absurd h hno⟩

/-- `nf_sub` and `nf_div` add their first argument to 0 before the loop. -/
theorem first_effect (op : ArithOp) (prepare : Heap Flt → Num Flt → Nat → Num Flt) (x : Nat)
    (xs : List Nat) :
    Effect m (x :: xs) (FirstConverts Obj.IsNumber m (x :: xs))
      (match doOp fl .add m (.int (.wrap 0)) x with
        | (.ok v, m) => returnNum (opLoop fl op prepare xs m v)
        | (.error e, m) => (.error e, m)) := by
  have h := (loopEffect_doOp fl m .add (.int (.wrap 0)) x xs _
    fun m v => opLoop_effect fl op prepare xs m v).returnNum
  generalize doOp fl .add m (.int (.wrap 0)) x = r at h ⊢
  rcases r with ⟨e | w, m'⟩
  · exact h
  · exact h

/-- Nothing converts behind an object that is no number and does not convert. -/
theorem not_firstConverts {x : Nat} {xs : List Nat} (hconv : ¬ (m.cell x).converts)
    (hnum : ¬ (m.cell x).IsNumber) : ¬ FirstConverts Obj.IsNumber m (x :: xs) := by
  rw [firstConverts_cons]
  rintro (h | h)
  · exact hconv h
  · exact hnum h.1

theorem nfAdd_effect (xs : List Nat) :
    Effect m xs (ArithFn.Harms m .add xs) (nfAdd fl inspect m xs) := by
  cases xs with
  | nil => exact effect_none (fun h => not_firstConverts_nil h.2) fun _ _ => rfl
  | cons x xs =>
      have hharms : ArithFn.Harms m .add (x :: xs) ↔
          (m.cell x).IsNumber ∧ FirstConverts Obj.IsNumber m (x :: xs) := by simp [ArithFn.Harms]
      rw [hharms]
      cases hx : m.cell x with
      | bulk value =>
          have hno : ¬ (Obj.bulk value : Obj Flt).IsNumber := by simp [Obj.IsNumber]
          simp only [nfAdd, hx]
          exact effect_none (fun h => hno h.1) fun _ => returnNew_cell _
      | time sec usec =>
          have hno : ¬ (Obj.time sec usec : Obj Flt).IsNumber := by simp [Obj.IsNumber]
          simp only [nfAdd, hx]
          split
          · exact effect_none (fun h => hno h.1) fun _ => returnNew_cell _
          · exact effect_none (fun h => hno h.1) fun _ => returnNew_cell _
          · exact effect_none (fun h => hno h.1) fun _ _ => rfl
      | _ =>
          rw [← hx, and_iff_right_of_imp fun h =>
            (((firstConverts_cons x xs).mp h).resolve_left (by simp [hx, Obj.converts])).1]
          simp only [nfAdd, hx]
          exact (opLoop_effect ..).returnNum

theorem nfSub_effect (xs : List Nat) :
    Effect m xs (ArithFn.Harms m .sub xs) (nfSub fl m xs) := by
  match xs with
  | [] => exact (opLoop_effect ..).returnNum
  | [x] => exact (opLoop_effect ..).returnNum
  | x :: y :: ys =>
      cases hx : m.cell x with
      | time sec usec =>
          simp only [nfSub, hx]
          exact effect_none (not_firstConverts (by simp [hx, Obj.converts])
            (by simp [hx, Obj.IsNumber])) fun _ => returnNew_cell _
      | _ =>
          simp only [nfSub, hx]
          exact first_effect .sub keepNum x (y :: ys)

theorem nfMul_effect (xs : List Nat) :
    Effect m xs (ArithFn.Harms m .mul xs) (nfMul fl inspect m xs) := by
  have hproduct := (opLoop_effect fl .mul keepNum xs m (.int (.wrap 1))).returnNum
  by_cases hrepeat : ∃ x y ys i, xs = x :: y :: ys ∧ (m.cell x).converts ∧ m.cell y = .int i
  · have hno : ¬ ArithFn.Harms m .mul xs := fun h => h.2 hrepeat
    refine effect_none hno ?_
    obtain ⟨x, y, ys, i, rfl, hx, hy⟩ := hrepeat
    cases hcell : m.cell x with
    | bulk value =>
        simp only [nfMul, hcell, hy]
        exact fun _ => returnNew_cell _
    | _ => simp [hcell, Obj.converts] at hx
  · have hharms : ArithFn.Harms m .mul xs ↔ FirstConverts Obj.IsNumber m xs :=
      and_iff_left hrepeat
    rw [hharms]
    unfold nfMul
    dsimp only
    split
    next x y ys =>
      split
      next value i hx hy =>
        have hconv : ¬ (m.cell x).converts := fun h => hrepeat ⟨x, y, ys, i, rfl, h, hy⟩
        exact effect_none (not_firstConverts hconv (by simp [hx, Obj.IsNumber]))
          fun _ => returnNew_cell _
      next => exact hproduct
    next => exact hproduct

theorem nfDiv_effect (xs : List Nat) :
    Effect m xs (ArithFn.Harms m .div xs) (nfDiv fl m xs) := by
  match xs with
  | [] => exact (opLoop_effect ..).returnNum
  | [x] => exact (opLoop_effect ..).returnNum
  | x :: y :: ys => exact first_effect .div (floatIfZero fl) x (y :: ys)

theorem LoopEffect.map {xs : List Nat} {harms : Prop} {α : Type} {β : Type v} (f : α → β)
    {r : Except Fault α × Heap Flt} (h : LoopEffect m xs harms r) :
    LoopEffect m xs harms (r.1.map f, r.2) := by
  refine ⟨h.steady, h.keeps, fun hharms hsafe => h.changes hharms fun htrap => hsafe ?_⟩
  rw [htrap]
  rfl

theorem nfRem_effect (xs : List Nat) :
    Effect m xs (ArithFn.Harms m .rem xs) (nfRem m xs) := by
  cases xs with
  | nil => exact effect_none id fun _ _ => rfl
  | cons x xs =>
      by_cases hconv : (m.cell x).converts
      · obtain ⟨i, hi⟩ := senObj2int_of_converts hconv
        have hloop := (remLoop_effect xs (m.converted x i) i).map (Num.int : I64 → Num Flt)
        have hsteady := (Heap.steady_converted x i).trans hloop.steady
        simp only [nfRem, hi]
        refine LoopEffect.returnNum ⟨hsteady, fun h => absurd (.inl hconv) h, fun _ _ => ?_⟩
        exact ⟨x, List.mem_cons_self, Heap.Steady.ne_of_converts hconv hloop.steady⟩
      · simp only [ArithFn.Harms, hconv]
        rcases senObj2int_of_not_converts hconv with ⟨i, hcell, hi⟩ | hnone
        · have hloop := (remLoop_effect xs m i).map (Num.int : I64 → Num Flt)
          simp only [nfRem, hi]
          refine LoopEffect.returnNum ⟨hloop.steady, ?_, ?_⟩
          · simpa [hcell] using hloop.keeps
          · intro hharms hsafe
            obtain ⟨y, hy, hne⟩ := hloop.changes (by simpa [hcell] using hharms) hsafe
            exact ⟨y, List.mem_cons_of_mem _ hy, hne⟩
        · simp only [nfRem, hnone]
          refine effect_none ?_ fun _ _ => rfl
          rintro (h | ⟨⟨i, hi⟩, -⟩)
          · exact Bool.false_ne_true h
          · simp [senObj2int, hi] at hnone

variable (fl inspect) in
theorem arith_effect (f : ArithFn) (xs : List Nat) :
    Effect m xs (f.Harms m xs) (f.run fl inspect m xs) := by
  cases f with
  | add => exact nfAdd_effect xs
  | sub => exact nfSub_effect xs
  | mul => exact nfMul_effect xs
  | div => exact nfDiv_effect xs
  | rem => exact nfRem_effect xs

variable (fl raw) in
theorem doCompare_safe (rel : Rel) (m : Heap Flt) (x y : Nat) :
    (doCompare fl raw rel m x y).1 ≠ .error .trap := by
  unfold doCompare
  split <;> try split
  all_goals simp

variable (fl raw) in
theorem compareLoop_safe (rel : Rel) (ys : List Nat) (m : Heap Flt) (x : Nat) :
    (compareLoop fl raw rel ys m x).1 ≠ .error .trap := by
  induction ys generalizing m x with
  | nil => simp [compareLoop]
  | cons y ys ih =>
      have hstep := doCompare_safe fl raw rel m x y
      unfold compareLoop
      split
      next m' _ => exact ih m' y
      next => exact hstep

theorem compare_safe (rel : Rel) (xs : List Nat) : (rel.run fl raw m xs).1 ≠ .error .trap := by
  rw [Rel.run_eq]
  match xs with
  | [] => simp [compareArgs]
  | [x] => simp [compareArgs]
  | x :: y :: ys =>
      have hloop := compareLoop_safe fl raw rel (y :: ys) m x
      unfold compareArgs
      dsimp only
      split <;> simp_all

variable (fl raw) in
theorem compare_effect (rel : Rel) (xs : List Nat) :
    Effect m xs (ChainConverts fl raw rel m xs) (rel.run fl raw m xs) := by
  rw [Rel.run_eq]
  match xs with
  | [] => exact effect_none (fun ⟨pre, _, _, _, h, _⟩ => by simp at h) fun _ _ => rfl
  | [x] => exact effect_none (not_chainConverts_singleton rel x) fun _ _ => rfl
  | x :: y :: ys =>
      have hloop := compareLoop_effect fl raw rel (y :: ys) m x
      have hsafe := compareLoop_safe fl raw rel (y :: ys) m x
      have hheap : (compareArgs fl raw rel m (x :: y :: ys)).2 =
          (compareLoop fl raw rel (y :: ys) m x).2 := by
        unfold compareArgs
        dsimp only
        split <;> simp_all
      refine ⟨fun hno z _ => ?_, fun hharms _ _ => ?_⟩
      · rw [hheap, hloop.keeps hno]
      · obtain ⟨z, hz, hne⟩ := hloop.changes hharms hsafe
        exact ⟨z, List.mem_cons_of_mem _ hz, by rwa [hheap]⟩

/-- `nf_cons` changes the first cell of its arguments, and only it. -/
theorem nfCons_cell {args : Nat} {xs : List Nat} (hargs : m.IsList args xs)
    (hnil : m.cell senQlNil = .void) (S : Set Nat) :
    (∀ x ∈ S, (nfCons m args).2.cell x = m.cell x) ↔
      ¬ (args ∈ S ∧ m.cdr args ≠ m.car (m.cdr args)) := by
  cases hargs with
  | nil =>
      simp [nfCons, Heap.setCdr, hnil, Heap.cdr, Heap.car]
  | @cons p a d xs hcell _ =>
      have hcdr : m.cdr args = d := by simp [Heap.cdr, hcell]
      have hset : (nfCons m args).2.cell = Function.update m.cell args (.pair a (m.car d)) := by
        simp [nfCons, Heap.setCdr, hcell, hcdr, Heap.set]
      rw [hset, hcdr]
      constructor
      · rintro hkeep ⟨hmem, hne⟩
        have hsame := hkeep args hmem
        rw [Function.update_self, hcell, Obj.pair.injEq] at hsame
        exact hne hsame.2.symm
      · intro hno x hx
        by_cases hxargs : x = args
        · have hd : d = m.car d := by
            by_contra hne
            exact hno ⟨hxargs ▸ hx, hne⟩
          rw [hxargs, Function.update_self, ← hd, hcell]
        · exact Function.update_of_ne hxargs ..

/-- When a function changes an argument or a cell of the caller's data `S`, if it does not trap. -/
def Fn.Harms (fl : FloatOps Flt) (raw : Obj Flt → List UInt8) (m : Heap Flt) (args : Nat)
    (xs : List Nat) (S : Set Nat) : Fn → Prop
  | arith f => f.Harms m xs
  | compare rel => ChainConverts fl raw rel m xs
  | cons => args ∈ S ∧ m.cdr args ≠ m.car (m.cdr args)
  | _ => False

/-- The argument lists for which the processor traps. -/
def Fn.Traps (m : Heap Flt) (xs : List Nat) : Fn → Prop
  | arith f => f.Traps m xs
  | _ => False

/-- However a function returns, the caller's data have not changed. -/
def Fn.KeepsArgs (fl : FloatOps Flt) (raw : Obj Flt → List UInt8)
    (inspect : Heap Flt → Nat → List UInt8) (m : Heap Flt) (args : Nat) (xs : List Nat)
    (S : Set Nat) (f : Fn) : Prop :=
  ∀ fuel r, f.run fl raw inspect fuel m args xs = some r → r.1 ≠ .error .trap →
    ∀ x ∈ S, r.2.cell x = m.cell x

/-- **Functions keep the caller's data but for strings that become numbers and the pair that
`cons` takes.** -/
theorem keepsArgs_iff (fl : FloatOps Flt) (raw : Obj Flt → List UInt8)
    (inspect : Heap Flt → Nat → List UInt8) (f : Fn) (m : Heap Flt) (args : Nat) (xs : List Nat)
    (S : Set Nat) (hargs : m.IsList args xs) (hnil : m.cell senQlNil = .void)
    (hxs : ∀ x ∈ xs, x ∈ S) (hused : ∀ x ∈ S, x < m.next) (hbase : senQlNil < m.next) :
    f.KeepsArgs fl raw inspect m args xs S ↔ f.Traps m xs ∨ ¬ f.Harms fl raw m args xs S := by
  have heffect {harms : Prop} {r : Except Fault Nat × Heap Flt} (h : Effect m xs harms r)
      {traps : Prop} (htraps : r.1 = .error .trap ↔ traps) :
      (r.1 ≠ .error .trap → ∀ x ∈ S, r.2.cell x = m.cell x) ↔ traps ∨ ¬ harms := by
    constructor
    · intro hkeep
      by_contra hno
      push Not at hno
      have hsafe : r.1 ≠ .error .trap := fun htrap => hno.1 (htraps.mp htrap)
      obtain ⟨x, hx, hne⟩ := h.2 hno.2 hsafe fun x hx => hused x (hxs x hx)
      exact hne (hkeep hsafe x (hxs x hx))
    · rintro (htrap | hno) hsafe
      · exact absurd (htraps.mpr htrap) hsafe
      · exact fun x hx => h.1 hno x (hused x hx)
  have hkept {r : Except Fault Nat × Heap Flt} (h : ∀ x < m.next, r.2.cell x = m.cell x) :
      ∀ x ∈ S, r.2.cell x = m.cell x := fun x hx => h x (hused x hx)
  cases f with
  | arith f =>
      have h := heffect (arith_effect fl inspect f xs)
        (f.run_trap_iff fl inspect m xs)
      simpa [Fn.KeepsArgs, Fn.run, Fn.Traps, Fn.Harms] using h
  | compare rel =>
      have h := heffect (compare_effect fl raw rel xs)
        (iff_of_false (compare_safe rel xs) id)
      simpa [Fn.KeepsArgs, Fn.run, Fn.Traps, Fn.Harms] using h
  | cons =>
      have h := nfCons_cell hargs hnil S
      simpa [Fn.KeepsArgs, Fn.run, Fn.Traps, Fn.Harms, nfCons] using h
  | list =>
      refine iff_of_true (fun fuel r hrun _ => hkept fun x _ => ?_) (.inr id)
      obtain rfl : nfList m args = r := by simpa [Fn.run] using hrun
      unfold nfList
      split <;> rfl
  | append =>
      refine iff_of_true (fun fuel r hrun _ => hkept ?_) (.inr id)
      obtain ⟨s, hs, rfl⟩ := Option.map_eq_some_iff.mp hrun
      exact append_kept hs hbase
  | reverse =>
      refine iff_of_true (fun fuel r hrun _ => hkept ?_) (.inr id)
      obtain ⟨s, hs, rfl⟩ := Option.map_eq_some_iff.mp hrun
      exact (reverse_kept hs le_rfl hbase .nil).1.2
  | length =>
      refine iff_of_true (fun fuel r hrun _ => hkept ?_) (.inr id)
      obtain ⟨v, -, rfl⟩ := Option.map_eq_some_iff.mp hrun
      exact fun _ => returnNew_cell _

/-- The argument list `(1 "2")`. -/
def oneAndText : Heap Unit :=
  .ofObjs [.int (.wrap 1), .bulk [50], .pair 3 6, .pair 4 senQlNil]

theorem isList_oneAndText : oneAndText.IsList 5 [3, 4] :=
  .cons (d := 6) rfl (.cons rfl .nil)

/-- `(list 1 "2")`, called by `apply` -/
theorem keepsArgs_iff_list :
    Fn.KeepsArgs .unit (fun _ => []) (fun _ _ => []) oneAndText 5 [3, 4] {3, 4, 5, 6} .list ↔
      Fn.Traps oneAndText [3, 4] .list ∨
        ¬ Fn.Harms .unit (fun _ => []) oneAndText 5 [3, 4] {3, 4, 5, 6} .list :=
  keepsArgs_iff _ _ _ _ _ _ _ _ isList_oneAndText rfl (by simp)
    (by rintro x (rfl | rfl | rfl | rfl) <;> decide) (by decide)

/-- `(+ 1 "2")` makes the string a number, and `(apply cons '(1 "2"))` changes the list. -/
theorem keepsArgs_fails :
    ¬ Fn.KeepsArgs .unit (fun _ => []) (fun _ _ => []) oneAndText 5 [3, 4] {3, 4} (.arith .add) ∧
      ¬ Fn.KeepsArgs .unit (fun _ => []) (fun _ _ => []) oneAndText 5 [3, 4] {3, 4, 5, 6}
        .cons := by
  refine ⟨fun h => ?_, fun h => ?_⟩
  · have hcell := h 0 _ rfl nofun 4 (by simp)
    exact absurd (congrArg Obj.converts hcell) (by decide)
  · have hcell := h 0 _ rfl nofun 5 (by simp)
    exact absurd (show (Obj.pair 3 4 : Obj Unit) = .pair 3 6 from hcell) (by simp)

end Senna.Scm
