/-
# List functions of the query language

`reverse` and `append` copy the list that they take apart. `append` turns its copy round in place
with the loop of `non_alloc_rev`, so it matters that the copy consists of new cells: every cell that
was in use before keeps its value. `cons` is different. It makes the first cell of its argument
list the new pair, and `list` returns the argument list as it is.

Lists of data may be circular, so the loops over them have fuel.
-/

import Senna.Scm.Arith

namespace Senna.Scm

universe u

variable {Flt : Type u}

/-- `CDR(x) = d`. A list's cell that is no pair is `NIL`, and `d` is `NIL` then. -/
def Heap.setCdr (m : Heap Flt) (x d : Nat) : Heap Flt :=
  match m.cell x with
  | .pair a _ => m.set x (.pair a d)
  | _ => m

/-- `reverse`, which has come to the cell `a` with the new list `p`. -/
def reverse : Nat → Heap Flt → Nat → Nat → Option (Nat × Heap Flt)
  | 0, _, _, _ => none
  | fuel + 1, m, a, p =>
      match m.cell a with
      | .pair x rest => reverse fuel (m.alloc (.pair x p)).2 rest (m.alloc (.pair x p)).1
      | _ => some (p, m)

/-- `non_alloc_rev`, which has come to the cell `p` with the list `result`. -/
def nonAllocRev : Nat → Heap Flt → Nat → Nat → Option (Nat × Heap Flt)
  | 0, _, _, _ => none
  | fuel + 1, m, result, p =>
      if p = senQlNil then some (result, m)
      else nonAllocRev fuel (m.setCdr p result) p (m.cdr p)

/-- `append` -/
def append (fuel : Nat) (m : Heap Flt) (a b : Nat) : Option (Nat × Heap Flt) :=
  if a = senQlNil then some (b, m)
  else
    match reverse fuel m a senQlNil with
    | none => none
    -- the loop is that of `non_alloc_rev(b, a)`
    | some (a, m) => nonAllocRev fuel m b a

/-- `nf_cons` -/
def nfCons (m : Heap Flt) (args : Nat) : Except Fault Nat × Heap Flt :=
  (.ok args, m.setCdr args (m.car (m.cdr args)))

/-- `nf_list` -/
def nfList (m : Heap Flt) (args : Nat) : Except Fault Nat × Heap Flt :=
  match m.cell args with
  | .pair _ _ => (.ok args, m)
  | _ => (.error (.error "Unable to handle non-cons argument"), m)

/-- `nf_append` -/
def nfAppend (fuel : Nat) (m : Heap Flt) (args : Nat) : Option (Except Fault Nat × Heap Flt) :=
  (append fuel m (m.car args) (m.car (m.cdr args))).map fun r => (.ok r.1, r.2)

/-- `nf_reverse` -/
def nfReverse (fuel : Nat) (m : Heap Flt) (args : Nat) : Option (Except Fault Nat × Heap Flt) :=
  (reverse fuel m (m.car args) senQlNil).map fun r => (.ok r.1, r.2)

/-- The loop of `nf_length`. -/
def lengthLoop : Nat → Heap Flt → Nat → Int → Option Int
  | 0, _, _, _ => none
  | fuel + 1, m, x, v =>
      match m.cell x with
      | .pair _ rest => lengthLoop fuel m rest (v + 1)
      | _ => some v

/-- `nf_length` -/
def nfLength (fuel : Nat) (m : Heap Flt) (args : Nat) : Option (Except Fault Nat × Heap Flt) :=
  (lengthLoop fuel m (m.car args) 0).map fun v => returnNew m (.ok (.int (.wrap v)))

namespace Heap

variable {m m' m'' : Heap Flt}

/-- All cells that are in use keep their values. -/
def Kept (m m' : Heap Flt) : Prop := m.next ≤ m'.next ∧ ∀ x < m.next, m'.cell x = m.cell x

theorem Kept.rfl : Kept m m := ⟨le_rfl, fun _ _ => .refl _⟩

theorem Kept.trans (h : Kept m m') (h' : Kept m' m'') : Kept m m'' :=
  ⟨h.1.trans h'.1, fun x hx => (h'.2 x (hx.trans_le h.1)).trans (h.2 x hx)⟩

theorem kept_alloc (o : Obj Flt) : Kept m (m.alloc o).2 :=
  ⟨Nat.le_succ _, fun _ hx => Function.update_of_ne hx.ne ..⟩

theorem cell_alloc (o : Obj Flt) : (m.alloc o).2.cell m.next = o := Function.update_self ..

/-- A list of new cells, of which each one is older than the one before. -/
inductive IsStack (m : Heap Flt) (lo : Nat) : Nat → List Nat → Prop
  | nil : IsStack m lo senQlNil []
  | cons {p a d : Nat} {xs : List Nat} (hcell : m.cell p = .pair a d) (hlo : lo ≤ p) (hold : d < p)
      (hrest : IsStack m lo d xs) : IsStack m lo p (a :: xs)

/-- A list does not depend on newer cells. -/
theorem IsStack.congr {lo p : Nat} {xs : List Nat} (h : IsStack m lo p xs)
    (hcell : ∀ x ≤ p, m'.cell x = m.cell x) : IsStack m' lo p xs := by
  induction h with
  | nil => exact .nil
  | cons hpair hlo hold _ ih =>
      exact .cons ((hcell _ le_rfl).trans hpair) hlo hold
        (ih fun x hx => hcell x (hx.trans hold.le))

end Heap

/-- What `reverse` has done when it returns: the new list is made of new cells. -/
theorem reverse_kept {fuel : Nat} {m m' : Heap Flt} {lo a p r : Nat} {ys : List Nat}
    (hrun : reverse fuel m a p = some (r, m')) (hlo : lo ≤ m.next) (hp : p < m.next)
    (hstack : m.IsStack lo p ys) : m.Kept m' ∧ ∃ zs, m'.IsStack lo r zs := by
  induction fuel generalizing m a p ys with
  | zero => simp [reverse] at hrun
  | succ fuel ih =>
      unfold reverse at hrun
      cases hcell : m.cell a with
      | pair x rest =>
          simp only [hcell] at hrun
          have hkept : m.Kept (m.alloc (.pair x p)).2 := Heap.kept_alloc _
          have hnew : (m.alloc (.pair x p)).2.IsStack lo m.next (x :: ys) :=
            .cons (Heap.cell_alloc _) hlo hp
              (hstack.congr fun y hy => hkept.2 y (hy.trans_lt hp))
          obtain ⟨hrest, hzs⟩ := ih hrun (hlo.trans hkept.1) (Nat.lt_succ_self _) hnew
          exact ⟨hkept.trans hrest, hzs⟩
      | _ =>
          obtain ⟨rfl, rfl⟩ : p = r ∧ m = m' := by simpa [hcell] using hrun
          exact ⟨.rfl, ys, hstack⟩

theorem Heap.cell_setCdr_of_ne {m : Heap Flt} {x y : Nat} (d : Nat) (hne : y ≠ x) :
    (m.setCdr x d).cell y = m.cell y := by
  unfold setCdr
  split
  · exact Function.update_of_ne hne ..
  · rfl

/-- `non_alloc_rev` changes no cell but those of the list. -/
theorem nonAllocRev_cell {fuel : Nat} {m m' : Heap Flt} {lo p result r : Nat} {xs : List Nat}
    (hrun : nonAllocRev fuel m result p = some (r, m')) (hstack : m.IsStack lo p xs) :
    ∀ x < lo, m'.cell x = m.cell x := by
  induction fuel generalizing m p result xs with
  | zero => simp [nonAllocRev] at hrun
  | succ fuel ih =>
      unfold nonAllocRev at hrun
      cases hstack with
      | nil =>
          obtain ⟨-, rfl⟩ : result = r ∧ m = m' := by simpa using hrun
          exact fun _ _ => rfl
      | @cons _ a d xs hcell hlo hold hrest =>
          have hp : p ≠ senQlNil := Nat.ne_of_gt (Nat.zero_lt_of_lt hold)
          have hcdr : m.cdr p = d := by simp [Heap.cdr, hcell]
          rw [if_neg hp, hcdr] at hrun
          have hrest' : (m.setCdr p result).IsStack lo d xs :=
            hrest.congr fun x hx => Heap.cell_setCdr_of_ne _ (hx.trans_lt hold).ne
          intro x hx
          rw [ih hrun hrest' x hx, Heap.cell_setCdr_of_ne _ (hx.trans_le hlo).ne]

/-- **`append` keeps all cells.** -/
theorem append_kept {fuel : Nat} {m m' : Heap Flt} {a b r : Nat}
    (hrun : append fuel m a b = some (r, m')) (hnil : senQlNil < m.next) :
    ∀ x < m.next, m'.cell x = m.cell x := by
  unfold append at hrun
  split_ifs at hrun with ha
  · obtain ⟨-, rfl⟩ : b = r ∧ m = m' := by simpa using hrun
    exact fun _ _ => rfl
  · cases hrev : reverse fuel m a senQlNil with
    | none => simp [hrev] at hrun
    | some copy =>
        rw [hrev] at hrun
        obtain ⟨hkept, xs, hstack⟩ := reverse_kept hrev le_rfl hnil .nil
        intro x hx
        rw [nonAllocRev_cell hrun hstack x hx, hkept.2 x hx]

end Senna.Scm
