/-
# The weights that a query gives to sections

A query text that begins with pragmas is `written ps rest`: the pragmas `ps` as they are
written down, and a rest that does not go on with the last of them. `givenWeight ps` is what
the lists of weights say about a section: the value given last for it, 1 if it is listed
without a value, 0 if it is not listed.

The executor weights every section in this way exactly if no value is lost when the vector
of weights is given up: what a list says before the first large section number has to be
said again from that list on.
-/

import Mathlib.Data.List.TakeWhile
import Senna.Query.Pragma

namespace Senna.Query

open Senna.Snip (SenEncoding)
open Senna.Index (senIsspace)

/-- The digits of a number. -/
def digitsText (n : List (Fin 10)) : List UInt8 :=
  n.map fun d : Fin 10 => UInt8.ofNat (0x30 + d.val)

/-- The number that the digits continue `v` to. -/
def digitsFrom (v : Nat) (n : List (Fin 10)) : Nat :=
  n.foldl (fun v (d : Fin 10) => v * 10 + d.val) v

theorem isDigit_ofNat : ∀ d : Fin 10, isDigit (UInt8.ofNat (0x30 + d.val)) = true := by decide

theorem toNat_ofNat_sub : ∀ d : Fin 10, (UInt8.ofNat (0x30 + d.val)).toNat - 0x30 = d.val := by
  decide

theorem le_digitsFrom (v : Nat) (n : List (Fin 10)) : v ≤ digitsFrom v n := by
  induction n generalizing v with
  | nil => exact le_refl v
  | cons d n ih =>
      calc v ≤ v * 10 + d := by omega
        _ ≤ digitsFrom (v * 10 + d) n := ih _

/-- Without a digit at its start, the text goes on after the number. -/
theorem senAtouiLoop_of_headD {p : List UInt8} (hp : isDigit (p.headD 0) = false) (v : Nat) :
    senAtouiLoop v p = (v, p) := by
  cases p with
  | nil => rfl
  | cons b p =>
      rw [senAtouiLoop, if_neg]
      exact Bool.eq_false_iff.mp hp

theorem senAtoiLoop_of_headD {p : List UInt8} (hp : isDigit (p.headD 0) = false) (v : Int)
    (o : Bool) : senAtoiLoop v o p = (v, o, p) := by
  cases p with
  | nil => rfl
  | cons b p =>
      rw [senAtoiLoop, if_neg]
      exact Bool.eq_false_iff.mp hp

theorem senAtouiLoop_text {p : List UInt8} (hp : isDigit (p.headD 0) = false) (n : List (Fin 10))
    (v : Nat) (hn : digitsFrom v n < 2 ^ 32) :
    senAtouiLoop v (digitsText n ++ p) = (digitsFrom v n, p) := by
  induction n generalizing v with
  | nil => exact senAtouiLoop_of_headD hp v
  | cons d n ih =>
      have hle := le_digitsFrom (v * 10 + d) n
      have hlt : v * 10 + d < 2 ^ 32 := lt_of_le_of_lt hle hn
      rw [digitsText, List.map_cons, List.cons_append, senAtouiLoop, if_pos (isDigit_ofNat d)]
      dsimp only
      rw [toNat_ofNat_sub, Nat.mod_eq_of_lt hlt, if_neg (by omega)]
      exact ih (v * 10 + d) hn

theorem senAtoiLoop_text {p : List UInt8} (hp : isDigit (p.headD 0) = false) (n : List (Fin 10))
    (v : Nat) (o : Bool) (hn : digitsFrom v n < 2 ^ 31) :
    senAtoiLoop v o (digitsText n ++ p) = ((digitsFrom v n : Int), o && n.isEmpty, p) := by
  induction n generalizing v o with
  | nil =>
      rw [List.isEmpty_nil, Bool.and_true]
      exact senAtoiLoop_of_headD hp v o
  | cons d n ih =>
      have hle := le_digitsFrom (v * 10 + d) n
      have hlt : v * 10 + d < 2 ^ 31 := lt_of_le_of_lt hle hn
      have hcast : ((v : Int) * 10 + (d.val : Nat)).bmod (2 ^ 32) = (v * 10 + d.val : Nat) := by
        rw [Int.bmod_eq_of_le (by omega) (by omega)]
        push_cast
        rfl
      rw [digitsText, List.map_cons, List.cons_append, senAtoiLoop, if_pos (isDigit_ofNat d)]
      dsimp only
      rw [toNat_ofNat_sub, hcast, if_neg (by omega), List.isEmpty_cons, Bool.and_false]
      exact ih (v * 10 + d) false hn

/-- A number with a sign: whether there is a minus, and the digits. -/
structure Numeral where
  minus : Bool
  digits : List (Fin 10)

namespace Numeral

variable (n : Numeral)

/-- The number. -/
def value : Int := if n.minus then -(digitsFrom 0 n.digits : Int) else digitsFrom 0 n.digits

/-- How the number is written. -/
def text : List UInt8 := (if n.minus then [0x2d] else []) ++ digitsText n.digits

/-- How a number that may be missing is written, behind the separator `sep`. -/
def optText (sep : UInt8) : Option Numeral → List UInt8
  | none => []
  | some n => sep :: n.text

/-- There is a digit, and the number is an `int`. -/
def Ok : Prop := n.digits ≠ [] ∧ digitsFrom 0 n.digits < 2 ^ 31

end Numeral

theorem ofNat_ne_minus : ∀ d : Fin 10, UInt8.ofNat (0x30 + d.val) ≠ 0x2d := by decide

/-- `sen_atoi` reads a number that is written down. -/
theorem senAtoi_text {n : Numeral} (hn : n.Ok) {p : List UInt8}
    (hp : isDigit (p.headD 0) = false) : senAtoi (n.text ++ p) = (n.value, p) := by
  obtain ⟨minus, digits⟩ := n
  obtain ⟨hne, hlt⟩ := hn
  dsimp only at hne hlt
  cases minus with
  | true =>
      have hempty : digits.isEmpty = false := by simpa using hne
      have htext : (⟨true, digits⟩ : Numeral).text ++ p = 0x2d :: (digitsText digits ++ p) := rfl
      have hloop := senAtoiLoop_text hp digits 0 true hlt
      rw [Nat.cast_zero, hempty] at hloop
      rw [htext, senAtoi, if_pos List.head?_cons, List.tail_cons, hloop]
      rfl
  | false =>
      have htext : (⟨false, digits⟩ : Numeral).text ++ p = digitsText digits ++ p := rfl
      have hloop := senAtoiLoop_text hp digits 0 false hlt
      have hhead : (digitsText digits ++ p).head? ≠ some 0x2d := by
        cases digits with
        | nil => exact absurd rfl hne
        | cons d n => exact fun h => ofNat_ne_minus d (Option.some.inj h)
      rw [Nat.cast_zero] at hloop
      rw [htext, senAtoi, if_neg hhead, hloop]
      rfl

/-- An entry of a list of weights. -/
structure WeightItem where
  key : List (Fin 10)
  value : Option Numeral

namespace WeightItem

variable (i : WeightItem)

/-- The section and its weight. -/
def entry : Nat × Int := (digitsFrom 0 i.key, (i.value.map Numeral.value).getD 1)

/-- How the entry is written. -/
def text : List UInt8 :=
  digitsText i.key ++ Numeral.optText 0x3a i.value

/-- The key is the number of a section, the value an `int`. -/
structure Ok : Prop where
  pos : 1 ≤ i.entry.1
  le : i.entry.1 ≤ senIdMax
  value : ∀ n, i.value = some n → n.Ok

/-- What can follow the entry: nothing that belongs to the number or begins a value. -/
def Ends (p : List UInt8) : Prop :=
  isDigit (p.headD 0) = false ∧ (i.value = none → p.headD 0 ≠ 0x3a)

end WeightItem

/-- A list of weights as it is written, where `sep` says whether a separator ends it. -/
def weightsText : List WeightItem → Bool → List UInt8
  | [], _ => []
  | [i], sep => i.text ++ if sep then [0x2c] else []
  | i :: is, sep => i.text ++ 0x2c :: weightsText is sep

/-- What can follow a list of weights. -/
def WeightsEnd : List WeightItem → Bool → List UInt8 → Prop
  | [], _, p => isDigit (p.headD 0) = false
  | [i], sep, p => if sep then isDigit (p.headD 0) = false else i.Ends p ∧ p.headD 0 ≠ 0x2c
  | _ :: is, sep, p => WeightsEnd is sep p

/-- One entry of the list. -/
theorem weightLoop_item {source : List UInt8} (w : SectionWeights) {i : WeightItem} (hi : i.Ok)
    {p : List UInt8} (hp : i.Ends p) :
    weightLoop source w (i.text ++ p) =
      match w.put i.entry.1 i.entry.2 with
      | none => weightLoop source .emptySet source
      | some w' => if p.headD 0 = 0x2c then weightLoop source w' p.tail else (w', p) := by
  have hpos := hi.pos
  have hle := hi.le
  have hkey : senAtoui (i.text ++ p) = (i.entry.1, Numeral.optText 0x3a i.value ++ p) := by
    rw [WeightItem.text, List.append_assoc]
    refine senAtouiLoop_text ?_ _ _ (lt_of_le_of_lt hle (by norm_num [senIdMax]))
    cases i.value with
    | none => exact hp.1
    | some n => rfl
  have hvalue : weightValue (Numeral.optText 0x3a i.value ++ p) = (i.entry.2, p) := by
    rw [WeightItem.entry]
    cases hv : i.value with
    | none =>
        rw [weightValue, Numeral.optText, List.nil_append, if_neg (hp.2 hv)]
        rfl
    | some n =>
        rw [weightValue, Numeral.optText, List.cons_append, List.headD_cons, if_pos rfl,
          List.tail_cons, senAtoi_text (hi.value n hv) hp.1]
        rfl
  have hne : i.text ++ p ≠ [] := by
    intro h
    rw [h] at hkey
    have : i.entry.1 = 0 := congrArg Prod.fst hkey.symm
    omega
  rw [weightLoop, if_neg hne]
  dsimp only
  rw [hkey, if_neg (by omega)]
  dsimp only
  rw [hvalue]
  dsimp only
  cases hput : w.put i.entry.1 i.entry.2 with
  | none => rfl
  | some w' => simp only [dite_eq_ite]

/-- The loop ends where no number begins. -/
theorem weightLoop_of_headD {source p : List UInt8} (w : SectionWeights)
    (hp : isDigit (p.headD 0) = false) : weightLoop source w p = (w, p) := by
  rw [weightLoop]
  split_ifs with hnil
  · rfl
  · dsimp only
    rw [senAtoui, senAtouiLoop_of_headD hp, if_pos (Or.inl rfl)]

/-- The entries of a list, one after the other. -/
def SectionWeights.putAll (w : SectionWeights) (es : List (Nat × Int)) : Option SectionWeights :=
  es.foldlM (fun w e => w.put e.1 e.2) w

/-- The whole list: it is read to its end, or again from its start with an empty set. -/
theorem weightLoop_text (source : List UInt8) {is : List WeightItem} (hok : ∀ i ∈ is, i.Ok)
    {sep : Bool} {p : List UInt8} (hend : WeightsEnd is sep p) (w : SectionWeights) :
    weightLoop source w (weightsText is sep ++ p) =
      match w.putAll (is.map WeightItem.entry) with
      | none => weightLoop source .emptySet source
      | some w' => (w', p) := by
  have hcomma (i : WeightItem) (p : List UInt8) : i.Ends (0x2c :: p) :=
    ⟨rfl, fun _ => (by decide : (0x2c : UInt8) ≠ 0x3a)⟩
  induction is generalizing w with
  | nil => exact weightLoop_of_headD w hend
  | cons i is ih =>
      have hi := hok i List.mem_cons_self
      have hputAll : w.putAll ((i :: is).map WeightItem.entry) =
          (w.put i.entry.1 i.entry.2).bind fun w => w.putAll (is.map WeightItem.entry) := rfl
      rw [hputAll]
      cases is with
      | nil =>
          cases sep with
          | true =>
              have htext : weightsText [i] true ++ p = i.text ++ 0x2c :: p :=
                List.append_assoc _ _ _
              rw [htext, weightLoop_item w hi (hcomma i p)]
              cases w.put i.entry.1 i.entry.2 with
              | none => rfl
              | some w' => exact weightLoop_of_headD w' hend
          | false =>
              have htext : weightsText [i] false ++ p = i.text ++ p := by
                rw [weightsText, if_neg Bool.false_ne_true, List.append_nil]
              rw [htext, weightLoop_item w hi hend.1]
              cases w.put i.entry.1 i.entry.2 with
              | none => rfl
              | some w' => exact if_neg hend.2
      | cons j is =>
          have htext : weightsText (i :: j :: is) sep ++ p =
              i.text ++ 0x2c :: (weightsText (j :: is) sep ++ p) := List.append_assoc _ _ _
          rw [htext, weightLoop_item w hi (hcomma i _)]
          cases w.put i.entry.1 i.entry.2 with
          | none => rfl
          | some w' => exact ih (fun i hi => hok i (List.mem_cons_of_mem _ hi)) hend w'

/-- The value given last for a section. -/
def lastGiven (es : List (Nat × Int)) (k : Nat) : Option Int := es.reverse.lookup k

/-- All sections of the entries have a place in the vector. -/
def Small (es : List (Nat × Int)) : Bool := es.all fun e => decide (e.1 < weightVectorSize)

theorem lastGiven_append (es fs : List (Nat × Int)) (k : Nat) :
    lastGiven (es ++ fs) k = (lastGiven fs k).or (lastGiven es k) := by
  rw [lastGiven, List.reverse_append, List.lookup_append]
  rfl

theorem lastGiven_concat (es : List (Nat × Int)) (e : Nat × Int) (k : Nat) :
    lastGiven (es ++ [e]) k = if k = e.1 then some e.2 else lastGiven es k := by
  rw [lastGiven, List.reverse_append, List.reverse_singleton, List.singleton_append,
    List.lookup_cons]
  by_cases h : k = e.1
  · rw [if_pos h, h, beq_self_eq_true]
  · rw [if_neg h, beq_false_of_ne h]
    rfl

namespace SectionWeights

/-- The entries are in the vector. -/
structure InVector (w : SectionWeights) (es : List (Nat × Int)) : Prop where
  set : w.set = none
  vector : ∃ v, w.vector = some v ∧ v.length = weightVectorSize ∧
    ∀ k, 1 ≤ k → v.getD (k - 1) 0 = (lastGiven es k).getD 0

/-- The entries are in the set. -/
def InSet (w : SectionWeights) (es : List (Nat × Int)) : Prop := w = ⟨none, some (lastGiven es)⟩

variable {w : SectionWeights} {es fs : List (Nat × Int)}

theorem inVector_alloc : unset.alloc.InVector [] := by
  refine ⟨rfl, _, rfl, List.length_replicate, fun k _ => ?_⟩
  rw [List.getD_eq_getElem?_getD, List.getElem?_replicate]
  split_ifs <;> rfl

theorem inSet_emptySet : emptySet.InSet [] := rfl

/-- A section within the vector. -/
theorem InVector.put (h : w.InVector es) {e : Nat × Int} (hpos : 1 ≤ e.1)
    (hlt : e.1 < weightVectorSize) : ∃ w', w.put e.1 e.2 = some w' ∧ w'.InVector (es ++ [e]) := by
  obtain ⟨v, hv, hlen, hget⟩ := h.vector
  rw [SectionWeights.put, h.set]
  dsimp only
  rw [if_pos hlt]
  refine ⟨_, rfl, rfl, v.set (e.1 - 1) e.2, by rw [hv]; rfl, by rw [List.length_set, hlen],
    fun k hk => ?_⟩
  rw [lastGiven_concat, List.getD_eq_getElem?_getD, List.getElem?_set]
  by_cases hke : k = e.1
  · rw [if_pos (by omega), if_pos (by omega), if_pos hke]
  · rw [if_neg (by omega), if_neg hke, ← hget k hk, List.getD_eq_getElem?_getD]

theorem InSet.put (h : w.InSet es) (e : Nat × Int) :
    ∃ w', w.put e.1 e.2 = some w' ∧ w'.InSet (es ++ [e]) := by
  refine ⟨⟨none, some (lastGiven (es ++ [e]))⟩, ?_, rfl⟩
  have hupdate : Function.update (lastGiven es) e.1 (some e.2) = lastGiven (es ++ [e]) := by
    funext k
    rw [lastGiven_concat, Function.update_apply]
  rw [h, SectionWeights.put]
  dsimp only
  rw [hupdate]

/-- A list of entries for sections within the vector. -/
theorem InVector.putAll (h : w.InVector es) (hpos : ∀ e ∈ fs, 1 ≤ e.1) (hsmall : Small fs = true) :
    ∃ w', w.putAll fs = some w' ∧ w'.InVector (es ++ fs) := by
  induction fs generalizing w es with
  | nil => exact ⟨w, rfl, by rwa [List.append_nil]⟩
  | cons e fs ih =>
      rw [Small, List.all_cons, Bool.and_eq_true, decide_eq_true_eq] at hsmall
      obtain ⟨w₁, hput, h₁⟩ := h.put (hpos e List.mem_cons_self) hsmall.1
      obtain ⟨w', hall, h'⟩ := ih h₁ (fun e he => hpos e (List.mem_cons_of_mem _ he)) hsmall.2
      refine ⟨w', ?_, by rwa [List.append_assoc] at h'⟩
      rw [SectionWeights.putAll, List.foldlM_cons, hput]
      exact hall

/-- A list with a section beyond the vector. -/
theorem putAll_eq_none (hset : w.set = none) (hbig : Small fs = false) : w.putAll fs = none := by
  induction fs generalizing w with
  | nil => cases hbig
  | cons e fs ih =>
      rw [SectionWeights.putAll, List.foldlM_cons]
      cases hput : w.put e.1 e.2 with
      | none => rfl
      | some w' =>
          have hset' := put_isNone hput
          rw [hset, Option.isNone_none, Option.isNone_iff_eq_none] at hset'
          refine ih hset' ?_
          rw [Small, List.all_cons, Bool.and_eq_false_iff] at hbig
          refine hbig.resolve_left fun h => ?_
          rw [SectionWeights.put, hset] at hput
          dsimp only at hput
          rw [if_neg (of_decide_eq_false h)] at hput
          cases hput

theorem InSet.putAll (h : w.InSet es) (fs : List (Nat × Int)) :
    ∃ w', w.putAll fs = some w' ∧ w'.InSet (es ++ fs) := by
  induction fs generalizing w es with
  | nil => exact ⟨w, rfl, by rwa [List.append_nil]⟩
  | cons e fs ih =>
      obtain ⟨w₁, hput, h₁⟩ := h.put e
      obtain ⟨w', hall, h'⟩ := ih h₁
      refine ⟨w', ?_, by rwa [List.append_assoc] at h'⟩
      rw [SectionWeights.putAll, List.foldlM_cons, hput]
      exact hall

/-- What is left of the lists read so far: all of them in the vector, or in the set those
from the first on that has a section beyond the vector. -/
inductive Represents : List (List (Nat × Int)) → SectionWeights → Prop
  | unset : Represents [] unset
  | vector {ls : List (List (Nat × Int))} {w : SectionWeights} (hne : ls ≠ [])
      (hsmall : ls.all Small = true) (h : w.InVector ls.flatten) : Represents ls w
  | set {ls : List (List (Nat × Int))} {w : SectionWeights} (hbig : ls.all Small = false)
      (h : w.InSet (ls.dropWhile Small).flatten) : Represents ls w

variable {ls : List (List (Nat × Int))}

theorem Represents.alloc (h : Represents ls w) :
    (ls.all Small = true ∧ w.alloc.InVector ls.flatten) ∨
      (ls.all Small = false ∧ w.alloc.InSet (ls.dropWhile Small).flatten) := by
  cases h with
  | unset => exact Or.inl ⟨rfl, inVector_alloc⟩
  | vector hne hsmall h =>
      obtain ⟨v, hv, -⟩ := h.vector
      refine Or.inl ⟨hsmall, ?_⟩
      rw [SectionWeights.alloc, hv, if_neg (by simp)]
      exact h
  | set hbig h =>
      refine Or.inr ⟨hbig, ?_⟩
      rw [h, SectionWeights.alloc, if_neg (by simp)]
      rfl

theorem flatten_concat (ls : List (List (Nat × Int))) (l : List (Nat × Int)) :
    (ls ++ [l]).flatten = ls.flatten ++ l := by
  rw [List.flatten_append, List.flatten_singleton]

theorem all_concat (ls : List (List (Nat × Int))) (l : List (Nat × Int)) :
    (ls ++ [l]).all Small = (ls.all Small && Small l) := by
  rw [List.all_append, List.all_cons, List.all_nil, Bool.and_true]

theorem dropWhile_concat (h : ls.all Small = false) (l : List (Nat × Int)) :
    (ls ++ [l]).dropWhile Small = ls.dropWhile Small ++ [l] := by
  have hne : ls.dropWhile Small ≠ [] := by
    rw [Ne, List.dropWhile_eq_nil_iff, ← List.all_eq_true, h]
    exact Bool.false_ne_true
  rw [List.dropWhile_append, if_neg (by simpa using hne)]

theorem Represents.of_nil (h : Represents [] w) : w = SectionWeights.unset := by
  cases h with
  | unset => rfl
  | vector hne => exact absurd rfl hne
  | set hbig => cases hbig

/-- **One list.** It joins the lists read so far, or takes their place if it is the first with
a section beyond the vector. -/
theorem Represents.getWeightVector (h : Represents ls w) {is : List WeightItem}
    (hok : ∀ i ∈ is, i.Ok) {sep : Bool} {p : List UInt8} (hend : WeightsEnd is sep p) :
    ∃ w', Query.getWeightVector w (weightsText is sep ++ p) = (w', p) ∧
      Represents (ls ++ [is.map WeightItem.entry]) w' := by
  have hread := weightLoop_text (weightsText is sep ++ p) hok hend
  have hpos : ∀ e ∈ is.map WeightItem.entry, 1 ≤ e.1 := by
    intro e he
    obtain ⟨i, hi, rfl⟩ := List.mem_map.mp he
    exact (hok i hi).pos
  generalize hl : is.map WeightItem.entry = l at hread hpos ⊢
  rw [Query.getWeightVector, hread]
  rcases h.alloc with ⟨hsmall, hvec⟩ | ⟨hbig, hset⟩
  · cases hsl : Small l with
    | true =>
        obtain ⟨w', hput, hw'⟩ := hvec.putAll hpos hsl
        rw [hput]
        refine ⟨w', rfl, .vector (by simp) ?_ ?_⟩
        · rw [all_concat, hsmall, hsl, Bool.true_and]
        · rwa [flatten_concat]
    | false =>
        -- the vector is given up, and the list is read again
        obtain ⟨w', hput, hw'⟩ := inSet_emptySet.putAll l
        rw [putAll_eq_none hvec.set hsl]
        dsimp only
        rw [hread, hput]
        refine ⟨w', rfl, .set ?_ ?_⟩
        · rw [all_concat, hsl, Bool.and_false]
        · rw [List.all_eq_true] at hsmall
          rw [List.dropWhile_append_of_pos hsmall, List.dropWhile_cons_of_neg (by simp [hsl]),
            List.flatten_singleton]
          exact hw'
  · obtain ⟨w', hput, hw'⟩ := hset.putAll l
    rw [hput]
    refine ⟨w', rfl, .set ?_ ?_⟩
    · rw [all_concat, hbig, Bool.false_and]
    · rwa [dropWhile_concat hbig, flatten_concat]

end SectionWeights

/-- A pragma: a list of weights, and whether a separator ends it; the escalation threshold
as it is written, and the decay step; the word for the default operator. -/
inductive Pragma
  | weight (items : List WeightItem) (sep : Bool)
  | escalation (threshold : List UInt8) (decaystep : Option Numeral)
  | defaultOp (word : List UInt8)

namespace Pragma

/-- How the pragma is written, behind its `*`. -/
def text : Pragma → List UInt8
  | weight items sep => 0x57 :: weightsText items sep
  | escalation threshold decaystep => 0x45 :: (threshold ++ Numeral.optText 0x2c decaystep)
  | defaultOp word => 0x44 :: word

/-- The list of weights. -/
def entries : Pragma → Option (List (Nat × Int))
  | weight items _ => some (items.map WeightItem.entry)
  | _ => none

/-- The pragma is well formed, and the text `p` behind it does not go on with it. -/
def Ok (encoding : SenEncoding) : Pragma → List UInt8 → Prop
  | weight items sep, p => (∀ i ∈ items, i.Ok) ∧ WeightsEnd items sep p
  | escalation threshold decaystep, p =>
      (∀ b ∈ threshold, (isDigit b || b == 0x2d) = true) ∧ (∀ n, decaystep = some n → n.Ok) ∧
        isDigit (p.headD 0) = false ∧
        (decaystep = none → p.headD 0 ≠ 0x2d ∧ p.headD 0 ≠ 0x2c)
  | defaultOp word, p =>
      (∀ b ∈ word, b ≠ 0x2a) ∧ (∀ k < word.length, senIsspace encoding ((word ++ p).drop k) = 0) ∧
        (p = [] ∨ p.headD 0 = 0x2a ∨ senIsspace encoding p ≠ 0)

end Pragma

/-- The pragmas with the text `rest` behind them. -/
def written (ps : List Pragma) (rest : List UInt8) : List UInt8 :=
  ps.foldr (fun p s => 0x2a :: (p.text ++ s)) rest

/-- The text does not begin with a pragma. -/
def NoPragma (rest : List UInt8) : Prop :=
  ∀ c p, rest = 0x2a :: c :: p → c ∉ [0x45, 0x44, 0x57, 0x2a]

/-- The pragmas are well formed, and so is the end of each. -/
def Begins (encoding : SenEncoding) (rest : List UInt8) : List Pragma → Prop
  | [] => NoPragma rest
  | p :: ps => p.Ok encoding (written ps rest) ∧ Begins encoding rest ps

/-- The lists of weights. -/
def weightLists (ps : List Pragma) : List (List (Nat × Int)) := ps.filterMap Pragma.entries

/-- **The weight given to a section**: the value given last for it, 0 if it is not listed. -/
def givenWeight (ps : List Pragma) (k : Nat) : Int :=
  (lastGiven (weightLists ps).flatten k).getD 0

/-- What `sen_atoi` reads are digits and a minus. -/
theorem dropWhile_senAtoi (p : List UInt8) :
    (senAtoi p).2.dropWhile (fun b => isDigit b || b == 0x2d) =
      p.dropWhile fun b => isDigit b || b == 0x2d := by
  have hloop (p : List UInt8) (v : Int) (o : Bool) :
      (senAtoiLoop v o p).2.2.dropWhile (fun b => isDigit b || b == 0x2d) =
        p.dropWhile fun b => isDigit b || b == 0x2d := by
    induction p generalizing v o with
    | nil => rfl
    | cons b p ih =>
        rw [senAtoiLoop]
        split_ifs with hdigit
        · dsimp only
          split_ifs
          · rfl
          · rw [ih, List.dropWhile_cons_of_pos (by simp [hdigit])]
        · rfl
  rw [senAtoi]
  split_ifs with hminus
  · dsimp only
    split_ifs
    · rfl
    · rw [hloop]
      cases p with
      | nil => rfl
      | cons b p =>
          obtain rfl : b = 0x2d := by simpa using hminus
          rw [List.tail_cons, List.dropWhile_cons_of_pos (by decide)]
  · exact hloop p 0 false

/-- The word of the default operator. -/
theorem wordEnd_text {encoding : SenEncoding} {word p : List UInt8} (hstar : ∀ b ∈ word, b ≠ 0x2a)
    (hspace : ∀ k < word.length, senIsspace encoding ((word ++ p).drop k) = 0)
    (hp : p = [] ∨ p.headD 0 = 0x2a ∨ senIsspace encoding p ≠ 0) :
    PragmaQuery.wordEnd encoding (word ++ p) = p := by
  induction word with
  | nil =>
      rw [List.nil_append]
      cases p with
      | nil => rfl
      | cons b p =>
          rw [PragmaQuery.wordEnd, if_pos]
          exact hp.resolve_left (List.cons_ne_nil b p)
  | cons b word ih =>
      have hfirst := hspace 0 (Nat.succ_pos _)
      rw [List.drop_zero, List.cons_append] at hfirst
      rw [List.cons_append, PragmaQuery.wordEnd, if_neg]
      · refine ih (fun c hc => hstar c (List.mem_cons_of_mem _ hc)) fun k hk => ?_
        exact hspace (k + 1) (Nat.succ_lt_succ hk)
      · exact fun h => h.elim (hstar b List.mem_cons_self) (fun h => h hfirst)

theorem cur_escalation {threshold p : List UInt8} {decaystep : Option Numeral}
    {encoding : SenEncoding} (h : (Pragma.escalation threshold decaystep).Ok encoding p)
    (q : PragmaQuery) :
    (q.escalation ((threshold ++ Numeral.optText 0x2c decaystep) ++ p)).cur = p := by
  obtain ⟨hnum, hstep, hdigit, hend⟩ := h
  rw [PragmaQuery.escalation, dropWhile_senAtoi, List.append_assoc,
    List.dropWhile_append_of_pos hnum]
  cases decaystep with
  | none =>
      obtain ⟨hminus, hcomma⟩ := hend rfl
      have hrest : (Numeral.optText 0x2c none ++ p).dropWhile (fun b => isDigit b || b == 0x2d) =
          p := by
        cases p with
        | nil => rfl
        | cons b p =>
            rw [List.headD_cons] at hdigit hminus
            exact List.dropWhile_cons_of_neg (by simp [hdigit, hminus])
      rw [hrest]
      dsimp only
      rw [if_neg hcomma]
  | some n =>
      have hrest : (Numeral.optText 0x2c (some n) ++ p).dropWhile
          (fun b => isDigit b || b == 0x2d) = 0x2c :: (n.text ++ p) :=
        List.dropWhile_cons_of_neg (by decide)
      rw [hrest]
      dsimp only
      rw [List.headD_cons, if_pos rfl, List.tail_cons, senAtoi_text (hstep n rfl) hdigit]

theorem getPragmaLoop_of_headD {encoding : SenEncoding} {q : PragmaQuery} {e : List UInt8}
    (h : e.headD 0 ≠ 0x2a) : getPragmaLoop encoding q e = q := by
  unfold getPragmaLoop
  split
  · exact absurd rfl h
  · rfl

/-- The loop ends behind the last pragma. -/
theorem getPragmaLoop_of_noPragma {encoding : SenEncoding} {rest : List UInt8}
    (h : NoPragma rest) (q : PragmaQuery) : getPragmaLoop encoding q rest = q := by
  unfold getPragmaLoop
  split
  · next c start =>
      have hc := h c start rfl
      simp only [List.mem_cons, List.not_mem_nil, or_false, not_or] at hc
      obtain ⟨he, hd, hw, hstar⟩ := hc
      rw [if_neg he, if_neg hd, if_neg hw]
      exact getPragmaLoop_of_headD hstar
  · rfl

open SectionWeights in
/-- **The pragmas** are read one after the other; afterwards the weights represent the lists,
and the query goes on behind the pragmas. -/
theorem getPragmaLoop_written {encoding : SenEncoding} {rest : List UInt8} {ps : List Pragma}
    (h : Begins encoding rest ps) {ls : List (List (Nat × Int))} {q : PragmaQuery}
    (hq : Represents ls q.weights) (hcur : q.cur = written ps rest) :
    Represents (ls ++ weightLists ps) (getPragmaLoop encoding q (written ps rest)).weights ∧
      (getPragmaLoop encoding q (written ps rest)).cur = rest := by
  induction ps generalizing ls q with
  | nil =>
      show Represents (ls ++ []) (getPragmaLoop encoding q rest).weights ∧
        (getPragmaLoop encoding q rest).cur = rest
      rw [getPragmaLoop_of_noPragma h, List.append_nil]
      exact ⟨hq, hcur⟩
  | cons p ps ih =>
      obtain ⟨hp, hps⟩ := h
      cases p with
      | weight items sep =>
          obtain ⟨w', hget, hw'⟩ := hq.getWeightVector hp.1 hp.2
          have hlists : ls ++ weightLists (.weight items sep :: ps) =
              ls ++ [items.map WeightItem.entry] ++ weightLists ps := by
            rw [List.append_assoc]
            rfl
          have hrun : getPragmaLoop encoding q (written (.weight items sep :: ps) rest) =
              getPragmaLoop encoding { q with weights := w', cur := written ps rest }
                (written ps rest) := by
            show getPragmaLoop encoding q
              (0x2a :: 0x57 :: (weightsText items sep ++ written ps rest)) = _
            rw [getPragmaLoop, if_neg (by decide), if_neg (by decide), if_pos rfl,
              PragmaQuery.weight, hget]
          rw [hlists, hrun]
          exact ih hps hw' rfl
      | escalation threshold decaystep =>
          have hend := cur_escalation hp q
          have hrun : getPragmaLoop encoding q
              (written (.escalation threshold decaystep :: ps) rest) =
              getPragmaLoop encoding (q.escalation ((threshold ++ Numeral.optText 0x2c decaystep) ++
                written ps rest)) (written ps rest) := by
            show getPragmaLoop encoding q
              (0x2a :: 0x45 ::
                ((threshold ++ Numeral.optText 0x2c decaystep) ++ written ps rest)) = _
            rw [getPragmaLoop, if_pos rfl, hend]
          rw [hrun]
          refine ih hps ?_ hend
          rw [PragmaQuery.escalation]
          dsimp only
          split_ifs
          · exact hq
          · exact hq
      | defaultOp word =>
          have hend := wordEnd_text hp.1 hp.2.1 hp.2.2
          have hrun : getPragmaLoop encoding q (written (.defaultOp word :: ps) rest) =
              getPragmaLoop encoding (q.setDefaultOp encoding (word ++ written ps rest))
                (written ps rest) := by
            show getPragmaLoop encoding q (0x2a :: 0x44 :: (word ++ written ps rest)) = _
            rw [getPragmaLoop, if_neg (by decide), if_pos rfl, hend]
          rw [hrun]
          exact ih hps hq hend

/-- The pragmas of a query text. -/
theorem openPragmas_written {encoding : SenEncoding} {rest : List UInt8} {ps : List Pragma}
    (h : Begins encoding rest ps) (defaultOp : SelOperator) :
    SectionWeights.Represents (weightLists ps)
        (openPragmas encoding (written ps rest) defaultOp).weights ∧
      (openPragmas encoding (written ps rest) defaultOp).cur = rest :=
  getPragmaLoop_written h (q := ⟨written ps rest, defaultOp, 0, 2, .unset⟩)
    SectionWeights.Represents.unset rfl

/-- The query `q₁` at a level of an execution of `q`, after `n` decay steps. -/
structure AtLevel (q : ExecQuery) (n : Nat) (q₁ : ExecQuery) : Prop where
  weightSet : q₁.weightSet = q.weightSet
  opt : SameWeights q.opt q₁.opt
  decaystep : q₁.escalationDecaystep = q.escalationDecaystep
  offset : q₁.weightOffset = q.weightOffset - n * q.escalationDecaystep

/-- `q` weights the occurrences of some keyword with `w`. -/
def ExecQuery.Applies (q : ExecQuery) (w : Weighting) : Prop :=
  ∃ n q₁ ope opt, AtLevel q n q₁ ∧ SameWeights q₁.opt opt ∧ q₁.weighting (q₁.execOptFor ope opt) = w

section

universe u

variable {ρ : Type u} {E : Engine ρ} {q q₁ : ExecQuery}
  {select : List UInt8 → SelMode → Int → Int → Weighting → SelOperator → ρ → SenRc × ρ}

/-- The operand does not matter, and after it the rest does not. -/
theorem proceed_select {opt : SelectOptarg} (hopt : SameWeights q.opt opt)
    {a : Bool × SelectOptarg × ρ} (hframe : SameWeights opt a.2.1)
    {run run' : SelectOptarg × ρ → Bool × SelectOptarg × ρ}
    (hrun : ∀ opt s, SameWeights q.opt opt → run (opt, s) = run' (opt, s)) :
    proceed run a = proceed run' a := by
  obtain ⟨ok, opt', s⟩ := a
  cases ok with
  | false => rfl
  | true => exact hrun opt' s (hopt.trans hframe)

mutual

theorem execCell_select (hsel : ∀ ope opt, SameWeights q.opt opt → ∀ v mode i t op r,
      select v mode i t (q.weighting (q.execOptFor ope opt)) op r =
        E.select v mode i t (q.weighting (q.execOptFor ope opt)) op r) :
    ∀ (e : Cell) (ope : Option Op) (op : SelOperator) (opt : SelectOptarg) (s : ρ),
      SameWeights q.opt opt →
      execCell { E with select := select } q e ope op (opt, s) = execCell E q e ope op (opt, s)
  | .nil, _, _, _, _, _ => rfl
  | .op _, _, _, _, _, _ => rfl
  | .bulk v, ope, op, opt, s, hopt => by
      simp only [execCell, hsel ope opt hopt]
  | .list l, _, op, opt, s, hopt => by
      have hrun (s : ρ) := execCells_select hsel l true none q.defaultOp opt s hopt
      simp only [execCell, Engine.around, Engine.combine, hrun]

/-- Selections that agree for the weights in use make no difference. -/
theorem execCells_select (hsel : ∀ ope opt, SameWeights q.opt opt → ∀ v mode i t op r,
      select v mode i t (q.weighting (q.execOptFor ope opt)) op r =
        E.select v mode i t (q.weighting (q.execOptFor ope opt)) op r) :
    ∀ (c : List Cell) (first : Bool) (ope : Option Op) (op1 : SelOperator) (opt : SelectOptarg)
      (s : ρ), SameWeights q.opt opt →
      execCells { E with select := select } q c first ope op1 (opt, s) =
        execCells E q c first ope op1 (opt, s)
  | [], _, _, _, _, _, _ => rfl
  | .op o :: c, first, ope, op1, opt, s, hopt => by
      unfold execCells
      split_ifs
      · match c with
        | [] => rfl
        | _ :: c => exact execCells_select hsel c first ope op1 opt s hopt
      · exact execCells_select hsel c first (some o) o.op opt s hopt
  | .nil :: c, first, ope, op1, opt, s, hopt => by
      simpa only [execCells, execCell, proceed] using
        execCells_select hsel c false none q.defaultOp opt s hopt
  | .bulk v :: c, first, ope, op1, opt, s, hopt => by
      have hcell := execCell_select hsel (.bulk v) ope (if first then .or else op1) opt s hopt
      have hframe := (execCell_agree (E := E) (.refl q) rfl (.bulk v) ope
        (if first then .or else op1) opt opt s hopt (.refl opt)).frame
      simp only [execCells]
      rw [hcell]
      exact proceed_select hopt hframe
        fun opt s hopt => execCells_select hsel c false none q.defaultOp opt s hopt
  | .list l :: c, first, ope, op1, opt, s, hopt => by
      have hcell := execCell_select hsel (.list l) ope (if first then .or else op1) opt s hopt
      have hframe := (execCell_agree (E := E) (.refl q) rfl (.list l) ope
        (if first then .or else op1) opt opt s hopt (.refl opt)).frame
      simp only [execCells]
      rw [hcell]
      exact proceed_select hopt hframe
        fun opt s hopt => execCells_select hsel c false none q.defaultOp opt s hopt

end

theorem AtLevel.refl (q : ExecQuery) : AtLevel q 0 q :=
  ⟨rfl, .refl _, rfl, by rw [Nat.cast_zero, Int.zero_mul, Int.sub_zero]⟩

theorem AtLevel.lower {n : Nat} (h : AtLevel q n q₁) : AtLevel q (n + 1) q₁.lower where
  weightSet := h.weightSet
  opt := h.opt
  decaystep := h.decaystep
  offset := by
    show q₁.weightOffset - q₁.escalationDecaystep = _
    rw [h.offset, h.decaystep, Nat.cast_succ, Int.add_mul, Int.one_mul]
    omega

/-- One level uses no other weights. -/
theorem level_select (hsel : ∀ w, q.Applies w → ∀ v mode i t op r,
      select v mode i t w op r = E.select v mode i t w op r)
    {n : Nat} (h : AtLevel q n q₁) (mode : SelMode) (op : SelOperator) (r : ρ) :
    Engine.level { E with select := select } mode op (q₁, r) = E.level mode op (q₁, r) ∧
      AtLevel q n (E.level mode op (q₁, r)).1 := by
  have hmode : AtLevel q n { q₁ with defaultMode := mode } :=
    ⟨h.weightSet, h.opt, h.decaystep, h.offset⟩
  have hrun (opt : SelectOptarg) (s : ρ) (hopt : SameWeights q₁.opt opt) :=
    execCells_select (q := { q₁ with defaultMode := mode })
      (fun ope opt hopt => hsel _ ⟨n, _, ope, opt, hmode, hopt, rfl⟩) q₁.expr true none
      q₁.defaultOp opt s hopt
  have halike := (level_alike (E := E) (.refl q₁) mode op r).2.2
  refine ⟨?_, halike.weightSet.trans h.weightSet, h.opt.trans halike.opt,
    halike.decaystep.trans h.decaystep, h.offset⟩
  simp only [Engine.level, execQuery, Engine.around, Engine.combine, hrun _ _ (.refl _)]

theorem furtherLevel_select (hsel : ∀ w, q.Applies w → ∀ v mode i t op r,
      select v mode i t w op r = E.select v mode i t w op r)
    {n : Nat} (h : AtLevel q n q₁) (bit : Nat) (mode : SelMode) (op : SelOperator) (r : ρ) :
    Engine.furtherLevel { E with select := select } bit mode op (q₁, r) =
        E.furtherLevel bit mode op (q₁, r) ∧
      ∃ n', AtLevel q n' (E.furtherLevel bit mode op (q₁, r)).1 := by
  have hescalates : Engine.escalates { E with select := select } q₁.escalationThreshold bit r =
      E.escalates q₁.escalationThreshold bit r := rfl
  unfold Engine.furtherLevel
  rw [hescalates]
  split_ifs
  · obtain ⟨heq, hlevel⟩ := level_select hsel h.lower mode op r
    exact ⟨heq, n + 1, hlevel⟩
  · exact ⟨rfl, n, h⟩

/-- **An execution uses only the weights that `Applies` names**: a selection that agrees for
these leads to the same result. -/
theorem senQueryExec_select (hsel : ∀ w, q.Applies w → ∀ v mode i t op r,
      select v mode i t w op r = E.select v mode i t w op r) (r : ρ) (op : SelOperator) :
    senQueryExec { E with select := select } q r op = senQueryExec E q r op := by
  have hexact : Engine.exactLevel { E with select := select } op (q, r) =
        E.exactLevel op (q, r) ∧ AtLevel q 0 (E.exactLevel op (q, r)).1 := by
    unfold Engine.exactLevel
    dsimp only
    split_ifs
    · exact level_select hsel (.refl q) .exact op r
    · exact ⟨rfl, .refl q⟩
  obtain ⟨heq, h₀⟩ := hexact
  obtain ⟨heq₁, n₁, h₁⟩ := furtherLevel_select hsel h₀ 1 .unsplit op (E.exactLevel op (q, r)).2
  obtain ⟨heq₂, -⟩ := furtherLevel_select hsel h₁ 2 .partial_ op
    (E.furtherLevel 1 .unsplit op (E.exactLevel op (q, r))).2
  unfold senQueryExec
  rw [heq, heq₁, heq₂]

end

/-- No value is lost: all lists fit the vector, or the sections that the lists before the first
larger one give a weight are listed again from that list on. -/
def Kept (ls : List (List (Nat × Int))) : Prop :=
  ls.all Small = true ∨
    ∀ k, 1 ≤ k → (lastGiven (ls.takeWhile Small).flatten k).getD 0 ≠ 0 →
      ∃ e ∈ (ls.dropWhile Small).flatten, e.1 = k

/-- The entries that the weights of a query come from. -/
def keptEntries (ls : List (List (Nat × Int))) : List (Nat × Int) :=
  if ls.all Small then ls.flatten else (ls.dropWhile Small).flatten

section

variable {ls : List (List (Nat × Int))} {pq : PragmaQuery}

/-- The weights come from the vector or the set, whatever the cells say. -/
theorem SectionWeights.Represents.weight (h : Represents ls pq.weights) (hne : ls ≠ [])
    {raw : SenQuery} {w : Weighting} (hw : (pq.opened raw).Applies w) {k : Nat} (hk : 1 ≤ k) :
    w.of k = (lastGiven (keptEntries ls) k).getD 0 := by
  obtain ⟨n, q₁, ope, opt, hlevel, hopt, rfl⟩ := hw
  have hsame := (hlevel.opt.trans hopt).trans (SameWeights.execOptFor q₁ ope opt)
  have hset : q₁.weightSet = pq.weights.set := hlevel.weightSet
  have hvec : (q₁.execOptFor ope opt).weightVector = pq.weights.vector := hsame.vector
  have hsize (hsome : pq.weights.vector.isSome) : (q₁.execOptFor ope opt).vectorSize = 4096 :=
    hsame.size hsome
  generalize pq.weights = weights at h hset hvec hsize
  cases h with
  | unset => exact absurd rfl hne
  | vector _ hsmall h =>
      obtain ⟨v, hv, hlen, hget⟩ := h.vector
      rw [hv] at hvec hsize
      have hweighting : q₁.weighting (q₁.execOptFor ope opt) = .static v 4096 := by
        rw [ExecQuery.weighting, hset, h.set]
        dsimp only
        rw [hvec, hsize rfl, if_pos (by norm_num)]
      rw [hweighting, keptEntries, if_pos hsmall, ← hget k hk]
      show (if (k : Int) ≤ 4096 then v.getD (k - 1) 0 else 0) = _
      split_ifs with hle
      · rfl
      · rw [weightVectorSize] at hlen
        rw [List.getD_eq_getElem?_getD, List.getElem?_eq_none (by omega)]
        rfl
  | set hbig h =>
      have hweighting : q₁.weighting (q₁.execOptFor ope opt) =
          .dynamic fun sid => (lastGiven (ls.dropWhile Small).flatten sid).getD 0 := by
        rw [ExecQuery.weighting, hset, h]
      rw [hweighting, keptEntries, hbig, if_neg Bool.false_ne_true]
      rfl

/-- Some weights are applied. -/
theorem ExecQuery.applies_self (q : ExecQuery) :
    q.Applies (q.weighting (q.execOptFor none q.opt)) :=
  ⟨0, q, none, q.opt, .refl q, .refl _, rfl⟩

/-- The entries that are left say the same as all of them exactly if no value was lost. -/
theorem kept_iff_lastGiven (ls : List (List (Nat × Int))) :
    (∀ k, 1 ≤ k → (lastGiven (keptEntries ls) k).getD 0 = (lastGiven ls.flatten k).getD 0) ↔
      Kept ls := by
  rw [Kept, keptEntries]
  cases hsmall : ls.all Small with
  | true => simp
  | false =>
      rw [if_neg Bool.false_ne_true]
      simp only [Bool.false_eq_true, false_or]
      refine forall_congr' fun k => forall_congr' fun _ => ?_
      have hsplit : ls.flatten = (ls.takeWhile Small).flatten ++ (ls.dropWhile Small).flatten := by
        rw [← List.flatten_append, List.takeWhile_append_dropWhile]
      have hsome : (lastGiven (ls.dropWhile Small).flatten k).isSome = true ↔
          ∃ e ∈ (ls.dropWhile Small).flatten, e.1 = k := by
        rw [lastGiven, List.lookup_isSome_iff]
        simp only [List.mem_reverse, beq_iff_eq]
        exact exists_congr fun e => and_congr_right fun _ => eq_comm
      rw [hsplit, lastGiven_append, ← hsome]
      cases lastGiven (ls.dropWhile Small).flatten k with
      | none => simp [eq_comm]
      | some v => simp

/-- **The weights of the sections.** For a query text that begins with the pragmas `ps`, the
execution weights every section by the value given last for it, exactly if there is a list of
weights and no value is lost. -/
theorem sectionWeights_iff {encoding : SenEncoding} {rest : List UInt8} {ps : List Pragma}
    (hps : Begins encoding rest ps) (defaultOp : SelOperator) (raw : SenQuery) :
    (∀ w, ((openPragmas encoding (written ps rest) defaultOp).opened raw).Applies w →
        ∀ k, 1 ≤ k → w.of k = givenWeight ps k) ↔
      weightLists ps ≠ [] ∧ Kept (weightLists ps) := by
  have hread := (openPragmas_written hps defaultOp).1
  generalize openPragmas encoding (written ps rest) defaultOp = pq at hread
  have hself := (pq.opened raw).applies_self
  constructor
  · intro h
    have hne : weightLists ps ≠ [] := by
      intro hnil
      have hone := h _ hself 1 (le_refl 1)
      rw [hnil] at hread
      rw [givenWeight, hnil, ExecQuery.weighting] at hone
      simp [PragmaQuery.opened, hread.of_nil, SectionWeights.unset, ExecQuery.execOptFor,
        SenQuery.optFor, Weighting.of, lastGiven] at hone
    refine ⟨hne, (kept_iff_lastGiven _).mp fun k hk => ?_⟩
    rw [← hread.weight hne hself hk]
    exact h _ hself k hk
  · rintro ⟨hne, hkept⟩ w hw k hk
    rw [hread.weight hne hw hk]
    exact (kept_iff_lastGiven _).mpr hkept k hk

end

theorem numeral_ok (d : Fin 10) : (⟨false, [d]⟩ : Numeral).Ok :=
  ⟨List.cons_ne_nil _ _, by revert d; decide⟩

/-- `*W1:2,*W5000:3,1` before a keyword: the first section is listed again. -/
theorem sectionWeights_iff_relisted :
    let ps := [.weight [⟨[1], some ⟨false, [2]⟩⟩] true,
      .weight [⟨[5, 0, 0, 0], some ⟨false, [3]⟩⟩, ⟨[1], none⟩] false]
    Begins .utf8 [0x20, 0x71] ps ∧ Kept (weightLists ps) ∧
      ∀ w, ((openPragmas .utf8 (written ps [0x20, 0x71]) .or).opened
          (sampleQuery [.bulk [0x71]])).Applies w → ∀ k, 1 ≤ k → w.of k = givenWeight ps k := by
  intro ps
  have hfirst : (⟨[1], some ⟨false, [2]⟩⟩ : WeightItem).Ok :=
    ⟨by decide, by decide, fun n hn => Option.some.inj hn ▸ numeral_ok 2⟩
  have hbig : (⟨[5, 0, 0, 0], some ⟨false, [3]⟩⟩ : WeightItem).Ok :=
    ⟨by decide, by decide, fun n hn => Option.some.inj hn ▸ numeral_ok 3⟩
  have hagain : (⟨[1], none⟩ : WeightItem).Ok := ⟨by decide, by decide, nofun⟩
  have hbegins : Begins .utf8 [0x20, 0x71] ps := by
    refine ⟨⟨by simpa using hfirst, rfl⟩, ⟨by simpa using ⟨hbig, hagain⟩, ?_⟩, nofun⟩
    exact ⟨⟨rfl, fun _ => by decide⟩, by decide⟩
  have hkept : Kept (weightLists ps) := by
    refine Or.inr fun k hk hne => ⟨(1, 1), by decide, ?_⟩
    have hlast : lastGiven ((weightLists ps).takeWhile Small).flatten k =
        if k = 1 then some 2 else none := lastGiven_concat [] (1, 2) k
    by_contra hk'
    rw [hlast, if_neg (Ne.symm hk')] at hne
    exact hne rfl
  exact ⟨hbegins, hkept, (sectionWeights_iff hbegins .or _).mpr ⟨by decide, hkept⟩⟩

/-- `*W1:2*W5000:3` before a keyword: the first section has lost its weight. -/
theorem sectionWeights_lost :
    let ps := [.weight [⟨[1], some ⟨false, [2]⟩⟩] false,
      .weight [⟨[5, 0, 0, 0], some ⟨false, [3]⟩⟩] false]
    let q := (openPragmas .utf8 (written ps [0x20, 0x71]) .or).opened (sampleQuery [.bulk [0x71]])
    Begins .utf8 [0x20, 0x71] ps ∧
      written ps [0x20, 0x71] = [0x2a, 0x57, 0x31, 0x3a, 0x32, 0x2a, 0x57, 0x35, 0x30, 0x30, 0x30,
        0x3a, 0x33, 0x20, 0x71] ∧
      ∃ w, q.Applies w ∧ w.of 1 = 0 ∧ givenWeight ps 1 = 2 := by
  intro ps q
  have hfirst : (⟨[1], some ⟨false, [2]⟩⟩ : WeightItem).Ok :=
    ⟨by decide, by decide, fun n hn => Option.some.inj hn ▸ numeral_ok 2⟩
  have hbig : (⟨[5, 0, 0, 0], some ⟨false, [3]⟩⟩ : WeightItem).Ok :=
    ⟨by decide, by decide, fun n hn => Option.some.inj hn ▸ numeral_ok 3⟩
  have hbegins : Begins .utf8 [0x20, 0x71] ps := by
    refine ⟨⟨by simpa using hfirst, ?_⟩, ⟨by simpa using hbig, ?_⟩, nofun⟩
    · exact ⟨⟨rfl, nofun⟩, by decide⟩
    · exact ⟨⟨rfl, nofun⟩, by decide⟩
  have hread := (openPragmas_written hbegins .or).1
  have hweight := hread.weight (by decide) q.applies_self (le_refl 1)
  exact ⟨hbegins, by decide, _, q.applies_self, hweight.trans (by decide), by decide⟩

end Senna.Query
